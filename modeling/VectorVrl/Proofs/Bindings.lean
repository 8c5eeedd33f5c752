import VectorVrl.Proofs.Snapshot

namespace VectorVrl.Proofs.Bindings
open Lib.Runs Lib.Collect Loading Lookup Snapshot

/-- A listing is strictly ordered by name. -/
theorem list_tables_ordered {Ctx : Type} (w : World Ctx) :
    (w.listTables.map Prod.fst).Pairwise (· < ·) := by
  rw [List.pairwise_map]
  refine Std.ExtTreeMap.ordered_keys_toList.filterMap _ ?_
  intro a b hlt x hx y hy
  obtain ⟨_, _, rfl⟩ := Option.map_eq_some_iff.mp hx
  obtain ⟨_, _, rfl⟩ := Option.map_eq_some_iff.mp hy
  exact compareOfLessAndEq_eq_lt.mp hlt

section
variable [Libraries]

/-- A table has the kind and the path it was registered with. -/
theorem load_table_described {files : Files} {name kind path : String} {delimiter : UInt8}
    {table : EnrichmentTable} (h : loadTable files name kind path delimiter = .ok table) :
    table.kind = kind ∧ table.path = path := by
  unfold loadTable at h
  split at h
  · cases h
  · split at h
    · rename_i hkind
      obtain ⟨t, hl, rfl⟩ := map_ok_iff.mp h
      obtain ⟨_, _, _, _, _, rfl⟩ := load_ok_iff.mp hl
      exact ⟨hkind.symm, rfl⟩
    · split at h
      · rename_i hkind
        obtain ⟨t, hl, rfl⟩ := map_ok_iff.mp h
        refine ⟨hkind.symm, ?_⟩
        unfold GeoipTable.load at hl
        split at hl
        · cases hl
          rfl
        · cases hl
      · cases h

variable {Ctx : Type} {ops : List (Op Ctx)} {op : Op Ctx} {name : String}

theorem last_registered_described {kind path : String} {table : EnrichmentTable}
    (h : LastRegistered ops name kind path table) : table.kind = kind ∧ table.path = path := by
  obtain ⟨_, _, _, _, _, hl, _⟩ := h
  exact load_table_described hl

/-- An operation that does not rebind a name keeps what is bound to it. -/
theorem bindings_kept (h : ¬op.Rebinds name) :
    (bindings (ops ++ [op]))[name]? = (bindings ops)[name]? := by
  rw [bindings_snoc]
  cases op with
  | register files other kind path delimiter =>
    dsimp only
    split
    · rename_i table hl
      rw [Std.ExtTreeMap.getElem?_insert, if_neg]
      intro heq
      have hname := Std.LawfulEqCmp.eq_of_compare heq
      subst hname
      exact h ⟨rfl, table, hl⟩
    · rfl
  | clear => exact absurd trivial h
  | compile fn arguments => rfl
  | run program ctx => rfl

/-- After an operation that rebinds a name, only that operation can have bound it. -/
theorem bindings_rebound (h : op.Rebinds name) (table : EnrichmentTable) :
    (bindings (ops ++ [op]))[name]? = some table ↔
      ∃ files kind path delimiter, op = .register files name kind path delimiter ∧
        loadTable files name kind path delimiter = .ok table := by
  rw [bindings_snoc]
  cases op with
  | register files other kind path delimiter =>
    obtain ⟨rfl, loaded, hl⟩ := h
    simp only [hl, Std.ExtTreeMap.getElem?_insert_self, Option.some.injEq]
    constructor
    · intro heq
      subst heq
      exact ⟨files, kind, path, delimiter, rfl, hl⟩
    · intro hsome
      obtain ⟨files', kind', path', delimiter', hop, hl'⟩ := hsome
      cases hop
      rw [hl] at hl'
      exact Except.ok.inj hl'
  | clear => simp
  | compile fn arguments => exact h.elim
  | run program ctx => exact h.elim

theorem last_registered_kept (h : ¬op.Rebinds name) (kind path : String)
    (table : EnrichmentTable) :
    LastRegistered (ops ++ [op]) name kind path table ↔
      LastRegistered ops name kind path table := by
  constructor
  · intro hlast
    obtain ⟨before, files, delimiter, after, heq, hl, hafter⟩ := hlast
    cases after using List.reverseRecOn with
    | nil =>
      obtain ⟨_, hop⟩ := List.append_inj' heq rfl
      cases hop
      exact absurd ⟨rfl, table, hl⟩ h
    | append_singleton after last =>
      rw [← List.cons_append, ← List.append_assoc] at heq
      obtain ⟨hops, _⟩ := List.append_inj' heq rfl
      exact ⟨before, files, delimiter, after, hops, hl,
        fun op hop => hafter op (List.mem_append_left _ hop)⟩
  · intro hlast
    obtain ⟨before, files, delimiter, after, rfl, hl, hafter⟩ := hlast
    refine ⟨before, files, delimiter, after ++ [op], by simp, hl, ?_⟩
    intro other hother
    rcases List.mem_append.mp hother with hold | hnew
    · exact hafter other hold
    · rw [List.mem_singleton.mp hnew]
      exact h

theorem last_registered_rebound (h : op.Rebinds name) (kind path : String)
    (table : EnrichmentTable) :
    LastRegistered (ops ++ [op]) name kind path table ↔
      ∃ files delimiter, op = .register files name kind path delimiter ∧
        loadTable files name kind path delimiter = .ok table := by
  constructor
  · intro hlast
    obtain ⟨before, files, delimiter, after, heq, hl, hafter⟩ := hlast
    cases after using List.reverseRecOn with
    | nil =>
      obtain ⟨_, hop⟩ := List.append_inj' heq rfl
      exact ⟨files, delimiter, List.singleton_inj.mp hop, hl⟩
    | append_singleton after last =>
      rw [← List.cons_append, ← List.append_assoc] at heq
      obtain ⟨_, hlast⟩ := List.append_inj' heq rfl
      have hno := hafter last (by simp)
      rw [← List.singleton_inj.mp hlast] at hno
      exact absurd h hno
  · intro hsome
    obtain ⟨files, delimiter, rfl, hl⟩ := hsome
    exact ⟨ops, files, delimiter, [], rfl, hl, by simp⟩

/-- What is bound to a name is what its last successful registration since the last clear loaded. -/
theorem bindings_iff (ops : List (Op Ctx)) (name : String) (table : EnrichmentTable) :
    (bindings ops)[name]? = some table ↔ ∃ kind path, LastRegistered ops name kind path table := by
  induction ops using List.reverseRecOn with
  | nil => simp [bindings, LastRegistered]
  | append_singleton ops op ih =>
    by_cases h : op.Rebinds name
    · rw [bindings_rebound h]
      simp only [last_registered_rebound h]
      constructor
      · intro hsome
        obtain ⟨files, kind, path, delimiter, hop, hl⟩ := hsome
        exact ⟨kind, path, files, delimiter, hop, hl⟩
      · intro hsome
        obtain ⟨kind, path, files, delimiter, hop, hl⟩ := hsome
        exact ⟨files, kind, path, delimiter, hop, hl⟩
    · simp only [bindings_kept h, ih, last_registered_kept h]

theorem list_tables_mem {w : World Ctx} (h : Binds ops w) (kind path : String)
    (rows : Option Nat) :
    (name, kind, path, rows) ∈ w.listTables ↔
      ∃ table, (bindings ops)[name]? = some table ∧ table.kind = kind ∧ table.path = path ∧
        table.rowCount = rows := by
  have hsame : ∀ found : EnrichmentTable, (contents found).kind = found.kind ∧
      (contents found).path = found.path ∧ (contents found).rowCount = found.rowCount := by
    intro found
    cases found <;> exact ⟨rfl, rfl, rfl⟩
  simp only [World.listTables, List.mem_filterMap, Prod.exists, h.bound, Option.map_eq_some_iff,
    Std.ExtTreeMap.mem_toList_iff_getElem?_eq_some, bound_iff, Prod.mk.injEq]
  constructor
  · intro hsome
    obtain ⟨_, data, hreg, found, hfound, rfl, rfl, rfl, rfl⟩ := hsome
    exact ⟨contents found, ⟨data, found, ⟨hreg, hfound⟩, rfl⟩, hsame found⟩
  · intro hsome
    obtain ⟨_, ⟨data, found, ⟨hreg, hfound⟩, rfl⟩, rfl, rfl, rfl⟩ := hsome
    obtain ⟨hkind, hpath, hrows⟩ := hsame found
    exact ⟨name, data, hreg, found, hfound, rfl, hkind.symm, hpath.symm, hrows.symm⟩

/-- A registration that succeeds binds what it loaded and changes no other name. -/
theorem register_binds_own {w : World Ctx} (h : Binds ops w) {files : Files} {kind path : String}
    {delimiter : UInt8} (hok : (w.registerTable files name kind path delimiter).1 = .ok ()) :
    (∃ data table, loadTable files name kind path delimiter = .ok table ∧
      (w.registerTable files name kind path delimiter).2.bound name = some (data, table)) ∧
    ∀ other ≠ name, (w.registerTable files name kind path delimiter).2.bound other =
      w.bound other := by
  unfold World.registerTable at hok ⊢
  cases hl : loadTable files name kind path delimiter with
  | error e => simp [hl] at hok
  | ok table =>
    refine ⟨⟨w.tables.length, table, rfl, bound_iff.mpr ⟨by simp, by simp⟩⟩, ?_⟩
    intro other hne
    have hkeep : (w.registry.insert name w.tables.length)[other]? = w.registry[other]? := by
      rw [Std.ExtTreeMap.getElem?_insert, if_neg]
      intro heq
      exact hne (Std.LawfulEqCmp.eq_of_compare heq).symm
    simp only [World.bound, hkeep]
    cases hb : w.registry[other]? with
    | none => rfl
    | some data =>
      have hold : (w.tables ++ [table])[data]? = w.tables[data]? :=
        List.getElem?_append_left (h.placed other data hb)
      simp [hold]

/-- The registry is a map from names: a failed registration leaves it as it was,
a successful one sets its own name, and a listing is the map in name order. -/
theorem registry_is_map {w : World Ctx} (hr : exec World.step World.start ops = some w) :
    (∀ files name kind path delimiter,
      (∀ e, (w.registerTable files name kind path delimiter).1 = .error e →
        (w.registerTable files name kind path delimiter).2 = w) ∧
      ((w.registerTable files name kind path delimiter).1 = .ok () →
        (∃ data table, loadTable files name kind path delimiter = .ok table ∧
          (w.registerTable files name kind path delimiter).2.bound name = some (data, table)) ∧
        ∀ other ≠ name, (w.registerTable files name kind path delimiter).2.bound other =
          w.bound other)) ∧
    (w.listTables.map Prod.fst).Pairwise (· < ·) ∧
    ∀ name kind path rows, (name, kind, path, rows) ∈ w.listTables ↔
      ∃ table, LastRegistered ops name kind path table ∧ table.rowCount = rows := by
  have h := run_binds hr
  refine ⟨?_, list_tables_ordered w, ?_⟩
  · intro files name kind path delimiter
    refine ⟨?_, register_binds_own h⟩
    intro e he
    unfold World.registerTable at he ⊢
    cases hl : loadTable files name kind path delimiter with
    | error e => rfl
    | ok table => simp [hl] at he
  · intro name kind path rows
    rw [list_tables_mem h]
    constructor
    · intro hsome
      obtain ⟨table, hbound, rfl, rfl, hrows⟩ := hsome
      obtain ⟨kind, path, hlast⟩ := (bindings_iff ops name table).mp hbound
      obtain ⟨hkind, hpath⟩ := last_registered_described hlast
      rw [hkind, hpath]
      exact ⟨table, hlast, hrows⟩
    · intro hsome
      obtain ⟨table, hlast, hrows⟩ := hsome
      obtain ⟨hkind, hpath⟩ := last_registered_described hlast
      exact ⟨table, (bindings_iff ops name table).mpr ⟨kind, path, hlast⟩, hkind, hpath, hrows⟩

end

section
local instance : Libraries := asciiLibraries

/-- A disk with one user left. -/
def oneUserDisk : Files where
  openCsv path _ :=
    if path = "users.csv" then .ok ⟨.ok ["id", "name"], [.ok ["4", "Eve"]]⟩
    else .error "No such file or directory"
  openMmdb _ := .error "No such file or directory"

/-- A table that a clear takes away, one that is replaced between two failures, and a last one. -/
def usersHistory : List (Op Unit) :=
  [.register usersDisk "old" "file" "users.csv" 44, .clear,
    .register usersDisk "users" "file" "missing.csv" 44,
    .register usersDisk "users" "file" "users.csv" 44,
    .register oneUserDisk "users" "file" "users.csv" 44,
    .register usersDisk "users" "file" "missing.csv" 44,
    .register usersDisk "staff" "file" "users.csv" 44]

theorem history_listed :
    ∃ w, exec World.step World.start usersHistory = some w ∧
      w.listTables =
        [("staff", "file", "users.csv", some 3), ("users", "file", "users.csv", some 1)] ∧
      (w.listTables.map Prod.fst).Pairwise (· < ·) ∧
      ∀ name kind path rows, (name, kind, path, rows) ∈ w.listTables ↔
        ∃ table, LastRegistered usersHistory name kind path table ∧ table.rowCount = rows := by
  have hlisted : ((exec World.step World.start usersHistory).map World.listTables) =
      some [("staff", "file", "users.csv", some 3), ("users", "file", "users.csv", some 1)] := by
    decide +kernel
  obtain ⟨w, hr, hlist⟩ := Option.map_eq_some_iff.mp hlisted
  exact ⟨w, hr, hlist, (registry_is_map hr).2⟩

end

end VectorVrl.Proofs.Bindings
