import VectorVrl.Proofs.Lookup
import VectorVrl.Registry

namespace VectorVrl.Proofs.Snapshot
open Lib.Runs Loading Lookup

/-- A table without its index cache: what was loaded. -/
def contents : EnrichmentTable → EnrichmentTable
  | .file t => .file { t with indexes := ⟨false, ∅⟩ }
  | .geoip t => .geoip t

theorem contents_idem (found : EnrichmentTable) : contents (contents found) = contents found := by
  cases found <;> rfl

theorem contents_loaded [Libraries] {files : Files} {name kind path : String} {delimiter : UInt8}
    {found : EnrichmentTable} (h : loadTable files name kind path delimiter = .ok found) :
    contents found = found := by
  unfold loadTable at h
  split at h
  · cases h
  · split at h
    · cases hl : FileTable.load files path delimiter with
      | error e => simp [hl, Except.map] at h
      | ok t =>
        simp only [hl, Except.map, Except.ok.injEq] at h
        subst h
        rw [contents, ← load_cache hl]
    · split at h
      · cases hl : GeoipTable.load files path with
        | error e => simp [hl, Except.map] at h
        | ok t =>
          simp only [hl, Except.map, Except.ok.injEq] at h
          subst h
          rfl
      · cases h

theorem bound_iff {Ctx : Type} {w : World Ctx} {name : String} {data : Nat} {found : EnrichmentTable} :
    w.bound name = some (data, found) ↔
      w.registry[name]? = some data ∧ w.tables[data]? = some found := by
  unfold World.bound
  cases hb : w.registry[name]? with
  | none => simp
  | some data' =>
    cases hf : w.tables[data']? with
    | none =>
      simp only [Option.bind_eq_bind, Option.bind_some, hf, Option.bind_none, Option.some.injEq,
        reduceCtorEq, false_iff, not_and]
      rintro rfl
      simp [hf]
    | some found' =>
      simp only [Option.bind_eq_bind, Option.bind_some, hf, Option.pure_def, Option.some.injEq,
        Prod.mk.injEq, and_congr_right_iff]
      rintro rfl
      simp [hf]

section
variable [Libraries]

/-- The cache of a shared table agrees with its rows. -/
def Sound : EnrichmentTable → Prop
  | .file t => Coherent t
  | .geoip _ => True

theorem contents_sound (found : EnrichmentTable) : Sound (contents found) := by
  cases found with
  | file t =>
    intro key index hc
    rw [cached_iff] at hc
    simp at hc
  | geoip t => trivial

/-- Rows are found in the contents alone. -/
theorem find_rows_contents (found : EnrichmentTable) :
    (contents found).findRows = found.findRows := by
  cases found with
  | file t => rfl
  | geoip t => rfl

theorem resolve_on_contents {found other : EnrichmentTable} (h : contents found = contents other)
    {Ctx : Type} (fn : LookupFn) (args : CompiledArgs Ctx) :
    resolveOn found fn args = resolveOn other fn args := by
  have hrows : found.findRows = other.findRows := by
    rw [← find_rows_contents found, h, find_rows_contents]
  simp only [resolveOn, hrows]

theorem index_for_contents {found : EnrichmentTable} (h : Sound found) (caseSensitive : Bool)
    (fields : List String) :
    (found.indexFor caseSensitive fields).1 =
      ((contents found).indexFor caseSensitive fields).1 := by
  cases found with
  | file t =>
    have hfresh := contents_sound (.file t)
    simp only [EnrichmentTable.indexFor, contents, index_for_eq h, index_for_eq hfresh]
    rfl
  | geoip t => rfl

theorem index_for_keeps (found : EnrichmentTable) (caseSensitive : Bool) (fields : List String) :
    contents (found.indexFor caseSensitive fields).2 = contents found := by
  cases found with
  | file t =>
    obtain ⟨hheaders, hrows, hpath⟩ := index_for_frame t caseSensitive fields
    simp only [EnrichmentTable.indexFor, contents, hheaders, hrows, hpath]
  | geoip t => rfl

theorem index_for_sound {found : EnrichmentTable} (h : Sound found) (caseSensitive : Bool)
    (fields : List String) : Sound (found.indexFor caseSensitive fields).2 := by
  cases found with
  | file t => exact index_for_coherent h caseSensitive fields
  | geoip t => trivial

section
variable {Ctx : Type}

theorem compile_on_keeps (found : EnrichmentTable) (data : Nat) (table : String)
    (arguments : ArgumentList Ctx) :
    contents (compileOn found data table arguments).2 = contents found := by
  unfold compileOn
  split
  · rfl
  · rfl
  · exact index_for_keeps found _ _

theorem compile_on_sound {found : EnrichmentTable} (h : Sound found) (data : Nat)
    (table : String) (arguments : ArgumentList Ctx) :
    Sound (compileOn found data table arguments).2 := by
  unfold compileOn
  split
  · exact h
  · exact h
  · exact index_for_sound h _ _

/-- Compiling against a shared table gives what its contents alone give. -/
theorem compile_on_contents {found : EnrichmentTable} (h : Sound found) (data : Nat)
    (table : String) (arguments : ArgumentList Ctx) :
    (compileOn found data table arguments).1 =
      (compileOn (contents found) 0 table arguments).1.map fun args => { args with data } := by
  unfold compileOn
  split
  · rfl
  · rfl
  · simp only [index_for_contents h, Except.map]

theorem compile_on_known {found : EnrichmentTable} {data : Nat} {table : String}
    {arguments : ArgumentList Ctx} (e : UnknownTable) :
    (compileOn found data table arguments).1 ≠ .error (.unknownTable e) := by
  unfold compileOn
  split <;> simp

end

section
variable {Ctx : Type}

/-- What any step preserves: tables keep their contents and sound caches, and
programs stay. -/
structure Grows (w w' : World Ctx) : Prop where
  kept : ∀ (i : Nat) found, w.tables[i]? = some found →
    ∃ found', w'.tables[i]? = some found' ∧ contents found' = contents found
  sound : (∀ found ∈ w.tables, Sound found) → ∀ found ∈ w'.tables, Sound found
  programs : w.programs <+: w'.programs

theorem grows_refl (w : World Ctx) : Grows w w :=
  ⟨fun _ found h => ⟨found, h, rfl⟩, id, List.prefix_rfl⟩

theorem grows_trans {w w' w'' : World Ctx} (h : Grows w w') (h' : Grows w' w'') :
    Grows w w'' := by
  refine ⟨?_, fun hs => h'.sound (h.sound hs), h.programs.trans h'.programs⟩
  intro i found hi
  obtain ⟨found', hi', hc⟩ := h.kept i found hi
  obtain ⟨found'', hi'', hc'⟩ := h'.kept i found' hi'
  exact ⟨found'', hi'', hc'.trans hc⟩

theorem register_grows (w : World Ctx) (files : Files) (name kind path : String)
    (delimiter : UInt8) : Grows w (w.registerTable files name kind path delimiter).2 := by
  unfold World.registerTable
  cases hl : loadTable files name kind path delimiter with
  | error e => exact grows_refl w
  | ok table =>
    refine ⟨?_, ?_, List.prefix_rfl⟩
    · intro i found hi
      have hlt := (List.getElem?_eq_some_iff.mp hi).1
      exact ⟨found, (List.getElem?_append_left hlt).trans hi, rfl⟩
    · intro hs found hmem
      rcases List.mem_append.mp hmem with hold | hnew
      · exact hs found hold
      · rw [List.mem_singleton.mp hnew, ← contents_loaded hl]
        exact contents_sound table

/-- A call that names a bound table is compiled against that table. -/
theorem compile_args_bound {w : World Ctx} {arguments : ArgumentList Ctx} {literal : ByteArray}
    {data : Nat} {found : EnrichmentTable} (ht : arguments.table = .ok literal)
    (hb : w.bound (fromUtf8Lossy literal) = some (data, found)) :
    (w.compileArgs arguments).1 = (compileOn found data (fromUtf8Lossy literal) arguments).1 ∧
    (w.compileArgs arguments).2 = { w with
      tables := w.tables.set data
        (compileOn found data (fromUtf8Lossy literal) arguments).2 } := by
  simp only [World.compileArgs, ht, hb, and_self]

theorem compile_args_unbound {w : World Ctx} {arguments : ArgumentList Ctx} {literal : ByteArray}
    (ht : arguments.table = .ok literal) (hb : w.bound (fromUtf8Lossy literal) = none) :
    w.compileArgs arguments =
      (.error (.unknownTable ⟨fromUtf8Lossy literal, w.registry.keys⟩), w) := by
  simp only [World.compileArgs, ht, hb]

theorem set_grows (w : World Ctx) {data : Nat} {found found' : EnrichmentTable}
    (hf : w.tables[data]? = some found) (hc : contents found' = contents found)
    (hs : Sound found → Sound found') :
    Grows w { w with tables := w.tables.set data found' } := by
  obtain ⟨hlt, hget⟩ := List.getElem?_eq_some_iff.mp hf
  refine ⟨?_, ?_, List.prefix_rfl⟩
  · intro i other hi
    by_cases heq : data = i
    · subst heq
      rw [hf] at hi
      cases hi
      exact ⟨found', List.getElem?_set_self hlt, hc⟩
    · exact ⟨other, (List.getElem?_set_ne heq).trans hi, rfl⟩
  · intro hall other hmem
    rcases List.mem_or_eq_of_mem_set hmem with hold | rfl
    · exact hall other hold
    · exact hs (hall found (hget ▸ List.getElem_mem hlt))

theorem compile_args_grows (w : World Ctx) (arguments : ArgumentList Ctx) :
    Grows w (w.compileArgs arguments).2 ∧
      (w.compileArgs arguments).2.registry = w.registry ∧
      (w.compileArgs arguments).2.tables.length = w.tables.length := by
  cases ht : arguments.table with
  | error e =>
    have hsame : w.compileArgs arguments = (.error (.argument e), w) := by
      simp only [World.compileArgs, ht]
    rw [hsame]
    exact ⟨grows_refl w, rfl, rfl⟩
  | ok literal =>
    cases hb : w.bound (fromUtf8Lossy literal) with
    | none =>
      rw [compile_args_unbound ht hb]
      exact ⟨grows_refl w, rfl, rfl⟩
    | some place =>
      obtain ⟨data, found⟩ := place
      rw [(compile_args_bound ht hb).2]
      exact ⟨set_grows w (bound_iff.mp hb).2 (compile_on_keeps found data _ arguments)
        fun hs => compile_on_sound hs data _ arguments, rfl, List.length_set⟩

theorem compile_grows (w : World Ctx) (fn : LookupFn) (arguments : ArgumentList Ctx) :
    Grows w (w.compile fn arguments).2 ∧ (w.compile fn arguments).2.registry = w.registry ∧
      (w.compile fn arguments).2.tables.length = w.tables.length := by
  obtain ⟨hgrows, hreg, hlen⟩ := compile_args_grows w arguments
  unfold World.compile
  split
  · rename_i e w' heq
    rw [heq] at hgrows hreg hlen
    exact ⟨hgrows, hreg, hlen⟩
  · rename_i args w' heq
    rw [heq] at hgrows hreg hlen
    refine ⟨grows_trans hgrows ⟨fun _ found h => ⟨found, h, rfl⟩, id, ?_⟩, hreg, hlen⟩
    exact List.prefix_append w'.programs [(fn, args)]

theorem step_grows {w w' : World Ctx} {op : Op Ctx} (h : w.step op = some w') : Grows w w' := by
  cases op with
  | register files name kind path delimiter =>
    cases h
    exact register_grows w files name kind path delimiter
  | clear =>
    cases h
    exact ⟨fun _ found h => ⟨found, h, rfl⟩, id, List.prefix_rfl⟩
  | compile fn arguments =>
    cases h
    exact (compile_grows w fn arguments).1
  | run program ctx =>
    obtain ⟨_, _, rfl⟩ := Option.map_eq_some_iff.mp h
    exact grows_refl w

theorem run_grows {w w' : World Ctx} {ops : List (Op Ctx)}
    (h : exec World.step w ops = some w') : Grows w w' :=
  exec_invariant (P := fun _ v => Grows w v) (grows_refl w)
    (fun _ _ _ _ _ hv hs => grows_trans hv (step_grows hs)) h

/-- The registry holds, under each name, the contents last bound to it. -/
structure Binds (ops : List (Op Ctx)) (w : World Ctx) : Prop where
  bound : ∀ name : String, (bindings ops)[name]? = (w.bound name).map fun place => contents place.2
  placed : ∀ (name : String) data, w.registry[name]? = some data → data < w.tables.length
  sound : ∀ found ∈ w.tables, Sound found

theorem bindings_snoc (ops : List (Op Ctx)) (op : Op Ctx) :
    bindings (ops ++ [op]) =
      match op with
      | .register files name kind path delimiter =>
        match loadTable files name kind path delimiter with
        | .ok table => (bindings ops).insert name table
        | .error _ => bindings ops
      | .clear => ∅
      | .compile _ _ | .run _ _ => bindings ops := by
  rw [bindings, List.foldl_append]
  rfl

theorem bound_of_grows {w w' : World Ctx} (h : Grows w w') (hreg : w'.registry = w.registry)
    (hlen : w'.tables.length = w.tables.length) (name : String) :
    ((w'.bound name).map fun place => contents place.2) =
      (w.bound name).map fun place => contents place.2 := by
  unfold World.bound
  rw [hreg]
  cases w.registry[name]? with
  | none => rfl
  | some data =>
    cases hf : w.tables[data]? with
    | none =>
      have hout : w'.tables[data]? = none := by
        rw [List.getElem?_eq_none_iff] at hf ⊢
        omega
      simp [hf, hout]
    | some found =>
      obtain ⟨found', hf', hc⟩ := h.kept data found hf
      simp [hf, hf', hc]

theorem register_binds {ops : List (Op Ctx)} {w : World Ctx} (h : Binds ops w) (files : Files)
    (name kind path : String) (delimiter : UInt8) :
    Binds (ops ++ [.register files name kind path delimiter])
      (w.registerTable files name kind path delimiter).2 := by
  have hsound := (register_grows w files name kind path delimiter).sound h.sound
  cases hl : loadTable files name kind path delimiter with
  | error e =>
    refine ⟨?_, ?_, hsound⟩
    · simp only [bindings_snoc, World.registerTable, hl]
      exact h.bound
    · simp only [World.registerTable, hl]
      exact h.placed
  | ok table =>
    refine ⟨?_, ?_, hsound⟩
    · intro other
      simp only [bindings_snoc, World.registerTable, hl, World.bound,
        Std.ExtTreeMap.getElem?_insert]
      split
      · simp [contents_loaded hl]
      · rw [h.bound other, World.bound]
        cases hb : w.registry[other]? with
        | none => rfl
        | some data =>
          have hold : (w.tables ++ [table])[data]? = w.tables[data]? :=
            List.getElem?_append_left (h.placed other data hb)
          simp [hold]
    · intro other data hb
      simp only [World.registerTable, hl, Std.ExtTreeMap.getElem?_insert] at hb ⊢
      rw [List.length_append, List.length_singleton]
      split at hb
      · cases hb
        omega
      · have := h.placed other data hb
        omega

theorem step_binds {ops : List (Op Ctx)} {w w' : World Ctx} {op : Op Ctx} (h : Binds ops w)
    (hs : w.step op = some w') : Binds (ops ++ [op]) w' := by
  cases op with
  | register files name kind path delimiter =>
    cases hs
    exact register_binds h files name kind path delimiter
  | clear =>
    cases hs
    refine ⟨fun name => ?_, fun name data hb => ?_, h.sound⟩
    · simp [bindings_snoc, World.clearTables, World.bound]
    · simp [World.clearTables] at hb
  | compile fn arguments =>
    cases hs
    obtain ⟨hgrows, hreg, hlen⟩ := compile_grows w fn arguments
    refine ⟨fun name => ?_, fun name data hb => ?_, hgrows.sound h.sound⟩
    · rw [bound_of_grows hgrows hreg hlen, bindings_snoc, h.bound]
    · rw [hlen]
      exact h.placed name data (hreg ▸ hb)
  | run program ctx =>
    obtain ⟨_, _, rfl⟩ := Option.map_eq_some_iff.mp hs
    refine ⟨fun name => ?_, h.placed, h.sound⟩
    rw [bindings_snoc, h.bound]

theorem run_binds {ops : List (Op Ctx)} {w : World Ctx}
    (h : exec World.step World.start ops = some w) : Binds ops w := by
  refine exec_invariant (P := Binds) ⟨?_, ?_, ?_⟩ (fun _ _ _ _ _ hb hs => step_binds hb hs) h
  · intro name
    simp [bindings, World.start, World.bound]
  · intro name data hb
    simp [World.start] at hb
  · intro found hf
    cases hf

theorem compile_unknown_iff (w : World Ctx) (fn : LookupFn) {arguments : ArgumentList Ctx}
    {literal : ByteArray} (ht : arguments.table = .ok literal) :
    (∃ e, (w.compile fn arguments).1 = .error (.unknownTable e)) ↔
      w.bound (fromUtf8Lossy literal) = none := by
  unfold World.compile
  cases hb : w.bound (fromUtf8Lossy literal) with
  | none => simp [compile_args_unbound ht hb]
  | some place =>
    obtain ⟨data, found⟩ := place
    have hargs := (compile_args_bound ht hb).1
    simp only [reduceCtorEq, iff_false, not_exists]
    intro e
    split
    · rename_i e' w' heq
      rw [heq] at hargs
      intro he
      simp only [Except.error.injEq] at he
      exact compile_on_known e (by rw [← hargs, he])
    · simp

theorem compile_ok {w : World Ctx} {fn : LookupFn} {arguments : ArgumentList Ctx} {program : Nat}
    (h : (w.compile fn arguments).1 = .ok program) :
    ∃ args, (w.compileArgs arguments).1 = .ok args ∧
      (w.compile fn arguments).2.programs[program]? = some (fn, args) ∧
      (w.compile fn arguments).2.tables = (w.compileArgs arguments).2.tables := by
  unfold World.compile at h ⊢
  split at h
  · cases h
  · rename_i args w' heq
    cases h
    exact ⟨args, by rw [heq], by simp, by rw [heq]⟩

/-- A compiled lookup stays with the contents it was compiled against. -/
theorem compiled_resolves {w w' : World Ctx} {fn : LookupFn} {arguments : ArgumentList Ctx}
    {literal : ByteArray} {data program : Nat} {found : EnrichmentTable} {later : List (Op Ctx)}
    (hsound : Sound found) (ht : arguments.table = .ok literal)
    (hb : w.bound (fromUtf8Lossy literal) = some (data, found))
    (hp : (w.compile fn arguments).1 = .ok program)
    (hr : exec World.step (w.compile fn arguments).2 later = some w') (ctx : Ctx) :
    w'.resolve program ctx =
      lookupOn (contents found) (fromUtf8Lossy literal) fn arguments ctx := by
  obtain ⟨args, hargs, hprog, htables⟩ := compile_ok hp
  obtain ⟨hfst, hsnd⟩ := compile_args_bound ht hb
  -- the program and its table as the later operations leave them
  have hgrows := run_grows hr
  have hplace : (w.compile fn arguments).2.tables[data]? =
      some (compileOn found data (fromUtf8Lossy literal) arguments).2 := by
    rw [htables, hsnd]
    exact List.getElem?_set_self (List.getElem?_eq_some_iff.mp (bound_iff.mp hb).2).1
  obtain ⟨found', hfound', hc'⟩ := hgrows.kept data _ hplace
  rw [compile_on_keeps] at hc'
  obtain ⟨newer, hnewer⟩ := hgrows.programs
  have hprog' : w'.programs[program]? = some (fn, args) := by
    rw [← hnewer, List.getElem?_append_left (List.getElem?_eq_some_iff.mp hprog).1, hprog]
  -- what the same call compiles to on the contents alone
  rw [hfst, compile_on_contents hsound] at hargs
  have hfresh := compile_on_keeps (contents found) 0 (fromUtf8Lossy literal) arguments
  unfold lookupOn
  cases hco : compileOn (contents found) 0 (fromUtf8Lossy literal) arguments with
  | mk compiled found₀ =>
    rw [hco] at hargs hfresh
    cases compiled with
    | error e => cases hargs
    | ok args₀ =>
      simp only [Except.map, Except.ok.injEq] at hargs
      subst hargs
      simp only [World.resolve, hprog', Option.bind_eq_bind, Option.bind_some, hfound']
      rw [contents_idem] at hfresh
      rw [resolve_on_contents (hc'.trans hfresh.symm)]
      rfl

/-- Compiled programs hold a snapshot: a name resolves exactly while it is
bound, and what was compiled keeps looking in the contents bound to it then. -/
theorem lookup_is_snapshot {ops : List (Op Ctx)} {w : World Ctx}
    (hr : exec World.step World.start ops = some w) (fn : LookupFn)
    {arguments : ArgumentList Ctx} {literal : ByteArray} (ht : arguments.table = .ok literal) :
    ((∃ e, (w.compile fn arguments).1 = .error (.unknownTable e)) ↔
      fromUtf8Lossy literal ∉ bindings ops) ∧
    ∀ bound, (bindings ops)[fromUtf8Lossy literal]? = some bound →
      ∀ program, (w.compile fn arguments).1 = .ok program →
        ∀ later w', exec World.step (w.compile fn arguments).2 later = some w' →
          ∀ ctx, w'.resolve program ctx =
            lookupOn bound (fromUtf8Lossy literal) fn arguments ctx := by
  have hinv := run_binds hr
  have hname := hinv.bound (fromUtf8Lossy literal)
  refine ⟨?_, ?_⟩
  · rw [compile_unknown_iff w fn ht, Std.ExtTreeMap.mem_iff_isSome_getElem?, hname]
    cases w.bound (fromUtf8Lossy literal) <;> simp
  · intro bound hbound program hp later w' hl ctx
    rw [hname] at hbound
    obtain ⟨⟨data, found⟩, hb, rfl⟩ := Option.map_eq_some_iff.mp hbound
    have hmem := List.mem_of_getElem? (bound_iff.mp hb).2
    exact compiled_resolves (hinv.sound found hmem) ht hb hp hl ctx

end

end

section
local instance : Libraries := asciiLibraries

def registerUsers : List (Op Unit) := [.register usersDisk "users" "file" "users.csv" 44]

def usersWorld : World Unit := ⟨[.file usersTable], (∅ : TableMap).insert "users" 0, []⟩

def findBob : ArgumentList Unit where
  table := .ok "users".toUTF8
  condition := .ok ((∅ : BTreeMap (Expression Unit)).insert "name" (pure (Value.ofStr "bob") : Eval Unit Value))
  select := none
  caseSensitive := .ok (some (.boolean false))

theorem users_snapshot :
    ((∃ e, (usersWorld.compile .findEnrichmentTableRecords findBob).1 =
        .error (.unknownTable e)) ↔
      fromUtf8Lossy "users".toUTF8 ∉ bindings registerUsers) ∧
    ∀ bound, (bindings registerUsers)[fromUtf8Lossy "users".toUTF8]? = some bound →
      ∀ program, (usersWorld.compile .findEnrichmentTableRecords findBob).1 = .ok program →
        ∀ later w', exec World.step (usersWorld.compile .findEnrichmentTableRecords findBob).2
            later = some w' →
          ∀ ctx, w'.resolve program ctx =
            lookupOn bound (fromUtf8Lossy "users".toUTF8) .findEnrichmentTableRecords findBob ctx :=
  @lookup_is_snapshot _ Unit registerUsers usersWorld rfl .findEnrichmentTableRecords findBob
    "users".toUTF8 rfl

end

end VectorVrl.Proofs.Snapshot
