import VectorVrl.Proofs.Snapshot
import VectorVrl.SharedRegistry

namespace VectorVrl.Proofs.Linearizable
open Lib.Runs Lib.Locks Lib.Linearize Lookup Snapshot

section
variable {Ctx : Type}

theorem phase_set (s : SharedRegistry Ctx) (c other : Nat) (phase : RegistryPhase Ctx) :
    (s.setPhase c phase).phase other = if other = c then phase else s.phase other := rfl

@[simp] theorem set_phase_world (s : SharedRegistry Ctx) (c : Nat) (phase : RegistryPhase Ctx) :
    (s.setPhase c phase).world = s.world := rfl

@[simp] theorem set_phase_lock (s : SharedRegistry Ctx) (c : Nat) (phase : RegistryPhase Ctx) :
    (s.setPhase c phase).lock = s.lock := rfl

theorem take_moves {s t : SharedRegistry Ctx} {c : Nat} {mode : LockMode}
    {phase : RegistryPhase Ctx} (h : s.take c mode phase = some t) :
    ∃ lock, s.lock.acquire mode c = some lock ∧ t = { s with lock }.setPhase c phase := by
  obtain ⟨lock, hlock, rfl⟩ := Option.map_eq_some_iff.mp h
  exact ⟨lock, hlock, rfl⟩

/-- The world after a table is bound to a name. -/
def bindTable (w : World Ctx) (name : String) (table : EnrichmentTable) : World Ctx :=
  { w with
    tables := w.tables ++ [table]
    registry := w.registry.insert name w.tables.length }

/-- The arguments a located lookup is compiled to. -/
def siteArgs (site : Located Ctx) (index : Option RowIndex) (arguments : ArgumentList Ctx) :
    CompiledArgs Ctx :=
  ⟨site.table, site.data, index, site.condition, arguments.select, site.caseSensitive⟩

/-- Two worlds with the same names bound to the same contents. -/
structure SameTables (w w' : World Ctx) : Prop where
  registry : w'.registry = w.registry
  contents : w'.tables.map contents = w.tables.map contents

theorem SameTables.refl (w : World Ctx) : SameTables w w := ⟨rfl, rfl⟩

theorem SameTables.length {w w' : World Ctx} (h : SameTables w w') :
    w'.tables.length = w.tables.length := by
  have hlength := congrArg List.length h.contents
  rwa [List.length_map, List.length_map] at hlength

theorem SameTables.get {w w' : World Ctx} (h : SameTables w w') {i : Nat}
    {found' : EnrichmentTable} (hf : w'.tables[i]? = some found') :
    ∃ found, w.tables[i]? = some found ∧ Snapshot.contents found' = Snapshot.contents found := by
  have hget := congrArg (·[i]?) h.contents
  simp only [List.getElem?_map, hf, Option.map_some] at hget
  obtain ⟨found, hfound, heq⟩ := Option.map_eq_some_iff.mp hget.symm
  exact ⟨found, hfound, heq.symm⟩

theorem SameTables.set (w : World Ctx) {i : Nat} {found found' : EnrichmentTable}
    (hf : w.tables[i]? = some found) (hc : Snapshot.contents found' = Snapshot.contents found) :
    SameTables w { w with tables := w.tables.set i found' } := by
  obtain ⟨hlt, hget⟩ := List.getElem?_eq_some_iff.mp hf
  refine ⟨rfl, ?_⟩
  rw [List.map_set, hc, ← hget, ← List.map_set, List.set_getElem_self]

/-- The place a name is bound to. -/
theorem SameTables.place {w w' : World Ctx} (h : SameTables w w') (name : String) :
    (w'.bound name).map Prod.fst = (w.bound name).map Prod.fst := by
  unfold World.bound
  rw [h.registry]
  cases w.registry[name]? with
  | none => rfl
  | some data =>
    cases hf' : w'.tables[data]? with
    | none =>
      have hout : w.tables[data]? = none := by
        rw [List.getElem?_eq_none_iff] at hf' ⊢
        rw [← h.length]
        exact hf'
      simp [hf', hout]
    | some found' =>
      obtain ⟨found, hf, _⟩ := h.get hf'
      simp [hf', hf]

/-- What a listing shows of a table. -/
def shown (name : String) (found : EnrichmentTable) : String × String × String × Option Nat :=
  (name, found.kind, found.path, found.rowCount)

theorem shown_contents (name : String) (found : EnrichmentTable) :
    shown name (Snapshot.contents found) = shown name found := by
  cases found <;> rfl

theorem SameTables.list {w w' : World Ctx} (h : SameTables w w') :
    w'.listTables = w.listTables := by
  unfold World.listTables
  rw [h.registry]
  apply congrArg (fun f => w.registry.toList.filterMap f)
  funext entry
  obtain ⟨name, data⟩ := entry
  cases hf' : w'.tables[data]? with
  | none =>
    have hout : w.tables[data]? = none := by
      rw [List.getElem?_eq_none_iff] at hf' ⊢
      rw [← h.length]
      exact hf'
    simp [hf', hout]
  | some found' =>
    obtain ⟨found, hf, hc⟩ := h.get hf'
    have hshown : shown name found' = shown name found := by
      rw [← shown_contents, hc, shown_contents]
    simp only [hf', hf, Option.map_some]
    exact congrArg some hshown

theorem SameTables.bind {w w' : World Ctx} (h : SameTables w w') (name : String)
    (table : EnrichmentTable) : SameTables (bindTable w name table) (bindTable w' name table) := by
  refine ⟨?_, ?_⟩
  · rw [bindTable, bindTable, h.registry, h.length]
  · simp only [bindTable, List.map_append, h.contents]

theorem SameTables.trans {w w' w'' : World Ctx} (h : SameTables w w') (h' : SameTables w' w'') :
    SameTables w w'' :=
  ⟨h'.registry.trans h.registry, h'.contents.trans h.contents⟩

end

section
variable [Libraries]

/-- The index a key has on the contents of a table. -/
def ownIndex (found : EnrichmentTable) (key : IndexKey) : Option RowIndex :=
  ((contents found).indexFor key.1 key.2).1

theorem own_index_file (t : FileTable) (key : IndexKey) :
    ownIndex (.file t) key =
      if key.2.all t.hasColumn then some (FileTable.buildIndex t.rows key) else none :=
  index_for_eq (contents_sound (.file t)) key.1 key.2

theorem own_index_congr {found found' : EnrichmentTable} (h : contents found' = contents found)
    (key : IndexKey) : ownIndex found' key = ownIndex found key := by
  rw [ownIndex, h, ownIndex]

/-- What a compiling call knows of the index it is after. -/
def IndexFits (found : EnrichmentTable) (key : IndexKey) : IndexPhase → Prop
  | .waiting => True
  | .building => ownIndex found key ≠ none
  | .built index => ownIndex found key = some index
  | .returned result => result = ownIndex found key

theorem index_fits_congr {found found' : EnrichmentTable} (h : contents found' = contents found)
    {key : IndexKey} {phase : IndexPhase} (hfits : IndexFits found key phase) :
    IndexFits found' key phase := by
  cases phase with
  | waiting => trivial
  | _ => simpa only [IndexFits, own_index_congr h] using hfits

/-- An index step keeps to the contents and the soundness of its table. -/
theorem index_step_fits {found : EnrichmentTable} (hs : Sound found) {key : IndexKey}
    {phase : IndexPhase} (h : IndexFits found key phase) :
    contents (found.indexStep key phase).2 = contents found ∧
      Sound (found.indexStep key phase).2 ∧
      IndexFits found key (found.indexStep key phase).1 := by
  cases found with
  | geoip t => exact ⟨rfl, trivial, rfl⟩
  | file t =>
    have hown := own_index_file t key
    cases phase with
    | waiting =>
      rw [EnrichmentTable.indexStep]
      cases hall : key.2.all t.hasColumn with
      | false =>
        rw [hall] at hown
        exact ⟨rfl, hs, hown.symm⟩
      | true =>
        rw [hall] at hown
        cases hc : t.cached key with
        | some index =>
          refine ⟨rfl, hs, ?_⟩
          rw [hs key index hc]
          exact hown.symm
        | none => exact ⟨rfl, hs, by simp [IndexFits, hown]⟩
    | building =>
      refine ⟨rfl, hs, ?_⟩
      rw [IndexFits, hown] at h
      split at hown
      · exact hown
      · rename_i hall
        simp [hall] at h
    | built index =>
      have hindex : index = FileTable.buildIndex t.rows key := by
        rw [IndexFits, hown] at h
        split at h
        · exact (Option.some.inj h).symm
        · cases h
      obtain ⟨hheaders, hrows, hpath⟩ := store_frame t key index
      refine ⟨?_, ?_, h.symm⟩
      · simp only [EnrichmentTable.indexStep, contents, hheaders, hrows, hpath]
      · rw [hindex]
        exact store_coherent hs key
    | returned result => exact ⟨rfl, hs, h⟩

/-- How many steps an index search still takes. -/
def stepsLeft : IndexPhase → Nat
  | .waiting => 3
  | .building => 2
  | .built _ => 1
  | .returned _ => 0

theorem index_step_ahead (found : EnrichmentTable) (key : IndexKey) {phase : IndexPhase}
    (h : stepsLeft phase ≠ 0) :
    stepsLeft (found.indexStep key phase).1 < stepsLeft phase := by
  cases found with
  | geoip t => exact Nat.pos_of_ne_zero h
  | file t =>
    cases phase with
    | waiting =>
      rw [EnrichmentTable.indexStep]
      split
      · exact Nat.pos_of_ne_zero h
      · split <;> simp [stepsLeft]
    | building => exact Nat.lt_succ_self 1
    | built index => exact Nat.one_pos
    | returned result => exact absurd rfl h

section
variable {Ctx : Type} {calls : Nat → RegistryCall Ctx}

/-- Everything a step can do. -/
inductive Moves (calls : Nat → RegistryCall Ctx) (s : SharedRegistry Ctx) (c : Nat)
    (files : Files) : SharedRegistry Ctx → Prop where
  | refused {name kind path : String} {delimiter : UInt8} {e : String}
      (hp : s.phase c = .waiting) (hc : calls c = .register name kind path delimiter)
      (hl : loadTable files name kind path delimiter = .error e) :
      Moves calls s c files (s.setPhase c (.returned (.registered (.error e))))
  | loads {name kind path : String} {delimiter : UInt8} {table : EnrichmentTable}
      (hp : s.phase c = .waiting) (hc : calls c = .register name kind path delimiter)
      (hl : loadTable files name kind path delimiter = .ok table) :
      Moves calls s c files (s.setPhase c (.loaded files table))
  | takesLoaded {name kind path : String} {delimiter : UInt8} {found : Files}
      {table : EnrichmentTable} {lock : RwLock Nat} (hp : s.phase c = .loaded found table)
      (hc : calls c = .register name kind path delimiter)
      (hlock : s.lock.acquire .write c = some lock) :
      Moves calls s c files ({ s with lock }.setPhase c (.binding found table))
  | takes {mode : LockMode} {lock : RwLock Nat} (hp : s.phase c = .waiting)
      (hmode : (calls c).mode = some mode)
      (hc : ∀ name kind path delimiter, calls c ≠ .register name kind path delimiter)
      (hlock : s.lock.acquire mode c = some lock) :
      Moves calls s c files ({ s with lock }.setPhase c .locked)
  | binds {name kind path : String} {delimiter : UInt8} {found : Files}
      {table : EnrichmentTable} (hp : s.phase c = .binding found table)
      (hc : calls c = .register name kind path delimiter) :
      Moves calls s c files
        ({ s with world := bindTable s.world name table }.setPhase c
          (.done (.registered (.ok ()))))
  | clears (hp : s.phase c = .locked) (hc : calls c = .clear) :
      Moves calls s c files
        ({ s with world := s.world.clearTables }.setPhase c (.done .cleared))
  | lists (hp : s.phase c = .locked) (hc : calls c = .list) :
      Moves calls s c files (s.setPhase c (.done (.listed s.world.listTables)))
  | unplaced {fn : LookupFn} {arguments : ArgumentList Ctx} {e : CompileError}
      (hp : s.phase c = .locked) (hc : calls c = .compile fn arguments)
      (hl : s.world.locate arguments = .error e) :
      Moves calls s c files (s.setPhase c (.done (.compiled (.error e))))
  | places {fn : LookupFn} {arguments : ArgumentList Ctx} {site : Located Ctx}
      (hp : s.phase c = .locked) (hc : calls c = .compile fn arguments)
      (hl : s.world.locate arguments = .ok site) :
      Moves calls s c files (s.setPhase c (.indexing site .waiting))
  | indexes {fn : LookupFn} {arguments : ArgumentList Ctx} {site : Located Ctx}
      {index : IndexPhase} {found : EnrichmentTable} (hp : s.phase c = .indexing site index)
      (hc : calls c = .compile fn arguments) (hahead : stepsLeft index ≠ 0)
      (hf : s.world.tables[site.data]? = some found) :
      Moves calls s c files
        ({ s with world := { s.world with
          tables := s.world.tables.set site.data (found.indexStep site.key index).2 } }.setPhase c
            (.indexing site (found.indexStep site.key index).1))
  | compiles {fn : LookupFn} {arguments : ArgumentList Ctx} {site : Located Ctx}
      {index : Option RowIndex} (hp : s.phase c = .indexing site (.returned index))
      (hc : calls c = .compile fn arguments) :
      Moves calls s c files
        ({ s with world := { s.world with
          programs := s.world.programs ++ [(fn, siteArgs site index arguments)] } }.setPhase c
            (.done (.compiled (.ok s.world.programs.length))))
  | runs {program : Nat} {ctx : Ctx} (hp : s.phase c = .waiting)
      (hc : calls c = .run program ctx) :
      Moves calls s c files (s.setPhase c (.returned (.ran (s.world.resolve program ctx))))
  | releases {mode : LockMode} {answer : RegistryAnswer Ctx} (hp : s.phase c = .done answer)
      (hmode : (calls c).mode = some mode) :
      Moves calls s c files
        ({ s with lock := s.lock.release mode c }.setPhase c (.returned answer))

theorem step_moves {s t : SharedRegistry Ctx} {act : RegistryAct}
    (h : s.step calls act = some t) : Moves calls s act.call act.files t := by
  obtain ⟨c, files⟩ := act
  dsimp only
  rw [SharedRegistry.step] at h
  dsimp only at h
  split at h
  · rename_i hp hc
    split at h
    · rename_i hl
      cases h
      exact .refused hp hc hl
    · rename_i hl
      cases h
      exact .loads hp hc hl
  · rename_i hp hc
    obtain ⟨lock, hlock, rfl⟩ := take_moves h
    exact .takesLoaded hp hc hlock
  · rename_i hp hc
    cases h
    exact .binds hp hc
  · rename_i hp hc
    obtain ⟨lock, hlock, rfl⟩ := take_moves h
    exact .takes hp (by rw [hc]; rfl) (by simp [hc]) hlock
  · rename_i hp hc
    cases h
    exact .clears hp hc
  · rename_i hp hc
    obtain ⟨lock, hlock, rfl⟩ := take_moves h
    exact .takes hp (by rw [hc]; rfl) (by simp [hc]) hlock
  · rename_i hp hc
    cases h
    exact .lists hp hc
  · rename_i hp hc
    obtain ⟨lock, hlock, rfl⟩ := take_moves h
    exact .takes hp (by rw [hc]; rfl) (by simp [hc]) hlock
  · rename_i hp hc
    split at h
    · rename_i hl
      cases h
      exact .unplaced hp hc hl
    · rename_i hl
      cases h
      exact .places hp hc hl
  · rename_i hp hc
    cases h
    exact .compiles hp hc
  · rename_i site index fn arguments hahead hp hc
    obtain ⟨found, hf, rfl⟩ := Option.map_eq_some_iff.mp h
    refine .indexes hp hc ?_ hf
    cases index with
    | returned result => exact absurd rfl (hahead result)
    | _ => simp [stepsLeft]
  · rename_i hp hc
    cases h
    exact .runs hp hc
  · rename_i hp
    obtain ⟨mode, hmode, rfl⟩ := Option.map_eq_some_iff.mp h
    exact .releases hp hmode
  · cases h

section
variable {w w' : World Ctx} {arguments : ArgumentList Ctx} {fn : LookupFn}

theorem SameTables.locate (h : SameTables w w') (arguments : ArgumentList Ctx) :
    w'.locate arguments = w.locate arguments := by
  unfold World.locate
  cases arguments.table with
  | error e => rfl
  | ok literal =>
    have hplace := h.place (fromUtf8Lossy literal)
    simp only
    cases hb : w.bound (fromUtf8Lossy literal) with
    | none =>
      rw [hb, Option.map_none, Option.map_eq_none_iff] at hplace
      rw [hplace, h.registry]
    | some place =>
      obtain ⟨data, found⟩ := place
      rw [hb, Option.map_some] at hplace
      obtain ⟨⟨data', found'⟩, hb', hdata⟩ := Option.map_eq_some_iff.mp hplace
      cases hdata
      rw [hb']

/-- What a located lookup was read off. -/
theorem locate_ok {site : Located Ctx} (h : w.locate arguments = .ok site) :
    ∃ literal found caseSensitive, arguments.table = .ok literal ∧
      w.bound (fromUtf8Lossy literal) = some (site.data, found) ∧
      arguments.condition = .ok site.condition ∧ arguments.caseSensitive = .ok caseSensitive ∧
      site.table = fromUtf8Lossy literal ∧
      site.caseSensitive = (caseSensitive.bind Value.asBoolean).getD true := by
  unfold World.locate at h
  cases ht : arguments.table with
  | error e =>
    rw [ht] at h
    cases h
  | ok literal =>
    simp only [ht] at h
    cases hb : w.bound (fromUtf8Lossy literal) with
    | none =>
      rw [hb] at h
      cases h
    | some place =>
      rw [hb] at h
      cases hcond : arguments.condition with
      | error e =>
        simp only [hcond] at h
        cases h
      | ok condition =>
        cases hcase : arguments.caseSensitive with
        | error e =>
          simp only [hcond, hcase] at h
          cases h
        | ok caseSensitive =>
          simp only [hcond, hcase, Except.ok.injEq] at h
          subst h
          exact ⟨literal, place.2, caseSensitive, rfl, hb, rfl, rfl, rfl, rfl⟩

theorem locate_found {site : Located Ctx} (h : w.locate arguments = .ok site) :
    ∃ found, w.tables[site.data]? = some found := by
  obtain ⟨_, found, _, _, hb, _⟩ := locate_ok h
  exact ⟨found, (bound_iff.mp hb).2⟩

theorem compile_unplaced {e : CompileError} (h : w.locate arguments = .error e) :
    w.compile fn arguments = (.error e, w) := by
  unfold World.locate at h
  unfold World.compile World.compileArgs
  cases ht : arguments.table with
  | error e' =>
    rw [ht] at h
    cases h
    rfl
  | ok literal =>
    simp only [ht] at h ⊢
    cases hb : w.bound (fromUtf8Lossy literal) with
    | none =>
      rw [hb] at h
      cases h
      rfl
    | some place =>
      obtain ⟨data, found⟩ := place
      rw [hb] at h
      obtain ⟨hlt, hget⟩ := List.getElem?_eq_some_iff.mp (bound_iff.mp hb).2
      have hsame : w.tables.set data found = w.tables := by
        rw [← hget, List.set_getElem_self]
      cases hcond : arguments.condition with
      | error e' =>
        simp only [hcond, Except.error.injEq] at h
        simp only [compileOn, hcond, hsame, h]
      | ok condition =>
        cases hcase : arguments.caseSensitive with
        | error e' =>
          simp only [hcond, hcase, Except.error.injEq] at h
          simp only [compileOn, hcond, hcase, hsame, h]
        | ok literal =>
          simp only [hcond, hcase] at h
          cases h

/-- Where the call's table is found, its index is what the table gives. -/
theorem compile_placed {site : Located Ctx} {found : EnrichmentTable}
    (h : w.locate arguments = .ok site) (hf : w.tables[site.data]? = some found) :
    w.compile fn arguments =
      (.ok w.programs.length, { w with
        tables := w.tables.set site.data (found.indexFor site.caseSensitive site.condition.keys).2
        programs := w.programs ++ [(fn, siteArgs site
          (found.indexFor site.caseSensitive site.condition.keys).1 arguments)] }) := by
  obtain ⟨literal, found', caseSensitive, ht, hb, hcond, hcase, htable, hsite⟩ := locate_ok h
  have hsame : found' = found := by
    rw [(bound_iff.mp hb).2] at hf
    exact Option.some.inj hf
  subst hsame
  simp only [World.compile, World.compileArgs, ht, hb, compileOn, hcond, hcase, ← hsite, siteArgs,
    htable]

theorem SameTables.resolve (h : SameTables w w') (hp : w'.programs = w.programs) (program : Nat)
    (ctx : Ctx) : w'.resolve program ctx = w.resolve program ctx := by
  unfold World.resolve
  rw [hp]
  cases w.programs[program]? with
  | none => rfl
  | some compiled =>
    obtain ⟨fn, args⟩ := compiled
    simp only [Option.bind_eq_bind, Option.bind_some]
    cases hf' : w'.tables[args.data]? with
    | none =>
      have hout : w.tables[args.data]? = none := by
        rw [List.getElem?_eq_none_iff] at hf' ⊢
        rw [← h.length]
        exact hf'
      rw [hout]
    | some found' =>
      obtain ⟨found, hf, hc⟩ := h.get hf'
      simp only [hf, Option.bind_some, resolve_on_contents hc]

end

/-- What holds of a call that has come this far. -/
def PhaseFits (calls : Nat → RegistryCall Ctx) (w : World Ctx) (c : Nat) :
    RegistryPhase Ctx → Prop
  | .loaded files table | .binding files table => ∃ name kind path delimiter,
    calls c = .register name kind path delimiter ∧
      loadTable files name kind path delimiter = .ok table
  | .locked => (∃ mode, (calls c).mode = some mode) ∧
    ∀ name kind path delimiter, calls c ≠ .register name kind path delimiter
  | .indexing site index => ∃ fn arguments found, calls c = .compile fn arguments ∧
    w.locate arguments = .ok site ∧ w.tables[site.data]? = some found ∧
      IndexFits found site.key index
  | .done _ => ∃ mode, (calls c).mode = some mode
  | .waiting | .returned _ => True

theorem phase_fits_congr {w w' : World Ctx} (h : SameTables w w') {c : Nat}
    {phase : RegistryPhase Ctx} (hfits : PhaseFits calls w c phase) :
    PhaseFits calls w' c phase := by
  cases phase with
  | indexing site index =>
    obtain ⟨fn, arguments, found, hc, hl, hf, hindex⟩ := hfits
    obtain ⟨hlt, hget⟩ := List.getElem?_eq_some_iff.mp hf
    have hlt' : site.data < w'.tables.length := h.length.symm ▸ hlt
    have hf' : w'.tables[site.data]? = some w'.tables[site.data] := List.getElem?_eq_getElem hlt'
    obtain ⟨found₀, hf₀, hcontents⟩ := h.get hf'
    rw [hf] at hf₀
    cases hf₀
    exact ⟨fn, arguments, _, hc, (h.locate arguments).trans hl, hf',
      index_fits_congr hcontents hindex⟩
  | _ => exact hfits

/-- Nothing but what holds the lock depends on the world. -/
theorem phase_fits_free {w w' : World Ctx} {c : Nat} {phase : RegistryPhase Ctx}
    (hfree : phase.holding = false) (hfits : PhaseFits calls w c phase) :
    PhaseFits calls w' c phase := by
  cases phase with
  | indexing site index => cases hfree
  | _ => exact hfits

/-- What every reachable state keeps. -/
structure Kept (calls : Nat → RegistryCall Ctx) (s : SharedRegistry Ctx) : Prop where
  held : ∀ mode c, s.lock.Holds mode c ↔
    (s.phase c).holding = true ∧ (calls c).mode = some mode
  fits : ∀ c, PhaseFits calls s.world c (s.phase c)
  sound : ∀ found ∈ s.world.tables, Sound found

theorem start_kept : Kept calls SharedRegistry.start :=
  ⟨fun mode c => ⟨fun h => absurd h (RwLock.free_holds mode c), fun h => by cases h.1⟩,
    fun _ => trivial, fun _ hmem => by cases hmem⟩

theorem Kept.holder {s : SharedRegistry Ctx} (h : Kept calls s) {c : Nat}
    (hc : (s.phase c).holding = true) : ∃ mode, s.lock.Holds mode c := by
  have hmode : ∃ mode, (calls c).mode = some mode := by
    have hfits := h.fits c
    cases hp : s.phase c with
    | binding files table =>
      rw [hp] at hfits
      obtain ⟨_, _, _, _, hcall, _⟩ := hfits
      exact ⟨.write, by rw [hcall]; rfl⟩
    | indexing site index =>
      rw [hp] at hfits
      obtain ⟨_, _, _, hcall, _⟩ := hfits
      exact ⟨.read, by rw [hcall]; rfl⟩
    | locked =>
      rw [hp] at hfits
      exact hfits.1
    | done answer =>
      rw [hp] at hfits
      exact hfits
    | _ =>
      rw [hp] at hc
      cases hc
  obtain ⟨mode, hmode⟩ := hmode
  exact ⟨mode, (h.held mode c).mpr ⟨hc, hmode⟩⟩

/-- A step of one call keeps the rest: it leaves the tables as they are, or holds
the lock alone. -/
theorem Kept.advance {s : SharedRegistry Ctx} (h : Kept calls s) {c : Nat} {w : World Ctx}
    {lock : RwLock Nat} {phase : RegistryPhase Ctx}
    (hworld : SameTables s.world w ∨ s.lock.Holds .write c)
    (hown : ∀ mode, lock.Holds mode c ↔ phase.holding = true ∧ (calls c).mode = some mode)
    (hother : ∀ mode d, d ≠ c → (lock.Holds mode d ↔ s.lock.Holds mode d))
    (hfits : PhaseFits calls w c phase) (hsound : ∀ found ∈ w.tables, Sound found) :
    Kept calls ({ s with world := w, lock }.setPhase c phase) := by
  refine ⟨?_, ?_, hsound⟩
  · intro mode d
    rw [set_phase_lock, phase_set]
    split
    · rename_i heq
      rw [heq]
      exact hown mode
    · rename_i hne
      rw [hother mode d hne]
      exact h.held mode d
  · intro d
    rw [phase_set, set_phase_world]
    split
    · rename_i heq
      rw [heq]
      exact hfits
    · rename_i hne
      rcases hworld with hsame | halone
      · exact phase_fits_congr hsame (h.fits d)
      · apply phase_fits_free _ (h.fits d)
        apply Bool.eq_false_iff.mpr
        intro hholding
        obtain ⟨mode, hheld⟩ := h.holder hholding
        exact hne (RwLock.write_alone halone hheld).2

/-- A step that leaves the lock, and whether the call holds it, as they are. -/
theorem Kept.goes {s : SharedRegistry Ctx} (h : Kept calls s) {c : Nat} {w : World Ctx}
    {phase : RegistryPhase Ctx} (hworld : SameTables s.world w ∨ s.lock.Holds .write c)
    (hholding : phase.holding = (s.phase c).holding) (hfits : PhaseFits calls w c phase)
    (hsound : ∀ found ∈ w.tables, Sound found) :
    Kept calls ({ s with world := w }.setPhase c phase) := by
  refine h.advance hworld ?_ (fun _ _ _ => Iff.rfl) hfits hsound
  intro mode
  rw [hholding]
  exact h.held mode c

theorem Kept.acquires {s : SharedRegistry Ctx} (h : Kept calls s) {c : Nat} {mode : LockMode}
    {lock : RwLock Nat} {phase : RegistryPhase Ctx} (hlock : s.lock.acquire mode c = some lock)
    (hmode : (calls c).mode = some mode) (hfree : (s.phase c).holding = false)
    (hholding : phase.holding = true) (hfits : PhaseFits calls s.world c phase) :
    Kept calls ({ s with lock }.setPhase c phase) := by
  refine h.advance (Or.inl (.refl _)) ?_ ?_ hfits h.sound
  · intro mode'
    rw [RwLock.acquire_holds hlock, h.held, hfree, hholding, hmode]
    simp [eq_comm]
  · intro mode' d hne
    rw [RwLock.acquire_holds hlock]
    simp [hne]

theorem Kept.releases {s : SharedRegistry Ctx} (h : Kept calls s) {c : Nat} {mode : LockMode}
    {answer : RegistryAnswer Ctx} (hp : s.phase c = .done answer)
    (hmode : (calls c).mode = some mode) :
    Kept calls ({ s with lock := s.lock.release mode c }.setPhase c (.returned answer)) := by
  have hheld : s.lock.Holds mode c := (h.held mode c).mpr ⟨by rw [hp]; rfl, hmode⟩
  refine h.advance (Or.inl (.refl _)) ?_ ?_ trivial h.sound
  · intro mode'
    rw [RwLock.release_holds hheld, h.held, hmode]
    simp only [Option.some.injEq, RegistryPhase.holding, Bool.false_eq_true, false_and, iff_false]
    rintro ⟨⟨_, rfl⟩, hnot⟩
    exact hnot ⟨rfl, trivial⟩
  · intro mode' d hne
    rw [RwLock.release_holds hheld]
    simp [hne]

theorem moves_kept {s t : SharedRegistry Ctx} {c : Nat} {files : Files} (h : Kept calls s)
    (hm : Moves calls s c files t) : Kept calls t := by
  have hsame := Or.inl (b := s.lock.Holds .write c) (SameTables.refl s.world)
  cases hm with
  | refused hp hc hl => exact h.goes hsame (by rw [hp]; rfl) trivial h.sound
  | loads hp hc hl => exact h.goes hsame (by rw [hp]; rfl) ⟨_, _, _, _, hc, hl⟩ h.sound
  | takesLoaded hp hc hlock =>
    have hfits := h.fits c
    rw [hp] at hfits
    exact h.acquires hlock (by rw [hc]; rfl) (by rw [hp]; rfl) rfl hfits
  | takes hp hmode hc hlock =>
    exact h.acquires hlock hmode (by rw [hp]; rfl) rfl ⟨⟨_, hmode⟩, hc⟩
  | binds hp hc =>
    have hfits := h.fits c
    rw [hp] at hfits
    obtain ⟨_, _, _, _, hcall, hl⟩ := hfits
    have hheld : s.lock.Holds .write c := (h.held .write c).mpr ⟨by rw [hp]; rfl, by rw [hc]; rfl⟩
    refine h.goes (Or.inr hheld) (by rw [hp]; rfl) ⟨.write, by rw [hc]; rfl⟩ ?_
    intro found hmem
    rcases List.mem_append.mp hmem with hold | hnew
    · exact h.sound found hold
    · rw [List.mem_singleton.mp hnew, ← contents_loaded hl]
      exact contents_sound _
  | clears hp hc =>
    have hheld : s.lock.Holds .write c := (h.held .write c).mpr ⟨by rw [hp]; rfl, by rw [hc]; rfl⟩
    exact h.goes (Or.inr hheld) (by rw [hp]; rfl) ⟨.write, by rw [hc]; rfl⟩ h.sound
  | lists hp hc => exact h.goes hsame (by rw [hp]; rfl) ⟨.read, by rw [hc]; rfl⟩ h.sound
  | unplaced hp hc hl => exact h.goes hsame (by rw [hp]; rfl) ⟨.read, by rw [hc]; rfl⟩ h.sound
  | places hp hc hl =>
    obtain ⟨found, hf⟩ := locate_found hl
    exact h.goes hsame (by rw [hp]; rfl) ⟨_, _, found, hc, hl, hf, trivial⟩ h.sound
  | indexes hp hc hahead hf =>
    have hfits := h.fits c
    rw [hp] at hfits
    obtain ⟨fn, arguments, found, hcall, hl, hfound, hindex⟩ := hfits
    rw [hf] at hfound
    cases hfound
    obtain ⟨hcontents, hsound, hindex'⟩ :=
      index_step_fits (h.sound _ (List.mem_of_getElem? hf)) hindex
    have htables := SameTables.set s.world hf hcontents
    refine h.goes (Or.inl htables) (by rw [hp]; rfl) ?_ ?_
    · refine ⟨fn, arguments, _, hcall, (htables.locate arguments).trans hl,
        List.getElem?_set_self (List.getElem?_eq_some_iff.mp hf).1, ?_⟩
      exact index_fits_congr hcontents hindex'
    · intro other hmem
      rcases List.mem_or_eq_of_mem_set hmem with hold | rfl
      · exact h.sound other hold
      · exact hsound
  | compiles hp hc =>
    exact h.goes (Or.inl ⟨rfl, rfl⟩) (by rw [hp]; rfl) ⟨.read, by rw [hc]; rfl⟩ h.sound
  | runs hp hc => exact h.goes hsame (by rw [hp]; rfl) trivial h.sound
  | releases hp hmode => exact h.releases hp hmode

/-- A shared registry against the same calls made one at a time. -/
structure Follows (calls : Nat → RegistryCall Ctx) (s : SharedRegistry Ctx) (w : World Ctx) :
    Prop where
  kept : Kept calls s
  tables : SameTables w s.world
  programs : s.world.programs = w.programs
  sound : ∀ found ∈ w.tables, Sound found

/-- Where a step fixes the answer of its call, it is the call's own answer then. -/
theorem moves_answer {s t : SharedRegistry Ctx} {w : World Ctx} {c : Nat} {files : Files}
    (h : Follows calls s w) (hm : Moves calls s c files t) (hbefore : (s.phase c).answer = none)
    {answer : RegistryAnswer Ctx} (hafter : (t.phase c).answer = some answer) :
    (w.perform ((s.phase c).files.getD files) (calls c)).1 = answer ∧
      SameTables (w.perform ((s.phase c).files.getD files) (calls c)).2 t.world ∧
      t.world.programs = (w.perform ((s.phase c).files.getD files) (calls c)).2.programs ∧
      ∀ found ∈ (w.perform ((s.phase c).files.getD files) (calls c)).2.tables, Sound found := by
  cases hm with
  | refused hp hc hl =>
    rw [phase_set, if_pos rfl] at hafter
    cases hafter
    simp only [hp, hc, RegistryPhase.files, Option.getD_none, World.perform, World.registerTable, hl]
    exact ⟨trivial, h.tables, h.programs, h.sound⟩
  | loads hp hc hl => simp [phase_set, RegistryPhase.answer] at hafter
  | takesLoaded hp hc hlock => simp [phase_set, RegistryPhase.answer] at hafter
  | takes hp hmode hc hlock => simp [phase_set, RegistryPhase.answer] at hafter
  | binds hp hc =>
    rw [phase_set, if_pos rfl] at hafter
    cases hafter
    have hfits := h.kept.fits c
    rw [hp] at hfits
    obtain ⟨_, _, _, _, hcall, hl⟩ := hfits
    rw [hc] at hcall
    cases hcall
    simp only [hp, hc, RegistryPhase.files, Option.getD_some, World.perform, World.registerTable, hl]
    refine ⟨trivial, h.tables.bind _ _, h.programs, ?_⟩
    intro found hmem
    rcases List.mem_append.mp hmem with hold | hnew
    · exact h.sound found hold
    · rw [List.mem_singleton.mp hnew, ← contents_loaded hl]
      exact contents_sound _
  | clears hp hc =>
    rw [phase_set, if_pos rfl] at hafter
    cases hafter
    rw [hc]
    exact ⟨rfl, ⟨rfl, h.tables.contents⟩, h.programs, h.sound⟩
  | lists hp hc =>
    rw [phase_set, if_pos rfl] at hafter
    cases hafter
    rw [hc, h.tables.list]
    exact ⟨rfl, h.tables, h.programs, h.sound⟩
  | unplaced hp hc hl =>
    rw [phase_set, if_pos rfl] at hafter
    cases hafter
    rw [h.tables.locate] at hl
    simp only [hc, World.perform, compile_unplaced hl]
    exact ⟨trivial, h.tables, h.programs, h.sound⟩
  | places hp hc hl => simp [phase_set, RegistryPhase.answer] at hafter
  | indexes hp hc hahead hf => simp [phase_set, RegistryPhase.answer] at hafter
  | @compiles fn arguments site index hp hc =>
    rw [phase_set, if_pos rfl] at hafter
    cases hafter
    have hfits := h.kept.fits c
    rw [hp] at hfits
    obtain ⟨_, _, found, hcall, hl, hf, hindex⟩ := hfits
    rw [hc] at hcall
    cases hcall
    obtain ⟨found₀, hf₀, hcontents⟩ := h.tables.get hf
    have hsound₀ := h.sound found₀ (List.mem_of_getElem? hf₀)
    -- the index that was searched for step by step is the one of the call alone
    have hown := (own_index_congr hcontents _).symm.trans hindex.symm
    rw [ownIndex, Located.key, ← index_for_contents hsound₀] at hown
    rw [h.tables.locate] at hl
    rw [hc, World.perform, compile_placed hl hf₀, hown]
    have hset := SameTables.set w hf₀ (index_for_keeps found₀ site.caseSensitive
      site.condition.keys)
    refine ⟨by rw [h.programs], ⟨h.tables.registry, ?_⟩, ?_, ?_⟩
    · exact h.tables.contents.trans hset.contents.symm
    · exact congrArg (· ++ _) h.programs
    · intro other hmem
      rcases List.mem_or_eq_of_mem_set hmem with hold | rfl
      · exact h.sound other hold
      · exact index_for_sound hsound₀ _ _
  | runs hp hc =>
    rw [phase_set, if_pos rfl] at hafter
    cases hafter
    rw [hc, h.tables.resolve h.programs]
    exact ⟨rfl, h.tables, h.programs, h.sound⟩
  | releases hp hmode => simp [hp, RegistryPhase.answer] at hbefore

/-- A step that fixes no answer shows the outside nothing new. -/
theorem moves_silent {s t : SharedRegistry Ctx} {w : World Ctx} {c : Nat} {files : Files}
    (h : Follows calls s w) (hm : Moves calls s c files t)
    (hsame : (t.phase c).answer = (s.phase c).answer) : Follows calls t w := by
  have hworld : SameTables s.world t.world ∧ t.world.programs = s.world.programs := by
    cases hm with
    | binds hp hc => rw [hp, phase_set, if_pos rfl] at hsame; cases hsame
    | clears hp hc => rw [hp, phase_set, if_pos rfl] at hsame; cases hsame
    | compiles hp hc => rw [hp, phase_set, if_pos rfl] at hsame; cases hsame
    | indexes hp hc hahead hf =>
      have hfits := h.kept.fits c
      rw [hp] at hfits
      obtain ⟨_, _, found, _, _, hfound, hindex⟩ := hfits
      rw [hf] at hfound
      cases hfound
      exact ⟨.set s.world hf
        (index_step_fits (h.kept.sound _ (List.mem_of_getElem? hf)) hindex).1, rfl⟩
    | _ => exact ⟨.refl _, rfl⟩
  exact ⟨moves_kept h.kept hm, h.tables.trans hworld.1, hworld.2.trans h.programs, h.sound⟩

theorem moves_other {s t : SharedRegistry Ctx} {c d : Nat} {files : Files}
    (hm : Moves calls s c files t) (hne : d ≠ c) : t.phase d = s.phase d := by
  cases hm <;> rw [phase_set, if_neg hne]

theorem moves_started {s t : SharedRegistry Ctx} {c : Nat} {files : Files}
    (hm : Moves calls s c files t) : t.phase c ≠ .waiting := by
  cases hm <;> simp [phase_set]

/-- An answer, once fixed, stays. -/
theorem moves_bound {s t : SharedRegistry Ctx} {c : Nat} {files : Files}
    (hm : Moves calls s c files t) {answer : RegistryAnswer Ctx}
    (h : (s.phase c).answer = some answer) : (t.phase c).answer = some answer := by
  cases hm with
  | releases hp hmode =>
    rw [hp] at h
    rw [phase_set, if_pos rfl]
    exact h
  | _ => simp [*, RegistryPhase.answer] at h

theorem effect_of_step {s t : SharedRegistry Ctx} {act : RegistryAct}
    (h : s.step calls act = some t) :
    (SharedRegistry.shared calls).effect s act =
      if (s.phase act.call).answer.isNone ∧ (t.phase act.call).answer.isSome then
        some (act.call, (s.phase act.call).files.getD act.files)
      else none := by
  change s.effect calls act = _
  rw [SharedRegistry.effect, h, Option.bind_some]
  cases (s.phase act.call).answer <;> cases (t.phase act.call).answer <;> rfl

theorem registry_simulates : Simulates (SharedRegistry.shared calls)
    (fun c files w => w.perform files (calls c)) (Follows calls) := by
  refine ⟨?_, ?_, ?_⟩
  · intro s t act c hs hstarted
    have hm := step_moves hs
    by_cases heq : c = act.call
    · rw [heq]
      exact moves_started hm
    · change t.phase c ≠ .waiting
      rw [moves_other hm heq]
      exact hstarted
  · intro s t act w h hs heffect
    have hm := step_moves hs
    have hsame : (t.phase act.call).answer = (s.phase act.call).answer := by
      rw [effect_of_step hs] at heffect
      cases hbefore : (s.phase act.call).answer with
      | some answer => exact moves_bound hm hbefore
      | none =>
        rw [hbefore] at heffect
        cases hafter : (t.phase act.call).answer with
        | none => rfl
        | some answer => rw [hafter] at heffect; cases heffect
    refine ⟨moves_silent h hm hsame, ?_⟩
    intro c
    by_cases heq : c = act.call
    · rw [heq]
      exact hsame
    · exact congrArg RegistryPhase.answer (moves_other hm heq)
  · intro s t act w c found h hs heffect
    have hm := step_moves hs
    rw [effect_of_step hs] at heffect
    split at heffect
    · rename_i hanswers
      cases heffect
      have hbefore := Option.isNone_iff_eq_none.mp hanswers.1
      obtain ⟨answer, hafter⟩ := Option.isSome_iff_exists.mp hanswers.2
      obtain ⟨hown, htables, hprograms, hsound⟩ := moves_answer h hm hbefore hafter
      refine ⟨⟨moves_kept h.kept hm, htables, hprograms, hsound⟩, hbefore, moves_started hm, ?_, ?_⟩
      · rw [hown]
        exact hafter
      · intro d hne
        exact congrArg RegistryPhase.answer (moves_other hm hne)
    · cases heffect

theorem start_follows : Follows calls SharedRegistry.start World.start :=
  ⟨start_kept, .refl _, rfl, fun _ hmem => by cases hmem⟩

theorem first_step_in {trace : List RegistryAct} {act : RegistryAct}
    (h : SharedRegistry.FirstStep calls trace act) : act ∈ trace := by
  obtain ⟨before, after, _, rfl, _⟩ := h
  exact List.mem_append_right before List.mem_cons_self

theorem first_step_kept {trace : List RegistryAct} {act : RegistryAct}
    (h : SharedRegistry.FirstStep calls trace act) (next : RegistryAct) :
    SharedRegistry.FirstStep calls (trace ++ [next]) act := by
  obtain ⟨before, after, s, rfl, hs, hwaiting⟩ := h
  exact ⟨before, after ++ [next], s, by simp, hs, hwaiting⟩

/-- The files a registration goes by are those its own first step found. -/
theorem run_files {trace : List RegistryAct} {s : SharedRegistry Ctx}
    (hr : exec (SharedRegistry.step calls) .start trace = some s) {c : Nat} {files : Files}
    (hf : (s.phase c).files = some files) : SharedRegistry.FirstStep calls trace ⟨c, files⟩ := by
  refine exec_invariant (P := fun trace s => ∀ c files, (s.phase c).files = some files →
    SharedRegistry.FirstStep calls trace ⟨c, files⟩) ?_ ?_ hr c files hf
  · intro c files hf
    cases hf
  · intro before u act t hbefore ih hs d files hf
    have hm := step_moves hs
    by_cases heq : d = act.call
    · subst heq
      cases hm with
      | loads hp hc hl =>
        rw [phase_set, if_pos rfl] at hf
        cases hf
        exact ⟨before, [], u, rfl, hbefore, hp⟩
      | takesLoaded hp hc hlock =>
        rw [phase_set, if_pos rfl] at hf
        exact first_step_kept (ih _ files (by rw [hp]; exact hf)) act
      | _ => simp [phase_set, RegistryPhase.files] at hf
    · rw [moves_other hm heq] at hf
      exact first_step_kept (ih d files hf) act

/-- A registration that answers without files of its own to go by has just begun. -/
theorem moves_refused {s t : SharedRegistry Ctx} {c : Nat} {files : Files}
    (hm : Moves calls s c files t) {name kind path : String} {delimiter : UInt8}
    (hcall : calls c = .register name kind path delimiter) (hbefore : (s.phase c).answer = none)
    (hafter : (t.phase c).answer ≠ none) (hfiles : (s.phase c).files = none) :
    s.phase c = .waiting := by
  cases hm with
  | refused hp _ _ | loads hp _ _ | takes hp _ _ _ | runs hp _ => exact hp
  | takesLoaded hp _ _ | binds hp _ =>
    rw [hp] at hfiles
    cases hfiles
  | releases hp _ =>
    rw [hp] at hbefore
    cases hbefore
  | clears _ hc | lists _ hc | unplaced _ hc _ | places _ hc _ | indexes _ hc _ _ | compiles _ hc =>
    rw [hc] at hcall
    cases hcall

/-- A call in the order goes by files one of its steps found, a registration by those of its
first step. -/
theorem order_found {trace : List RegistryAct} {s : SharedRegistry Ctx}
    (hr : exec (SharedRegistry.step calls) .start trace = some s) {c : Nat} {files : Files}
    (hmem : (c, files) ∈ (SharedRegistry.shared calls).order .start trace) :
    ⟨c, files⟩ ∈ trace ∧ ∀ name kind path delimiter,
      calls c = .register name kind path delimiter →
        SharedRegistry.FirstStep calls trace ⟨c, files⟩ := by
  refine exec_invariant (P := fun trace _ => ∀ c files,
    (c, files) ∈ (SharedRegistry.shared calls).order .start trace → ⟨c, files⟩ ∈ trace ∧
      ∀ name kind path delimiter, calls c = .register name kind path delimiter →
        SharedRegistry.FirstStep calls trace ⟨c, files⟩) ?_ ?_ hr c files hmem
  · intro c files hmem
    cases hmem
  · intro before u act t hbefore ih hs d files hmem
    rw [order_snoc hbefore, List.mem_append] at hmem
    rcases hmem with hold | hnew
    · obtain ⟨hin, hfirst⟩ := ih d files hold
      exact ⟨List.mem_append_left _ hin, fun name kind path delimiter hcall =>
        first_step_kept (hfirst name kind path delimiter hcall) act⟩
    · rw [effect_of_step hs] at hnew
      split at hnew
      · rename_i hanswers
        rw [Option.toList_some, List.mem_singleton] at hnew
        cases hnew
        cases hfound : (u.phase act.call).files with
        | none =>
          refine ⟨List.mem_append_right before (List.mem_singleton.mpr rfl), ?_⟩
          intro name kind path delimiter hcall
          exact ⟨before, [], u, rfl, hbefore, moves_refused (step_moves hs) hcall
            (Option.isNone_iff_eq_none.mp hanswers.1) (Option.isSome_iff_ne_none.mp hanswers.2)
            hfound⟩
        | some found =>
          have hfirst := run_files hbefore hfound
          exact ⟨List.mem_append_left _ (first_step_in hfirst),
            fun _ _ _ _ _ => first_step_kept hfirst act⟩
      · cases hnew

/-- Whatever the threads' steps do to each other, the calls answer as if each was
made alone, in one order that keeps to the order of calls that do not overlap. -/
theorem registry_linearizable {trace : List RegistryAct} {s : SharedRegistry Ctx}
    (hr : exec (SharedRegistry.step calls) .start trace = some s) :
    ∃ order : List (Nat × Files),
      (order.map Prod.fst).Nodup ∧
      (∀ c files, (c, files) ∈ order → ⟨c, files⟩ ∈ trace ∧
        ∀ name kind path delimiter, calls c = .register name kind path delimiter →
          SharedRegistry.FirstStep calls trace ⟨c, files⟩) ∧
      Answers (fun c files w => w.perform files (calls c)) World.start order
        (fun c answer => s.phase c = .returned answer) ∧
      (∀ before after mid c d answer, trace = before ++ after →
        exec (SharedRegistry.step calls) .start before = some mid →
        mid.phase c = .returned answer → mid.phase d = .waiting →
        ∃ front back, order = front ++ back ∧ c ∈ front.map Prod.fst ∧
          d ∉ front.map Prod.fst) ∧
      s.world.listTables =
        (replay (fun c files w => w.perform files (calls c)) World.start order).listTables ∧
      ∀ program ctx, s.world.resolve program ctx =
        (replay (fun c files w => w.perform files (calls c)) World.start order).resolve
          program ctx := by
  have hlinear := run_linear registry_simulates (o := SharedRegistry.shared calls) start_follows
    (fun _ => rfl) hr
  refine ⟨(SharedRegistry.shared calls).order .start trace, hlinear.once, ?_, ?_, ?_,
    hlinear.state.tables.list, fun program ctx =>
      hlinear.state.tables.resolve hlinear.state.programs program ctx⟩
  · intro c files hmem
    exact order_found hr hmem
  · intro c answer hreturned
    apply hlinear.answers c answer
    change (s.phase c).answer = some answer
    rw [hreturned]
    rfl
  · intro before after mid c d answer htrace hbefore hreturned hwaiting
    rw [htrace]
    rw [htrace, exec_append, hbefore] at hr
    refine real_time registry_simulates start_follows (fun _ => rfl) hbefore hr ?_ ?_
    · change (mid.phase c).answer ≠ none
      rw [hreturned]
      exact Option.some_ne_none answer
    · exact fun hstarted => hstarted hwaiting

theorem run_kept {s t : SharedRegistry Ctx} {trace : List RegistryAct} (h : Kept calls s)
    (hr : exec (SharedRegistry.step calls) s trace = some t) : Kept calls t :=
  exec_invariant (P := fun _ u => Kept calls u) h
    (fun _ _ _ _ _ hu hs => moves_kept hu (step_moves hs)) hr

/-- How many steps a call that has the lock still takes. -/
def ahead : RegistryPhase Ctx → Nat
  | .binding _ _ => 2
  | .locked => 6
  | .indexing _ index => stepsLeft index + 2
  | .done _ => 1
  | .waiting | .loaded _ _ | .returned _ => 0

/-- A call that has the lock never waits, and each of its steps brings it closer to its end. -/
theorem holder_steps {s : SharedRegistry Ctx} (h : Kept calls s) {c : Nat}
    (hc : (s.phase c).holding = true) (files : Files) :
    ∃ t, s.step calls ⟨c, files⟩ = some t ∧ ahead (t.phase c) < ahead (s.phase c) ∧
      ((t.phase c).holding = true ∨ ∃ answer, t.phase c = .returned answer) := by
  have hfits := h.fits c
  cases hp : s.phase c with
  | waiting => rw [hp] at hc; cases hc
  | loaded found table => rw [hp] at hc; cases hc
  | returned answer => rw [hp] at hc; cases hc
  | binding found table =>
    rw [hp] at hfits
    obtain ⟨name, kind, path, delimiter, hcall, _⟩ := hfits
    simp only [SharedRegistry.step, hp, hcall, Option.some.injEq, exists_eq_left', phase_set,
      if_true]
    exact ⟨Nat.one_lt_two, Or.inl rfl⟩
  | locked =>
    rw [hp] at hfits
    obtain ⟨⟨mode, hmode⟩, hother⟩ := hfits
    cases hcall : calls c with
    | register name kind path delimiter => exact absurd hcall (hother name kind path delimiter)
    | run program ctx => rw [hcall] at hmode; cases hmode
    | clear =>
      simp only [SharedRegistry.step, hp, hcall, Option.some.injEq, exists_eq_left', phase_set,
        if_true]
      exact ⟨by simp [ahead], Or.inl rfl⟩
    | list =>
      simp only [SharedRegistry.step, hp, hcall, Option.some.injEq, exists_eq_left', phase_set,
        if_true]
      exact ⟨by simp [ahead], Or.inl rfl⟩
    | compile fn arguments =>
      simp only [SharedRegistry.step, hp, hcall]
      cases s.world.locate arguments with
      | error e =>
        simp only [Option.some.injEq, exists_eq_left', phase_set, if_true]
        exact ⟨by simp [ahead], Or.inl rfl⟩
      | ok site =>
        simp only [Option.some.injEq, exists_eq_left', phase_set, if_true]
        exact ⟨by simp [ahead, stepsLeft], Or.inl rfl⟩
  | indexing site index =>
    rw [hp] at hfits
    obtain ⟨fn, arguments, found, hcall, _, hf, _⟩ := hfits
    have hmore : stepsLeft index ≠ 0 →
        stepsLeft (found.indexStep site.key index).1 < stepsLeft index :=
      index_step_ahead found site.key
    cases index with
    | returned result =>
      simp only [SharedRegistry.step, hp, hcall, Option.some.injEq, exists_eq_left', phase_set,
        if_true]
      exact ⟨by simp [ahead, stepsLeft], Or.inl rfl⟩
    | _ =>
      simp only [SharedRegistry.step, hp, hcall, hf, Option.map_some, Option.some.injEq,
        exists_eq_left', phase_set, if_true]
      exact ⟨Nat.add_lt_add_right (hmore (by simp [stepsLeft])) 2, Or.inl rfl⟩
  | done answer =>
    rw [hp] at hfits
    obtain ⟨mode, hmode⟩ := hfits
    have hstep : s.step calls ⟨c, files⟩ =
        some ({ s with lock := s.lock.release mode c }.setPhase c (.returned answer)) := by
      simp only [SharedRegistry.step, hp, hmode, Option.map_some]
    refine ⟨_, hstep, ?_, Or.inr ⟨answer, ?_⟩⟩
    · rw [phase_set, if_pos rfl]
      exact Nat.one_pos
    · rw [phase_set, if_pos rfl]

/-- A call that has the lock can go on to its end with nobody else moving. -/
theorem holder_returns {s : SharedRegistry Ctx} (h : Kept calls s) {c : Nat}
    (hc : (s.phase c).holding = true) (files : Files) :
    ∃ more t, exec (SharedRegistry.step calls) s more = some t ∧
      (∃ answer, t.phase c = .returned answer) ∧ ∀ d ≠ c, t.phase d = s.phase d := by
  induction hn : ahead (s.phase c) using Nat.strong_induction_on generalizing s with
  | _ n ih =>
    obtain ⟨t, ht, hless, hnext⟩ := holder_steps h hc files
    have hm := step_moves ht
    have hother : ∀ d ≠ c, t.phase d = s.phase d := fun d hne => moves_other hm hne
    rcases hnext with hholding | hreturned
    · obtain ⟨more, u, hu, hreturned, hsame⟩ :=
        ih _ (hn ▸ hless) (moves_kept h hm) hholding rfl
      refine ⟨⟨c, files⟩ :: more, u, ?_, hreturned, ?_⟩
      · rw [exec, ht]
        exact hu
      · intro d hne
        rw [hsame d hne, hother d hne]
    · exact ⟨[⟨c, files⟩], t, by rw [exec, ht]; rfl, hreturned, hother⟩

/-- All who have the lock can let go of it, one after the other. -/
theorem lock_drains {s : SharedRegistry Ctx} (h : Kept calls s) (files : Files) {holders : List Nat}
    (hall : ∀ mode c, s.lock.Holds mode c → c ∈ holders) :
    ∃ more t, exec (SharedRegistry.step calls) s more = some t ∧
      (∀ mode c, ¬t.lock.Holds mode c) ∧
      ∀ c, (s.phase c).holding = false → t.phase c = s.phase c := by
  induction holders generalizing s with
  | nil =>
    exact ⟨[], s, rfl, fun mode c hheld => List.not_mem_nil (hall mode c hheld), fun _ _ => rfl⟩
  | cons c rest ih =>
    by_cases hc : (s.phase c).holding = true
    · obtain ⟨first, t, ht, ⟨answer, hreturned⟩, hsame⟩ := holder_returns h hc files
      have hkept := run_kept h ht
      have hrest : ∀ mode d, t.lock.Holds mode d → d ∈ rest := by
        intro mode d hheld
        obtain ⟨hholding, hmode⟩ := (hkept.held mode d).mp hheld
        have hne : d ≠ c := by
          rintro rfl
          rw [hreturned] at hholding
          cases hholding
        rw [hsame d hne] at hholding
        have hmem := hall mode d ((h.held mode d).mpr ⟨hholding, hmode⟩)
        exact (List.mem_cons.mp hmem).resolve_left hne
      obtain ⟨more, u, hu, hnone, hidle⟩ := ih hkept hrest
      refine ⟨first ++ more, u, by rw [exec_append, ht]; exact hu, hnone, ?_⟩
      intro d hd
      have hne : d ≠ c := by
        rintro rfl
        rw [hc] at hd
        cases hd
      rw [← hsame d hne] at hd ⊢
      exact hidle d hd
    · apply ih h
      intro mode d hheld
      refine (List.mem_cons.mp (hall mode d hheld)).resolve_left ?_
      rintro rfl
      exact hc ((h.held mode d).mp hheld).1

theorem loaded_enters {s : SharedRegistry Ctx} (h : Kept calls s)
    (hfree : ∀ mode c, ¬s.lock.Holds mode c) {c : Nat} {found : Files} {table : EnrichmentTable}
    (hp : s.phase c = .loaded found table) (files : Files) :
    ∃ t, s.step calls ⟨c, files⟩ = some t ∧ (t.phase c).holding = true := by
  have hfits := h.fits c
  rw [hp] at hfits
  obtain ⟨name, kind, path, delimiter, hcall, _⟩ := hfits
  obtain ⟨lock, hlock⟩ := RwLock.acquire_free hfree .write c
  simp only [SharedRegistry.step, hp, hcall, SharedRegistry.take, hlock, Option.map_some,
    Option.some.injEq, exists_eq_left', phase_set, if_true, RegistryPhase.holding]

/-- A call that does not have the lock gets it once it is free, if it needs it. -/
theorem idle_enters {s : SharedRegistry Ctx} (h : Kept calls s)
    (hfree : ∀ mode c, ¬s.lock.Holds mode c) {c : Nat} (hidle : (s.phase c).holding = false)
    (files : Files) :
    ∃ more t, exec (SharedRegistry.step calls) s more = some t ∧
      ((t.phase c).holding = true ∨ ∃ answer, t.phase c = .returned answer) := by
  cases hp : s.phase c with
  | binding found table => rw [hp] at hidle; cases hidle
  | locked => rw [hp] at hidle; cases hidle
  | indexing site index => rw [hp] at hidle; cases hidle
  | done answer => rw [hp] at hidle; cases hidle
  | returned answer => exact ⟨[], s, rfl, Or.inr ⟨answer, hp⟩⟩
  | loaded found table =>
    obtain ⟨t, ht, hholding⟩ := loaded_enters h hfree hp files
    exact ⟨[⟨c, files⟩], t, by rw [exec, ht]; rfl, Or.inl hholding⟩
  | waiting =>
    have htakes : ∀ mode, ∃ t, s.take c mode .locked = some t ∧ (t.phase c).holding = true := by
      intro mode
      obtain ⟨lock, hlock⟩ := RwLock.acquire_free hfree mode c
      refine ⟨{ s with lock }.setPhase c .locked, ?_, ?_⟩
      · rw [SharedRegistry.take, hlock]
        rfl
      · rw [phase_set, if_pos rfl]
        rfl
    cases hcall : calls c with
    | register name kind path delimiter =>
      cases hl : loadTable files name kind path delimiter with
      | error e =>
        refine ⟨[⟨c, files⟩], s.setPhase c (.returned (.registered (.error e))), ?_,
          Or.inr ⟨.registered (.error e), ?_⟩⟩
        · simp only [exec, SharedRegistry.step, hp, hcall, hl]
          rfl
        · rw [phase_set, if_pos rfl]
      | ok table =>
        have hfirst : s.step calls ⟨c, files⟩ = some (s.setPhase c (.loaded files table)) := by
          simp only [SharedRegistry.step, hp, hcall, hl]
        have hloaded : (s.setPhase c (.loaded files table)).phase c = .loaded files table :=
          if_pos rfl
        obtain ⟨t, ht, hholding⟩ :=
          loaded_enters (moves_kept h (step_moves hfirst)) hfree hloaded files
        exact ⟨[⟨c, files⟩, ⟨c, files⟩], t, by rw [exec, hfirst, Option.bind_some, exec, ht]; rfl,
          Or.inl hholding⟩
    | clear =>
      obtain ⟨t, ht, hholding⟩ := htakes .write
      refine ⟨[⟨c, files⟩], t, ?_, Or.inl hholding⟩
      simp only [exec, SharedRegistry.step, hp, hcall, ht]
      rfl
    | list =>
      obtain ⟨t, ht, hholding⟩ := htakes .read
      refine ⟨[⟨c, files⟩], t, ?_, Or.inl hholding⟩
      simp only [exec, SharedRegistry.step, hp, hcall, ht]
      rfl
    | compile fn arguments =>
      obtain ⟨t, ht, hholding⟩ := htakes .read
      refine ⟨[⟨c, files⟩], t, ?_, Or.inl hholding⟩
      simp only [exec, SharedRegistry.step, hp, hcall, ht]
      rfl
    | run program ctx =>
      refine ⟨[⟨c, files⟩], s.setPhase c (.returned (.ran (s.world.resolve program ctx))), ?_,
        Or.inr ⟨.ran (s.world.resolve program ctx), ?_⟩⟩
      · simp only [exec, SharedRegistry.step, hp, hcall]
        rfl
      · rw [phase_set, if_pos rfl]

/-- However the threads' steps have fallen, a writer is alone, who has the lock
never waits, and any call can still be brought to its end. -/
theorem registry_progress {trace : List RegistryAct} {s : SharedRegistry Ctx}
    (hr : exec (SharedRegistry.step calls) .start trace = some s) (c : Nat) (files : Files) :
    (∀ d, (s.phase c).holding = true → (calls c).mode = some .write →
      (s.phase d).holding = true → d = c) ∧
    ((s.phase c).holding = true → (s.step calls ⟨c, files⟩).isSome) ∧
    ∃ more t answer, exec (SharedRegistry.step calls) s more = some t ∧
      t.phase c = .returned answer := by
  have h : Kept calls s := run_kept start_kept hr
  refine ⟨?_, ?_, ?_⟩
  · intro d hwriter hmode hholding
    obtain ⟨mode, hheld⟩ := h.holder hholding
    exact (RwLock.write_alone ((h.held .write c).mpr ⟨hwriter, hmode⟩) hheld).2
  · intro hholding
    obtain ⟨t, ht, _⟩ := holder_steps h hholding files
    rw [ht]
    rfl
  · have hends : ∀ {t : SharedRegistry Ctx}, Kept calls t → (t.phase c).holding = true →
        ∃ more u answer, exec (SharedRegistry.step calls) t more = some u ∧
          u.phase c = .returned answer := by
      intro t ht hholding
      obtain ⟨more, u, hu, ⟨answer, hreturned⟩, _⟩ := holder_returns ht hholding files
      exact ⟨more, u, answer, hu, hreturned⟩
    cases hholding : (s.phase c).holding with
    | true => exact hends h hholding
    | false =>
      -- the others let go, then the call takes the lock and ends
      obtain ⟨first, t, ht, hfree, hidle⟩ := lock_drains h files (s.lock.holders_all)
      have htkept := run_kept h ht
      rw [← hidle c hholding] at hholding
      obtain ⟨next, u, hu, hentered⟩ := idle_enters htkept hfree hholding files
      have hru : exec (SharedRegistry.step calls) s (first ++ next) = some u := by
        rw [exec_append, ht]
        exact hu
      rcases hentered with hin | ⟨answer, hreturned⟩
      · obtain ⟨last, v, answer, hv, hreturned⟩ := hends (run_kept htkept hu) hin
        refine ⟨first ++ next ++ last, v, answer, ?_, hreturned⟩
        rw [exec_append, hru]
        exact hv
      · exact ⟨first ++ next, u, answer, hru, hreturned⟩

end

end

section
local instance : Libraries := asciiLibraries

def usersCalls : Nat → RegistryCall Unit
  | 0 => .register "users" "file" "users.csv" 44
  | 1 => .compile .findEnrichmentTableRecords findBob
  | 2 => .run 0 ()
  | _ => .list

def emptyDisk : Files where
  openCsv _ _ := .error "No such file or directory"
  openMmdb _ := .error "No such file or directory"

/-- The file is gone once it is read, and the listing and the compiling call have the lock
together. -/
def usersTrace : List RegistryAct :=
  ⟨0, usersDisk⟩ ::
    [0, 0, 0, 1, 3, 1, 1, 3, 1, 1, 3, 1, 1, 2].map fun call => ⟨call, emptyDisk⟩

theorem users_linearizable :
    ∃ s, exec (SharedRegistry.step usersCalls) .start usersTrace = some s ∧
      ∃ order : List (Nat × Files),
        (order.map Prod.fst).Nodup ∧
        (∀ c files, (c, files) ∈ order → ⟨c, files⟩ ∈ usersTrace ∧
          ∀ name kind path delimiter, usersCalls c = .register name kind path delimiter →
            SharedRegistry.FirstStep usersCalls usersTrace ⟨c, files⟩) ∧
        Answers (fun c files w => w.perform files (usersCalls c)) World.start order
          (fun c answer => s.phase c = .returned answer) ∧
        (∀ before after mid c d answer, usersTrace = before ++ after →
          exec (SharedRegistry.step usersCalls) .start before = some mid →
          mid.phase c = .returned answer → mid.phase d = .waiting →
          ∃ front back, order = front ++ back ∧ c ∈ front.map Prod.fst ∧
            d ∉ front.map Prod.fst) ∧
        s.world.listTables =
          (replay (fun c files w => w.perform files (usersCalls c)) World.start order).listTables ∧
        ∀ program ctx, s.world.resolve program ctx =
          (replay (fun c files w => w.perform files (usersCalls c)) World.start order).resolve
            program ctx := by
  have hruns : (exec (SharedRegistry.step usersCalls) .start usersTrace).isSome = true := rfl
  obtain ⟨s, hs⟩ := Option.isSome_iff_exists.mp hruns
  exact ⟨s, hs, registry_linearizable hs⟩

theorem users_progress :
    ∃ s, exec (SharedRegistry.step usersCalls) .start (usersTrace.take 6) = some s ∧
      (∀ d, (s.phase 1).holding = true → (usersCalls 1).mode = some .write →
        (s.phase d).holding = true → d = 1) ∧
      ((s.phase 1).holding = true → (s.step usersCalls ⟨1, usersDisk⟩).isSome) ∧
      ∃ more t answer, exec (SharedRegistry.step usersCalls) s more = some t ∧
        t.phase 1 = .returned answer := by
  have hruns : (exec (SharedRegistry.step usersCalls) .start (usersTrace.take 6)).isSome = true :=
    rfl
  obtain ⟨s, hs⟩ := Option.isSome_iff_exists.mp hruns
  exact ⟨s, hs, registry_progress hs 1 usersDisk⟩

end

end VectorVrl.Proofs.Linearizable
