import VectorVrl.IndexCache
import VectorVrl.Proofs.Lookup

namespace VectorVrl.Proofs.IndexCache
open Lib.Runs Lookup

theorem phase_set (s : SharedTable) (c other : Nat) (phase : IndexPhase) :
    (s.setPhase c phase).phase other = if other = c then phase else s.phase other := rfl

theorem made_look_up (trace : List IndexAct) (c other : Nat) :
    Made (trace ++ [.lookUp c]) other ↔ Made trace other ∨ other = c := by
  simp [Made]

/-- The later steps of a call add no call. -/
theorem made_again {trace : List IndexAct} {act : IndexAct} {c : Nat} (h : Made trace c)
    (hact : ∀ d, act ≠ .lookUp d) (other : Nat) :
    Made (trace ++ [act]) other ↔ Made trace other ∨ other = c := by
  have hne : IndexAct.lookUp other ≠ act := fun heq => hact other heq.symm
  simp only [Made, List.mem_append, List.mem_singleton, hne, or_false, iff_self_or]
  intro heq
  rw [heq]
  exact h

@[simp] theorem set_phase_table (s : SharedTable) (c : Nat) (phase : IndexPhase) :
    (s.setPhase c phase).table = s.table := rfl

section
variable [Libraries]

/-- The index a key has by itself: none when one of its fields is not a header. -/
def freshIndex (t : FileTable) (key : IndexKey) : Option RowIndex :=
  if ∀ field ∈ key.2, field ∈ t.headers then some (FileTable.buildIndex t.rows key) else none

/-- Everything a step can do. -/
theorem step_cases {calls : Nat → IndexKey} {s s' : SharedTable} {act : IndexAct}
    (h : s.step calls act = some s') :
    (∃ c, act = .lookUp c ∧ s.phase c = .waiting ∧
      ((∃ field ∈ (calls c).2, field ∉ s.table.headers) ∧ s' = s.setPhase c (.returned none) ∨
      (∀ field ∈ (calls c).2, field ∈ s.table.headers) ∧
        ((∃ index, s.table.cached (calls c) = some index ∧
          s' = s.setPhase c (.returned (some index))) ∨
        s.table.cached (calls c) = none ∧ s' = s.setPhase c .building))) ∨
    (∃ c, act = .build c ∧ s.phase c = .building ∧
      s' = s.setPhase c (.built (FileTable.buildIndex s.table.rows (calls c)))) ∨
    (∃ c index, act = .insert c ∧ s.phase c = .built index ∧
      s' = { s with table := s.table.store (calls c) index }.setPhase c
        (.returned (some index))) ∨
    (act = .poison ∧ s' = { s with table :=
      { s.table with indexes := { s.table.indexes with poisoned := true } } }) := by
  cases act with
  | lookUp c =>
    simp only [SharedTable.step] at h
    split at h
    · rename_i hp
      refine Or.inl ⟨c, rfl, hp, ?_⟩
      cases hall : (calls c).2.all s.table.hasColumn with
      | false =>
        have hno : ¬∀ field ∈ (calls c).2, field ∈ s.table.headers := by
          rw [← all_columns_iff, hall]
          exact Bool.false_ne_true
        simp only [hall, Bool.not_false, if_true, Option.some.injEq] at h
        exact Or.inl ⟨by simpa only [not_forall, exists_prop] using hno, h.symm⟩
      | true =>
        refine Or.inr ⟨(all_columns_iff _ _).mp hall, ?_⟩
        simp only [hall, Bool.not_true, Bool.false_eq_true, if_false] at h
        cases hc : s.table.cached (calls c) with
        | some index =>
          simp only [hc, Option.some.injEq] at h
          exact Or.inl ⟨index, rfl, h.symm⟩
        | none =>
          simp only [hc, Option.some.injEq] at h
          exact Or.inr ⟨rfl, h.symm⟩
    · cases h
  | build c =>
    simp only [SharedTable.step] at h
    split at h
    · rename_i hp
      exact Or.inr (Or.inl ⟨c, rfl, hp, (Option.some.inj h).symm⟩)
    · cases h
  | insert c =>
    simp only [SharedTable.step] at h
    split at h
    · rename_i index hp
      exact Or.inr (Or.inr (Or.inl ⟨c, index, rfl, hp, (Option.some.inj h).symm⟩))
    · cases h
  | poison => exact Or.inr (Or.inr (Or.inr ⟨rfl, (Option.some.inj h).symm⟩))

/-- What a call knows in each phase; one that returned an index left it cached
unless the lock was refused to it. -/
def PhaseHolds (t now : FileTable) (key : IndexKey) : IndexPhase → Prop
  | .waiting => True
  | .building => ∀ field ∈ key.2, field ∈ t.headers
  | .built index => freshIndex t key = some index
  | .returned result => result = freshIndex t key ∧
      (result.isSome = true → now.indexes.poisoned = false → key ∈ now.indexes.inner)

/-- What a history of calls on a table leaves. -/
structure Cached (t : FileTable) (calls : Nat → IndexKey) (trace : List IndexAct)
    (s : SharedTable) : Prop where
  headers : s.table.headers = t.headers
  rows : s.table.rows = t.rows
  poisoned : s.table.indexes.poisoned = true ↔ .poison ∈ trace
  made : ∀ c, s.phase c = .waiting ↔ ¬Made trace c
  entry : ∀ (key : IndexKey) index, s.table.indexes.inner[key]? = some index →
    freshIndex t key = some index ∧ ∃ c, Made trace c ∧ calls c = key
  phase : ∀ c, PhaseHolds t s.table (calls c) (s.phase c)

theorem PhaseHolds.keep {t now next : FileTable} {key : IndexKey} {phase : IndexPhase}
    (h : PhaseHolds t now key phase)
    (hpoison : next.indexes.poisoned = false → now.indexes.poisoned = false)
    (hkept : ∀ key ∈ now.indexes.inner, key ∈ next.indexes.inner) :
    PhaseHolds t next key phase := by
  cases phase with
  | returned result =>
    obtain ⟨hfresh, hcached⟩ := h
    exact ⟨hfresh, fun hsome hclean => hkept key (hcached hsome (hpoison hclean))⟩
  | _ => exact h

section
variable {t : FileTable} {calls : Nat → IndexKey} {trace : List IndexAct} {s : SharedTable}

/-- A call's own step: it moves on, and at most adds the index of its own key. -/
theorem Cached.advance (h : Cached t calls trace s) {act : IndexAct} {c : Nat}
    {phase : IndexPhase} (next : FileTable) (hact : act ≠ .poison)
    (hmade : ∀ other, Made (trace ++ [act]) other ↔ Made trace other ∨ other = c)
    (hmoved : phase ≠ .waiting) (hheaders : next.headers = s.table.headers)
    (hrows : next.rows = s.table.rows)
    (hpoison : next.indexes.poisoned = s.table.indexes.poisoned)
    (hkept : ∀ key ∈ s.table.indexes.inner, key ∈ next.indexes.inner)
    (hentry : ∀ (key : IndexKey) index, next.indexes.inner[key]? = some index →
      s.table.indexes.inner[key]? = some index ∨ key = calls c ∧ freshIndex t key = some index)
    (hphase : PhaseHolds t next (calls c) phase) :
    Cached t calls (trace ++ [act]) ({ s with table := next }.setPhase c phase) := by
  refine ⟨hheaders.trans h.headers, hrows.trans h.rows, ?_, ?_, ?_, ?_⟩
  · rw [List.mem_append, List.mem_singleton, ← h.poisoned, ← hpoison]
    exact ⟨Or.inl, fun hor => hor.resolve_right fun heq => hact heq.symm⟩
  · intro other
    rw [phase_set, hmade]
    by_cases heq : other = c
    · simp [heq, hmoved]
    · simp [heq, h.made other]
  · intro key index hget
    rcases hentry key index hget with hold | ⟨rfl, hfresh⟩
    · obtain ⟨hfresh, other, hother, hkey⟩ := h.entry key index hold
      exact ⟨hfresh, other, (hmade other).mpr (Or.inl hother), hkey⟩
    · exact ⟨hfresh, c, (hmade c).mpr (Or.inr rfl), rfl⟩
  · intro other
    rw [phase_set]
    split
    · rename_i heq
      rw [heq]
      exact hphase
    · exact (h.phase other).keep (fun hclean => hpoison ▸ hclean) hkept

/-- A step that leaves the table alone. -/
theorem Cached.move (h : Cached t calls trace s) {act : IndexAct} {c : Nat} {phase : IndexPhase}
    (hact : act ≠ .poison)
    (hmade : ∀ other, Made (trace ++ [act]) other ↔ Made trace other ∨ other = c)
    (hmoved : phase ≠ .waiting) (hphase : PhaseHolds t s.table (calls c) phase) :
    Cached t calls (trace ++ [act]) (s.setPhase c phase) :=
  h.advance s.table hact hmade hmoved rfl rfl rfl (fun _ hkey => hkey) (fun _ _ => Or.inl) hphase

theorem Cached.known (h : Cached t calls trace s) {c : Nat} (hp : s.phase c ≠ .waiting) :
    Made trace c := by
  by_contra hno
  exact hp ((h.made c).mpr hno)

theorem fresh_some_iff {key : IndexKey} {index : RowIndex} :
    freshIndex t key = some index ↔
      (∀ field ∈ key.2, field ∈ t.headers) ∧ index = FileTable.buildIndex t.rows key := by
  unfold freshIndex
  split <;> simp_all [eq_comm]

theorem fresh_none_iff {key : IndexKey} :
    freshIndex t key = none ↔ ∃ field ∈ key.2, field ∉ t.headers := by
  simp [freshIndex]

theorem step_cached (h : Cached t calls trace s) {act : IndexAct} {s' : SharedTable}
    (hs : s.step calls act = some s') : Cached t calls (trace ++ [act]) s' := by
  rcases step_cases hs with ⟨c, rfl, hwait, hlook⟩ | ⟨c, rfl, hbuilding, rfl⟩ |
    ⟨c, index, rfl, hbuilt, rfl⟩ | ⟨rfl, rfl⟩
  · have hmade := made_look_up trace c
    rw [h.headers] at hlook
    rcases hlook with ⟨hno, rfl⟩ | ⟨hall, ⟨index, hc, rfl⟩ | ⟨_, rfl⟩⟩
    · exact h.move (by simp) hmade (by simp) ⟨(fresh_none_iff.mpr hno).symm, by simp⟩
    · obtain ⟨hclean, hget⟩ := cached_iff.mp hc
      refine h.move (by simp) hmade (by simp) ⟨(h.entry _ index hget).1.symm, fun _ _ => ?_⟩
      rw [Std.ExtTreeMap.mem_iff_isSome_getElem?, hget]
      rfl
    · exact h.move (by simp) hmade (by simp) hall
  · have hknown : Made trace c := h.known (by simp [hbuilding])
    have hall := h.phase c
    rw [hbuilding] at hall
    refine h.move (by simp) (made_again hknown (by simp)) (by simp) ?_
    rw [h.rows]
    exact fresh_some_iff.mpr ⟨hall, rfl⟩
  · have hknown : Made trace c := h.known (by simp [hbuilt])
    have hfresh := h.phase c
    rw [hbuilt] at hfresh
    obtain ⟨hheaders, hrows, _⟩ := store_frame s.table (calls c) index
    refine h.advance _ (by simp) (made_again hknown (by simp)) (by simp) hheaders hrows
      (store_poisoned _ _ _) ?_ ?_ ⟨hfresh.symm, fun _ hclean => ?_⟩
    · intro key hkey
      rw [Std.ExtTreeMap.mem_iff_isSome_getElem?, store_entry]
      split
      · rfl
      · rwa [← Std.ExtTreeMap.mem_iff_isSome_getElem?]
    · intro key index' hget
      rw [store_entry] at hget
      split at hget
      · rename_i hnew
        cases hget
        exact Or.inr ⟨hnew.2.symm, hnew.2 ▸ hfresh⟩
      · exact Or.inl hget
    · rw [store_poisoned] at hclean
      rw [Std.ExtTreeMap.mem_iff_isSome_getElem?, store_entry, if_pos ⟨hclean, rfl⟩]
      rfl
  · have hmade : ∀ other, Made (trace ++ [.poison]) other ↔ Made trace other := by simp [Made]
    refine ⟨h.headers, h.rows, by simp, ?_, ?_, ?_⟩
    · intro c
      rw [hmade]
      exact h.made c
    · intro key index hget
      obtain ⟨hfresh, c, hc, hkey⟩ := h.entry key index hget
      exact ⟨hfresh, c, (hmade c).mpr hc, hkey⟩
    · intro c
      exact (h.phase c).keep (by simp) fun _ hkey => hkey

theorem run_cached (hr : exec (SharedTable.step calls) (.start t) trace = some s) :
    Cached t calls trace s := by
  refine exec_invariant (P := Cached t calls) ?_ (fun _ _ _ _ _ hb hs => step_cached hb hs) hr
  refine ⟨rfl, rfl, by simp [SharedTable.start], ?_, ?_, fun _ => trivial⟩
  · intro c
    simp [Made, SharedTable.start]
  · intro key index hget
    simp [SharedTable.start] at hget

theorem run_built {c : Nat} {index : RowIndex} (hp : s.phase c = .built index) :
    ∃ s', exec (SharedTable.step calls) s [.insert c] = some s' ∧
      s'.phase c = .returned (some index) ∧ s'.table = s.table.store (calls c) index := by
  refine ⟨({ s with table := s.table.store (calls c) index }).setPhase c (.returned (some index)),
    ?_, by simp [phase_set], rfl⟩
  simp [exec, SharedTable.step, hp]

theorem run_building {c : Nat} (hp : s.phase c = .building) :
    ∃ s', exec (SharedTable.step calls) s [.build c, .insert c] = some s' ∧
      s'.phase c = .returned (some (FileTable.buildIndex s.table.rows (calls c))) ∧
      s'.table = s.table.store (calls c) (FileTable.buildIndex s.table.rows (calls c)) := by
  have hbuilt : (s.setPhase c (.built (FileTable.buildIndex s.table.rows (calls c)))).phase c =
      .built (FileTable.buildIndex s.table.rows (calls c)) := by simp [phase_set]
  obtain ⟨s', hr, hret, htable⟩ := @run_built _ calls _ c _ hbuilt
  refine ⟨s', ?_, hret, htable⟩
  rw [exec, SharedTable.step, hp]
  exact hr

/-- A call whose steps nothing comes between is `indexFor`. -/
theorem run_alone {c : Nat} (hwait : s.phase c = .waiting) :
    ∃ acts s', exec (SharedTable.step calls) s acts = some s' ∧
      (∀ act ∈ acts, act.call = some c) ∧
      s'.phase c = .returned (s.table.indexFor (calls c).1 (calls c).2).1 ∧
      s'.table = (s.table.indexFor (calls c).1 (calls c).2).2 := by
  unfold FileTable.indexFor
  cases hall : (calls c).2.all s.table.hasColumn with
  | false =>
    refine ⟨[.lookUp c], s.setPhase c (.returned none), ?_, by simp [IndexAct.call],
      by simp [phase_set], rfl⟩
    simp [exec, SharedTable.step, hwait, hall]
  | true =>
    cases hc : s.table.cached (calls c) with
    | some index =>
      refine ⟨[.lookUp c], s.setPhase c (.returned (some index)), ?_, by simp [IndexAct.call],
        by simp [phase_set, hc], by simp [hc]⟩
      simp [exec, SharedTable.step, hwait, hall, hc]
    | none =>
      have hp : (s.setPhase c .building).phase c = .building := by simp [phase_set]
      obtain ⟨s', hr, hret, htable⟩ := @run_building _ calls _ c hp
      refine ⟨[.lookUp c, .build c, .insert c], s', ?_, by simp [IndexAct.call], ?_, ?_⟩
      · simpa [exec, SharedTable.step, hwait, hall, hc] using hr
      · simpa [hc] using hret
      · simpa [hc] using htable

/-- From wherever a call has come to, its own steps bring it to its return. -/
theorem call_finishes (calls : Nat → IndexKey) (s : SharedTable) (c : Nat) :
    ∃ acts s' result, exec (SharedTable.step calls) s acts = some s' ∧
      (∀ act ∈ acts, act.call = some c) ∧ s'.phase c = .returned result := by
  cases hp : s.phase c with
  | waiting =>
    obtain ⟨acts, s', hr, hown, hret, _⟩ := @run_alone _ calls s c hp
    exact ⟨acts, s', _, hr, hown, hret⟩
  | building =>
    obtain ⟨s', hr, hret, _⟩ := @run_building _ calls s c hp
    exact ⟨_, s', _, hr, by simp [IndexAct.call], hret⟩
  | built index =>
    obtain ⟨s', hr, hret, _⟩ := @run_built _ calls s c index hp
    exact ⟨_, s', _, hr, by simp [IndexAct.call], hret⟩
  | returned result => exact ⟨[], s, result, rfl, by simp, hp⟩

/-- Whatever order threads look up, build, insert and panic in, every call can
only return what its own key gives by itself, every entry is that of its key,
and without a panic the finished calls leave exactly their keys. -/
theorem cache_coherent (hr : exec (SharedTable.step calls) (.start t) trace = some s) :
    (∀ c, ∃ acts s' result, exec (SharedTable.step calls) s acts = some s' ∧
      (∀ act ∈ acts, act.call = some c) ∧ s'.phase c = .returned result) ∧
    (∀ c result, s.phase c = .returned result →
      ((∀ field ∈ (calls c).2, field ∈ t.headers) →
        result = some (FileTable.buildIndex t.rows (calls c))) ∧
      (result = none ↔ ∃ field ∈ (calls c).2, field ∉ t.headers)) ∧
    (∀ (key : IndexKey) index, s.table.indexes.inner[key]? = some index →
      index = FileTable.buildIndex t.rows key) ∧
    (.poison ∉ trace → (∀ c, Made trace c → ∃ result, s.phase c = .returned result) →
      ∀ key, key ∈ s.table.indexes.inner ↔
        (∃ c, Made trace c ∧ calls c = key) ∧ ∀ field ∈ key.2, field ∈ t.headers) := by
  have h := run_cached hr
  refine ⟨call_finishes calls s, ?_, ?_, ?_⟩
  · intro c result hret
    have hphase := h.phase c
    rw [hret] at hphase
    rw [hphase.1]
    exact ⟨fun hall => fresh_some_iff.mpr ⟨hall, rfl⟩, fresh_none_iff⟩
  · intro key index hget
    exact (fresh_some_iff.mp (h.entry key index hget).1).2
  · intro hclean hdone key
    constructor
    · intro hmem
      obtain ⟨index, hget⟩ := Option.isSome_iff_exists.mp
        (Std.ExtTreeMap.mem_iff_isSome_getElem?.mp hmem)
      obtain ⟨hfresh, hmade⟩ := h.entry key index hget
      exact ⟨hmade, (fresh_some_iff.mp hfresh).1⟩
    · intro hboth
      obtain ⟨⟨c, hmade, rfl⟩, hall⟩ := hboth
      obtain ⟨result, hret⟩ := hdone c hmade
      have hphase := h.phase c
      rw [hret] at hphase
      apply hphase.2
      · rw [hphase.1, fresh_some_iff.mpr ⟨hall, rfl⟩]
        rfl
      · rw [← Bool.not_eq_true, h.poisoned]
        exact hclean

end

end

/-- Two calls on one key that both miss, and both insert. -/
def bothMiss : List IndexAct :=
  [.lookUp 0, .lookUp 1, .build 1, .build 0, .insert 1, .insert 0]

section
local instance : Libraries := asciiLibraries

theorem both_miss_coherent :
    ∃ s, exec (SharedTable.step fun _ => (false, [ "name"])) (.start usersTable) bothMiss = some s ∧
      ∀ (key : IndexKey) index, s.table.indexes.inner[key]? = some index →
        index = FileTable.buildIndex usersTable.rows key :=
  ⟨_, rfl, (@cache_coherent _ usersTable (fun _ => (false, [ "name"])) bothMiss _ rfl).2.2.1⟩

end

end VectorVrl.Proofs.IndexCache
