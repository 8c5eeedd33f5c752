import VectorVrl.Proofs.Linearizable

namespace VectorVrl.Proofs.SharedPrograms
open Lib.Runs Linearizable Lookup SharedRegistry Snapshot

section
variable {Ctx : Type} [Libraries] {calls : Nat → RegistryCall Ctx} {s t : SharedRegistry Ctx}

/-- All that a step does to the tables and to the names for them. -/
theorem moves_tables {c : Nat} {files : Files} (h : Kept calls s) (hm : Moves calls s c files t) :
    SameTables s.world t.world ∨
      (∃ found table name kind path delimiter, s.phase c = .binding found table ∧
        calls c = .register name kind path delimiter ∧
        t.world = bindTable s.world name table) ∨
      s.phase c = .locked ∧ calls c = .clear ∧ t.world = s.world.clearTables := by
  cases hm with
  | binds hp hc => exact Or.inr (Or.inl ⟨_, _, _, _, _, _, hp, hc, rfl⟩)
  | clears hp hc => exact Or.inr (Or.inr ⟨hp, hc, rfl⟩)
  | indexes hp hc hahead hf =>
    have hfits := h.fits c
    rw [hp] at hfits
    obtain ⟨_, _, found, _, _, hfound, hindex⟩ := hfits
    rw [hf] at hfound
    cases hfound
    exact Or.inl (.set s.world hf (index_step_fits (h.sound _ (List.mem_of_getElem? hf)) hindex).1)
  | compiles hp hc => exact Or.inl ⟨rfl, rfl⟩
  | _ => exact Or.inl (.refl _)

section
variable {act : RegistryAct} {name : String} (h : Kept calls s)
  (hs : s.step calls act = some t)
include h hs

theorem step_same (hnone : ∀ name, ¬Rebinds calls s act name) : SameTables s.world t.world := by
  rcases moves_tables h (step_moves hs) with hsame | ⟨_, _, name, _, _, _, hp, hc, _⟩ | ⟨hp, hc, _⟩
  · exact hsame
  · exact absurd (Or.inl ⟨_, _, _, _, _, hp, hc⟩) (hnone name)
  · exact absurd (Or.inr ⟨hp, hc⟩) (hnone "")

theorem step_bound (hnone : ¬Rebinds calls s act name) :
    t.world.registry[name]? = s.world.registry[name]? := by
  rcases moves_tables h (step_moves hs) with
    hsame | ⟨_, _, other, _, _, _, hp, hc, hworld⟩ | ⟨hp, hc, _⟩
  · rw [hsame.registry]
  · have hne : other ≠ name := by
      rintro rfl
      exact hnone (Or.inl ⟨_, _, _, _, _, hp, hc⟩)
    rw [hworld, bindTable, Std.ExtTreeMap.getElem?_insert, if_neg]
    exact fun heq => hne (Std.LawfulEqOrd.eq_of_compare heq)
  · exact absurd (Or.inr ⟨hp, hc⟩) hnone

theorem step_grows : s.world.tables.length ≤ t.world.tables.length := by
  rcases moves_tables h (step_moves hs) with
    hsame | ⟨_, _, _, _, _, _, _, _, hworld⟩ | ⟨_, _, hworld⟩
  · exact hsame.length.ge
  · rw [hworld, bindTable, List.length_append]
    exact Nat.le_add_right _ _
  · rw [hworld]
    rfl

omit h in
/-- A name that a step rebinds is bound to no table from before. -/
theorem step_rebinds (hrebinds : Rebinds calls s act name) {data : Nat}
    (hdata : t.world.registry[name]? = some data) : s.world.tables.length ≤ data := by
  have hm := step_moves hs
  rcases hrebinds with ⟨found, table, kind, path, delimiter, hp, hc⟩ | ⟨hp, hc⟩
  · cases hm with
    | binds hp' hc' =>
      rw [hc] at hc'
      cases hc'
      rw [set_phase_world, bindTable, Std.ExtTreeMap.getElem?_insert_self] at hdata
      exact (Option.some.inj hdata).le
    | _ => simp_all
  · cases hm with
    | clears hp' hc' => cases hdata
    | _ => simp_all

end

/-- What a name is bound to stays from `n` on once it is. -/
theorem run_fresh {name : String} {acts : List RegistryAct} {n : Nat} (h : Kept calls s)
    (hr : exec (step calls) s acts = some t) (hn : n ≤ s.world.tables.length)
    (hfresh : ∀ data, s.world.registry[name]? = some data → n ≤ data) :
    ∀ data, t.world.registry[name]? = some data → n ≤ data := by
  refine (exec_invariant (P := fun _ u => Kept calls u ∧ n ≤ u.world.tables.length ∧
    ∀ data, u.world.registry[name]? = some data → n ≤ data) ⟨h, hn, hfresh⟩ ?_ hr).2.2
  rintro _ u act v _ ⟨hu, hlength, hfresh⟩ hs
  refine ⟨moves_kept hu (step_moves hs), hlength.trans (step_grows hu hs), ?_⟩
  intro data hdata
  by_cases hrebinds : Rebinds calls u act name
  · exact hlength.trans (step_rebinds hs hrebinds hdata)
  · rw [step_bound hu hs hrebinds] at hdata
    exact hfresh data hdata

/-- A name is bound to what it was until a step rebinds it, and to a later table from then on. -/
theorem run_bound {name : String} {acts : List RegistryAct} (h : Kept calls s)
    (hr : exec (step calls) s acts = some t) :
    (Unrebound calls name s acts → t.world.registry[name]? = s.world.registry[name]?) ∧
      (¬Unrebound calls name s acts → ∀ data, t.world.registry[name]? = some data →
        s.world.tables.length ≤ data) := by
  induction acts generalizing s with
  | nil =>
    cases hr
    exact ⟨fun _ => rfl, fun hnot => absurd trivial hnot⟩
  | cons act rest ih =>
    obtain ⟨u, hs, hrest⟩ := Option.bind_eq_some_iff.mp hr
    have hu := moves_kept h (step_moves hs)
    obtain ⟨hkept, hlater⟩ := ih hu hrest
    constructor
    · rintro ⟨hnot, hall⟩
      rw [hkept (hall u hs), step_bound h hs hnot]
    · intro hnot data hdata
      by_cases hrebinds : Rebinds calls s act name
      · exact run_fresh hu hrest (step_grows h hs)
          (fun _ hd => step_rebinds hs hrebinds hd) data hdata
      · have hrest' : ¬Unrebound calls name u rest := by
          intro hall
          refine hnot ⟨hrebinds, ?_⟩
          intro v hv
          rw [hs] at hv
          cases hv
          exact hall
        exact (step_grows h hs).trans (hlater hrest' data hdata)

/-- A run that rebinds no name leaves the tables and their names as they are. -/
theorem run_same {acts : List RegistryAct} (h : Kept calls s)
    (hr : exec (step calls) s acts = some t) (hnone : ∀ name, Unrebound calls name s acts) :
    SameTables s.world t.world := by
  induction acts generalizing s with
  | nil =>
    cases hr
    exact .refl _
  | cons act rest ih =>
    obtain ⟨u, hs, hrest⟩ := Option.bind_eq_some_iff.mp hr
    exact (step_same h hs fun name => (hnone name).1).trans
      (ih (moves_kept h (step_moves hs)) hrest fun name => (hnone name).2 u hs)

/-- A compiling call has found its table, and goes by that from then on. -/
def Placed (s : SharedRegistry Ctx) (c : Nat) (fn : LookupFn) (arguments : ArgumentList Ctx)
    (site : Located Ctx) : Prop :=
  (∃ index, s.phase c = .indexing site index) ∨
    ∃ program index, (s.phase c).answer = some (.compiled (.ok program)) ∧
      s.world.programs[program]? = some (fn, siteArgs site index arguments)

theorem programs_kept {c : Nat} {files : Files} (hm : Moves calls s c files t) {program : Nat}
    {compiled : LookupFn × CompiledArgs Ctx} (h : s.world.programs[program]? = some compiled) :
    t.world.programs[program]? = some compiled := by
  cases hm with
  | compiles hp hc =>
    obtain ⟨hlt, _⟩ := List.getElem?_eq_some_iff.mp h
    rw [set_phase_world]
    exact (List.getElem?_append_left hlt).trans h
  | _ => exact h

theorem step_placed {c : Nat} {fn : LookupFn} {arguments : ArgumentList Ctx} {site : Located Ctx}
    (hc : calls c = .compile fn arguments) {act : RegistryAct} (hs : s.step calls act = some t)
    (h : Placed s c fn arguments site) : Placed t c fn arguments site := by
  have hm := step_moves hs
  rcases h with ⟨index, hp⟩ | ⟨program, index, hanswer, hprogram⟩
  · by_cases heq : c = act.call
    · subst heq
      cases hm with
      | indexes hp' =>
        rw [hp] at hp'
        cases hp'
        exact Or.inl ⟨_, by rw [phase_set, if_pos rfl]⟩
      | @compiles _ _ _ found hp' hc' =>
        rw [hp] at hp'
        rw [hc] at hc'
        cases hp'
        cases hc'
        refine Or.inr ⟨s.world.programs.length, found, ?_, ?_⟩
        · rw [phase_set, if_pos rfl]
          rfl
        · rw [set_phase_world]
          exact List.getElem?_concat_length
      | _ => simp_all
    · exact Or.inl ⟨index, by rw [moves_other hm heq]; exact hp⟩
  · refine Or.inr ⟨program, index, ?_, programs_kept hm hprogram⟩
    by_cases heq : c = act.call
    · subst heq
      exact moves_bound hm hanswer
    · rw [moves_other hm heq]
      exact hanswer

theorem step_answered {c : Nat} {act : RegistryAct} (hs : s.step calls act = some t)
    {answer : RegistryAnswer Ctx} (h : (s.phase c).answer = some answer) :
    (t.phase c).answer = some answer := by
  by_cases heq : c = act.call
  · subst heq
    exact moves_bound (step_moves hs) h
  · rw [moves_other (step_moves hs) heq]
    exact h

/-- The step that looks a call's table up settles what the call comes to. -/
theorem looks_up {act : RegistryAct} (hs : s.step calls act = some t)
    (hp : s.phase act.call = .locked) {fn : LookupFn} {arguments : ArgumentList Ctx}
    (hc : calls act.call = .compile fn arguments) :
    match s.world.locate arguments with
    | .error e => (t.phase act.call).answer = some (.compiled (.error e))
    | .ok site => Placed t act.call fn arguments site := by
  cases step_moves hs with
  | unplaced hp' hc' hl =>
    rw [hc] at hc'
    cases hc'
    rw [hl, phase_set, if_pos rfl]
    rfl
  | places hp' hc' hl =>
    rw [hc] at hc'
    cases hc'
    rw [hl]
    exact Or.inl ⟨_, by rw [phase_set, if_pos rfl]⟩
  | _ => simp_all

/-- What a call that has looked its table up answers, once it does. -/
theorem run_answers {act : RegistryAct} {acts : List RegistryAct}
    (hr : exec (step calls) s (act :: acts) = some t) (hp : s.phase act.call = .locked)
    {fn : LookupFn} {arguments : ArgumentList Ctx} (hc : calls act.call = .compile fn arguments)
    {answer : RegistryAnswer Ctx} (hanswer : (t.phase act.call).answer = some answer) :
    AnswersIn t act.call fn arguments s.world := by
  obtain ⟨u, hs, hrest⟩ := Option.bind_eq_some_iff.mp hr
  have hlooks := looks_up hs hp hc
  rw [AnswersIn]
  cases hl : s.world.locate arguments with
  | error e =>
    rw [hl] at hlooks
    exact exec_invariant (P := fun _ v => (v.phase act.call).answer = some (.compiled (.error e)))
      hlooks (fun _ _ _ _ _ hv hs => step_answered hs hv) hrest
  | ok site =>
    rw [hl] at hlooks
    have hplaced : Placed t act.call fn arguments site :=
      exec_invariant (P := fun _ v => Placed v act.call fn arguments site)
        hlooks (fun _ _ _ _ _ hv hs => step_placed hc hs hv) hrest
    rcases hplaced with ⟨index, hindexing⟩ | ⟨program, index, hprogram⟩
    · rw [hindexing] at hanswer
      cases hanswer
    · exact ⟨program, index, hprogram⟩

/-- The table a program holds is the one its name had when it was looked up. -/
theorem held_bound {act : RegistryAct} {acts : List RegistryAct}
    (hr : exec (step calls) s (act :: acts) = some t) (hlooks : LooksUp calls s act)
    {name : String} {data : Nat} (hheld : HoldsTable t act.call name data) :
    s.world.registry[name]? = some data ∧ data < s.world.tables.length := by
  obtain ⟨hp, fn, arguments, hc⟩ := hlooks
  obtain ⟨program, fn', args, hanswer, hprogram, hname, hdata⟩ := hheld
  have hanswers := run_answers hr hp hc hanswer
  rw [AnswersIn] at hanswers
  cases hl : s.world.locate arguments with
  | error e =>
    rw [hl, hanswer] at hanswers
    cases hanswers
  | ok site =>
    rw [hl] at hanswers
    obtain ⟨program', index, hanswer', hprogram'⟩ := hanswers
    rw [hanswer] at hanswer'
    cases hanswer'
    rw [hprogram] at hprogram'
    cases hprogram'
    subst hname hdata
    obtain ⟨literal, found, _, _, hb, _, _, htable, _⟩ := locate_ok hl
    rw [← htable, bound_iff] at hb
    exact ⟨hb.1, (List.getElem?_eq_some_iff.mp hb.2).1⟩

/-- Of two lookups, however their calls and others run into each other, the second holds the
first one's table under a name exactly if nothing rebound the name in between; and it
answers as on the registry that the first has found if nothing rebound any. -/
theorem lookups_share {front mid back : List RegistryAct} {first second : RegistryAct}
    {s₁ s₂ : SharedRegistry Ctx} (hfront : exec (step calls) .start front = some s₁)
    (hmid : exec (step calls) s₁ (first :: mid) = some s₂)
    (hback : exec (step calls) s₂ (second :: back) = some s)
    (hfirst : LooksUp calls s₁ first) (hsecond : LooksUp calls s₂ second) :
    (∀ name data data', HoldsTable s first.call name data → HoldsTable s second.call name data' →
      (data' = data ↔ Unrebound calls name s₁ (first :: mid))) ∧
    ((∀ name, Unrebound calls name s₁ (first :: mid)) → ∀ fn arguments answer,
      calls second.call = .compile fn arguments → (s.phase second.call).answer = some answer →
        AnswersIn s second.call fn arguments s₁.world) := by
  have hkept := run_kept start_kept hfront
  have hall : exec (step calls) s₁ (first :: (mid ++ second :: back)) = some s := by
    rw [← List.cons_append, exec_append, hmid]
    exact hback
  constructor
  · intro name data data' hheld hheld'
    obtain ⟨hbound, hlt⟩ := held_bound hall hfirst hheld
    obtain ⟨hbound', _⟩ := held_bound hback hsecond hheld'
    obtain ⟨hsame, hlater⟩ := @run_bound _ _ _ _ _ name _ hkept hmid
    constructor
    · intro heq
      by_contra hnot
      have hge := hlater hnot data' hbound'
      omega
    · intro hnone
      rw [hsame hnone, hbound] at hbound'
      exact (Option.some.inj hbound').symm
  · intro hnone fn arguments answer hc hanswer
    have hanswers := run_answers hback hsecond.1 hc hanswer
    rw [AnswersIn, (run_same hkept hmid hnone).locate] at hanswers
    exact hanswers

end

section
local instance : Libraries := asciiLibraries

/-- A program of two lookups on one table, which another thread registers again meanwhile. -/
def tornCalls : Nat → RegistryCall Unit
  | 0 | 2 => .register "users" "file" "users.csv" 44
  | 1 | 3 => .compile .findEnrichmentTableRecords findBob
  | _ => .list

def tornActs (order : List Nat) : List RegistryAct := order.map fun call => ⟨call, usersDisk⟩

theorem torn_program :
    ∃ s₁ s₂ s, exec (step tornCalls) .start (tornActs [0, 0, 0, 0, 1]) = some s₁ ∧
      exec (step tornCalls) s₁ (tornActs [1, 1, 1, 1, 1, 1, 2, 2, 2, 2, 3]) = some s₂ ∧
      exec (step tornCalls) s₂ (tornActs [3, 3, 3, 3, 3, 3]) = some s ∧
      HoldsTable s 1 "users" 0 ∧ HoldsTable s 3 "users" 1 ∧
      (∀ name data data', HoldsTable s 1 name data → HoldsTable s 3 name data' →
        (data' = data ↔ Unrebound tornCalls name s₁ (tornActs [1, 1, 1, 1, 1, 1, 2, 2, 2, 2, 3]))) ∧
      ((∀ name, Unrebound tornCalls name s₁ (tornActs [1, 1, 1, 1, 1, 1, 2, 2, 2, 2, 3])) →
        ∀ fn arguments answer, tornCalls 3 = .compile fn arguments →
          (s.phase 3).answer = some answer → AnswersIn s 3 fn arguments s₁.world) := by
  have h₁ : (exec (step tornCalls) .start (tornActs [0, 0, 0, 0, 1])).isSome = true := rfl
  have h₂ : (exec (step tornCalls) ((exec (step tornCalls) .start
    (tornActs [0, 0, 0, 0, 1])).get h₁) (tornActs [1, 1, 1, 1, 1, 1, 2, 2, 2, 2, 3])).isSome =
      true := rfl
  have h₃ : (exec (step tornCalls) ((exec (step tornCalls) ((exec (step tornCalls) .start
    (tornActs [0, 0, 0, 0, 1])).get h₁) (tornActs [1, 1, 1, 1, 1, 1, 2, 2, 2, 2, 3])).get h₂)
      (tornActs [3, 3, 3, 3, 3, 3])).isSome = true := rfl
  refine ⟨_, _, _, (Option.some_get h₁).symm, (Option.some_get h₂).symm, (Option.some_get h₃).symm,
    ⟨0, .findEnrichmentTableRecords, _, rfl, rfl, rfl, rfl⟩,
    ⟨1, .findEnrichmentTableRecords, _, rfl, rfl, rfl, rfl⟩, ?_⟩
  exact lookups_share (Option.some_get h₁).symm (Option.some_get h₂).symm (Option.some_get h₃).symm
    ⟨rfl, _, _, rfl⟩ ⟨rfl, _, _, rfl⟩

end

end VectorVrl.Proofs.SharedPrograms
