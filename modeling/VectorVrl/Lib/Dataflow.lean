import Mathlib.Data.List.Forall2
import Mathlib.Logic.Relation
import VectorVrl.Lib.Chain

namespace Lib.Dataflow
open Lib.Chain Relation

/-- Components that take events from each other's outputs, and what each may give at each of
its own outputs for an event. -/
structure Network (ι π ε : Type*) where
  inputs : ι → List (ι × π)
  emits : ι → ε → (π → List ε) → Prop

/-- Where the events of a network are: fed from outside or passed on to a
component and not taken yet, and all that each has taken and given. -/
@[ext] structure Traffic (ι π ε : Type*) where
  pending : ι → List ε
  queue : ι × π → ι → List ε
  taken : ι → List ε
  given : ι × π → List ε

def start {ι π ε : Type*} (feed : ι → List ε) : Traffic ι π ε :=
  ⟨feed, fun _ _ => [], fun _ => [], fun _ => []⟩

namespace Network
variable {ι π ε : Type*} [DecidableEq ι] [DecidableEq π]

/-- A component is done with events and passes on what it made of them. -/
def pass (n : Network ι π ε) (s : Traffic ι π ε) (b : ι) (events : List ε) (out : π → List ε) :
    Traffic ι π ε :=
  { s with
    queue := fun x y => if x.1 = b ∧ x ∈ n.inputs y then s.queue x y ++ out x.2 else s.queue x y
    taken := fun x => if x = b then s.taken x ++ events else s.taken x
    given := fun x => if x.1 = b then s.given x ++ out x.2 else s.given x }

/-- One component takes one event, from outside or from another, whichever is next. -/
inductive Step (n : Network ι π ε) (s : Traffic ι π ε) : Traffic ι π ε → Prop where
  | enter {b : ι} {e : ε} {rest : List ε} {out : π → List ε} (hp : s.pending b = e :: rest)
      (he : n.emits b e out) :
      n.Step s (n.pass { s with pending := fun x => if x = b then rest else s.pending x }
        b [e] out)
  | take {a : ι × π} {b : ι} {e : ε} {rest : List ε} {out : π → List ε} (ha : a ∈ n.inputs b)
      (hq : s.queue a b = e :: rest) (he : n.emits b e out) :
      n.Step s (n.pass
        { s with queue := fun x y => if x = a ∧ y = b then rest else s.queue x y } b [e] out)

abbrev Steps (n : Network ι π ε) : Traffic ι π ε → Traffic ι π ε → Prop := ReflTransGen n.Step

omit [DecidableEq ι] [DecidableEq π] in
/-- No event is on its way. -/
def Drained (n : Network ι π ε) (s : Traffic ι π ε) : Prop :=
  (∀ b, s.pending b = []) ∧ ∀ a b, a ∈ n.inputs b → s.queue a b = []

/-- What a component may give at one output for an event, whatever it gives at the others. -/
def Gives (n : Network ι π ε) (port : π) (b : ι) (e : ε) (out : List ε) : Prop :=
  ∃ outs, n.emits b e outs ∧ outs port = out

/-- Events gone through components one after the other, all through each before the next, at
one output of each. -/
def Through (n : Network ι π ε) (port : π) : List ι → List ε → List ε → Prop
  | [], events, out => out = events
  | b :: rest, events, out =>
    ∃ outs, List.Forall₂ (n.Gives port b) events outs ∧ n.Through port rest outs.flatten out

/-- The components are one line by one output of each, and nothing else passes events on. -/
structure Line (n : Network ι π ε) (port : π) (path : List ι) : Prop where
  nodup : path.Nodup
  edges : ∀ a b, a ∈ n.inputs b ↔ a.2 = port ∧ Next path a.1 b
  once : ∀ b, (n.inputs b).Nodup

end Network

namespace Network
variable {ι π ε : Type*} {n : Network ι π ε} {port : π} {path : List ι} {events out : List ε}

theorem through_snoc {b : ι} : n.Through port (path ++ [b]) events out ↔
    ∃ mid outs, n.Through port path events mid ∧ List.Forall₂ (n.Gives port b) mid outs ∧
      out = outs.flatten := by
  induction path generalizing events with
  | nil =>
    constructor
    · rintro ⟨outs, houts, hout⟩
      exact ⟨events, outs, rfl, houts, hout⟩
    · rintro ⟨mid, outs, rfl, houts, hout⟩
      exact ⟨outs, houts, hout⟩
  | cons a rest ih =>
    constructor
    · rintro ⟨first, hfirst, hrest⟩
      obtain ⟨mid, outs, hmid, houts, hout⟩ := ih.mp hrest
      exact ⟨mid, outs, ⟨first, hfirst, hmid⟩, houts, hout⟩
    · rintro ⟨mid, outs, ⟨first, hfirst, hmid⟩, houts, hout⟩
      exact ⟨first, hfirst, ih.mpr ⟨mid, outs, hmid, houts, hout⟩⟩

theorem through_congr {n' : Network ι π ε} (h : ∀ b ∈ path, n.Gives port b = n'.Gives port b) :
    n.Through port path events out ↔ n'.Through port path events out := by
  induction path generalizing events with
  | nil => rfl
  | cons b rest ih =>
    have hrest := fun c hc => h c (List.mem_cons_of_mem b hc)
    simp only [Through, h b (List.mem_cons_self ..), ih hrest]

theorem flatten_kept {events : List ε} {outs : List (List ε)}
    (h : List.Forall₂ (fun e out => out = [e]) events outs) : outs.flatten = events := by
  induction h with
  | nil => rfl
  | cons hout _ ih => rw [List.flatten_cons, hout, ih, List.singleton_append]

theorem all_kept (events : List ε) :
    List.Forall₂ (fun e out => out = [e]) events (events.map fun e => [e]) :=
  List.forall₂_map_right_iff.mpr (List.forall₂_same.mpr fun _ _ => rfl)

/-- A component that passes on what it takes changes nothing at the start of a line. -/
theorem through_cons_kept {b : ι} (h : ∀ e out, n.Gives port b e out ↔ out = [e]) :
    n.Through port (b :: path) events out ↔ n.Through port path events out := by
  have hgives : n.Gives port b = fun e out => out = [e] := by
    funext e out
    exact propext (h e out)
  constructor
  · rintro ⟨outs, houts, hrest⟩
    rw [hgives] at houts
    rwa [flatten_kept houts] at hrest
  · intro hrest
    refine ⟨events.map fun e => [e], ?_, ?_⟩
    · rw [hgives]
      exact all_kept events
    · rwa [flatten_kept (all_kept events)]

/-- Nor at the end of one. -/
theorem through_snoc_kept {b : ι} (h : ∀ e out, n.Gives port b e out ↔ out = [e]) :
    n.Through port (path ++ [b]) events out ↔ n.Through port path events out := by
  have hgives : n.Gives port b = fun e out => out = [e] := by
    funext e out
    exact propext (h e out)
  rw [through_snoc, hgives]
  constructor
  · rintro ⟨mid, outs, hmid, houts, rfl⟩
    rwa [flatten_kept houts]
  · intro hmid
    exact ⟨out, _, hmid, all_kept out, (flatten_kept (all_kept out)).symm⟩

/-- Components that all pass on what they take change nothing. -/
theorem through_kept (h : ∀ b ∈ path, ∀ e out, n.Gives port b e out ↔ out = [e]) :
    n.Through port path events out ↔ out = events := by
  induction path with
  | nil => rfl
  | cons b rest ih =>
    rw [through_cons_kept (h b (List.mem_cons_self ..))]
    exact ih fun c hc => h c (List.mem_cons_of_mem b hc)

/-- All that is given at one output. -/
def together (outs : List (π → List ε)) (port : π) : List ε := outs.flatMap fun out => out port

theorem together_cons (made : π → List ε) (outs : List (π → List ε)) :
    together (made :: outs) = fun port => made port ++ together outs port :=
  funext fun _ => List.flatMap_cons

theorem gives_of_emits {b : ι} {outs : List (π → List ε)}
    (h : List.Forall₂ (n.emits b) events outs) (port : π) :
    List.Forall₂ (n.Gives port b) events (outs.map fun out => out port) :=
  List.forall₂_map_right_iff.mpr (h.imp fun _ out he => ⟨out, he, rfl⟩)

theorem emits_of_gives {b : ι} {outs : List (List ε)}
    (h : List.Forall₂ (n.Gives port b) events outs) :
    ∃ whole, List.Forall₂ (n.emits b) events whole ∧ outs.flatten = together whole port := by
  induction h with
  | nil => exact ⟨[], .nil, rfl⟩
  | cons hgives _ ih =>
    obtain ⟨out, he, rfl⟩ := hgives
    obtain ⟨whole, hwhole, hrest⟩ := ih
    refine ⟨out :: whole, .cons he hwhole, ?_⟩
    rw [List.flatten_cons, hrest, together_cons]

/-- What every run keeps: what a component has given is made of what it has taken, and
what the one output before it has given it has taken or still has before it. -/
structure Balanced (n : Network ι π ε) (feed : ι → List ε) (s : Traffic ι π ε) : Prop where
  made : ∀ b, ∃ outs, List.Forall₂ (n.emits b) (s.taken b) outs ∧
    ∀ port, s.given (b, port) = together outs port
  fed : ∀ b, n.inputs b = [] → s.taken b ++ s.pending b = feed b
  unfed : ∀ b, feed b = [] → s.pending b = []
  passed : ∀ a b, n.inputs b = [a] → feed b = [] → s.taken b ++ s.queue a b = s.given a

theorem made_snoc {b c : ι} [DecidableEq ι] {s : Traffic ι π ε} {e : ε} {made : π → List ε}
    (h : ∃ outs, List.Forall₂ (n.emits c) (s.taken c) outs ∧
      ∀ port, s.given (c, port) = together outs port)
    (he : n.emits b e made) :
    ∃ outs, List.Forall₂ (n.emits c) (if c = b then s.taken c ++ [e] else s.taken c) outs ∧
      ∀ port, (if c = b then s.given (c, port) ++ made port else s.given (c, port)) =
        together outs port := by
  obtain ⟨outs, houts, hgiven⟩ := h
  split
  · rename_i heq
    subst heq
    exact ⟨outs ++ [made], List.rel_append houts (.cons he .nil),
      fun port => by simp [hgiven, together]⟩
  · exact ⟨outs, houts, hgiven⟩

theorem start_balanced (n : Network ι π ε) (feed : ι → List ε) :
    n.Balanced feed (start feed) :=
  ⟨fun _ => ⟨[], .nil, fun _ => rfl⟩, fun _ _ => rfl, fun _ h => h, fun _ _ _ _ => rfl⟩

section
variable [DecidableEq ι] [DecidableEq π] {feed : ι → List ε} {s t : Traffic ι π ε}

theorem step_balanced (h : n.Balanced feed s) (hs : n.Step s t) : n.Balanced feed t := by
  cases hs with
  | @enter b e rest made hp he =>
    refine ⟨fun c => made_snoc (h.made c) he, ?_, ?_, ?_⟩
    · intro c hc
      have hfed := h.fed c hc
      by_cases heq : c = b
      · subst heq
        rw [hp] at hfed
        simp [pass, ← hfed]
      · simpa [pass, heq] using hfed
    · intro c hc
      have hunfed := h.unfed c hc
      by_cases heq : c = b
      · subst heq
        rw [hp] at hunfed
        cases hunfed
      · simpa [pass, heq] using hunfed
    · intro a c hc hnone
      have hne : c ≠ b := by
        rintro rfl
        rw [h.unfed c hnone] at hp
        cases hp
      have hpassed := h.passed a c hc hnone
      by_cases heq : a.1 = b
      · simp [pass, hne, hc, heq, ← hpassed]
      · simpa [pass, hne, heq] using hpassed
  | @take a b e rest made ha hq he =>
    refine ⟨fun c => made_snoc (h.made c) he, ?_, h.unfed, ?_⟩
    · intro c hc
      have hne : c ≠ b := by
        rintro rfl
        rw [hc] at ha
        cases ha
      simpa [pass, hne] using h.fed c hc
    · intro d c hc hnone
      have hpassed := h.passed d c hc hnone
      by_cases hcb : c = b
      · subst hcb
        rw [hc, List.mem_singleton] at ha
        subst ha
        rw [hq] at hpassed
        by_cases hself : a.1 = c
        · simp [pass, hself, hc, ← hpassed]
        · simp [pass, hself, ← hpassed]
      · by_cases hdb : d.1 = b
        · simp [pass, hcb, hc, hdb, ← hpassed]
        · simpa [pass, hcb, hdb] using hpassed

theorem steps_balanced (hs : n.Steps (start feed) s) : n.Balanced feed s := by
  induction hs with
  | refl => exact start_balanced n feed
  | tail _ hstep ih => exact step_balanced ih hstep

end

/-- The components that another takes its events from. -/
def before (n : Network ι π ε) (b : ι) : List ι := (n.inputs b).map Prod.fst

theorem Line.before_iff (h : n.Line port path) {a b : ι} : a ∈ n.before b ↔ Next path a b := by
  rw [before, List.mem_map]
  constructor
  · rintro ⟨x, hx, rfl⟩
    exact ((h.edges x b).mp hx).2
  · exact fun hnext => ⟨(a, port), (h.edges (a, port) b).mpr ⟨rfl, hnext⟩, rfl⟩

theorem Line.one_input (h : n.Line port path) {a b : ι} (hone : n.before b = [a]) :
    n.inputs b = [(a, port)] := by
  obtain ⟨x, hx, ha⟩ := List.map_eq_singleton_iff.mp hone
  have hport := ((h.edges x b).mp (by rw [hx]; exact List.mem_singleton_self x)).1
  rw [hx, ← ha, ← hport]

theorem Line.trail (h : n.Line port path) : Trail n.before path := by
  have hsingle : SinglePath path n.before path :=
    ⟨.refl _, fun a _ b _ => h.before_iff⟩
  apply hsingle.trail h.nodup
  intro b hb
  refine ⟨?_, ?_⟩
  · intro a ha
    obtain ⟨i, hi, _⟩ := h.before_iff.mp ha
    exact List.mem_of_getElem? hi
  · refine (h.once b).map_on fun x hx y hy hxy => Prod.ext hxy ?_
    rw [((h.edges x b).mp hx).1, ((h.edges y b).mp hy).1]

/-- Once no event is on its way, each component of a line has given what the
events come to when they go through it and all before it. -/
theorem drained_through [DecidableEq ι] [DecidableEq π] {first : ι} {rest : List ι}
    {feed : ι → List ε} {s : Traffic ι π ε} (h : n.Line port (first :: rest))
    (hfeed : ∀ b ≠ first, feed b = []) (hs : n.Steps (start feed) s) (hdrained : n.Drained s)
    (i : Nat) {b : ι} (hb : (first :: rest)[i]? = some b) :
    n.Through port ((first :: rest).take (i + 1)) (feed first) (s.given (b, port)) := by
  have hbalanced := steps_balanced hs
  have htrail := h.trail
  induction i generalizing b with
  | zero =>
    cases hb
    obtain ⟨outs, houts, hgiven⟩ := hbalanced.made first
    have hfed := hbalanced.fed first (List.map_eq_nil_iff.mp (htrail.first first rfl))
    rw [hdrained.1, List.append_nil] at hfed
    rw [hfed] at houts
    exact ⟨_, gives_of_emits houts port, hgiven port⟩
  | succ i ih =>
    obtain ⟨hlt, hget⟩ := List.getElem?_eq_some_iff.mp hb
    have ha : (first :: rest)[i]? = some (first :: rest)[i] := List.getElem?_eq_getElem (by omega)
    have hone := h.one_input (htrail.next i _ b ha hb)
    have hne : b ≠ first := by
      rintro rfl
      rw [List.map_eq_nil_iff.mp (htrail.first b rfl)] at hone
      cases hone
    have hpassed := hbalanced.passed _ b hone (hfeed b hne)
    rw [hdrained.2 _ b (by rw [hone]; exact List.mem_singleton_self _), List.append_nil] at hpassed
    obtain ⟨outs, houts, hgiven⟩ := hbalanced.made b
    rw [List.take_succ_eq_append_getElem hlt, hget, through_snoc]
    rw [hpassed] at houts
    exact ⟨_, _, ih ha, gives_of_emits houts port, hgiven port⟩

section
variable [DecidableEq ι] [DecidableEq π]

theorem pass_pass (s : Traffic ι π ε) (b : ι) (events events' : List ε)
    (made made' : π → List ε) :
    n.pass (n.pass s b events made) b events' made' =
      n.pass s b (events ++ events') fun port => made port ++ made' port := by
  ext1
  · rfl
  · funext x y
    simp only [pass]
    split <;> simp
  · funext x
    simp only [pass]
    split <;> simp
  · funext x
    simp only [pass]
    split <;> simp

theorem pass_nil (s : Traffic ι π ε) (b : ι) : n.pass s b [] (together []) = s := by
  ext1 <;> simp [pass, together]

/-- A component can take all that is fed to it from outside. -/
theorem enter_all {b : ι} {events : List ε} {outs : List (π → List ε)}
    (h : List.Forall₂ (n.emits b) events outs) {s : Traffic ι π ε} (hp : s.pending b = events) :
    n.Steps s (n.pass { s with pending := fun x => if x = b then [] else s.pending x }
      b events (together outs)) := by
  induction h generalizing s with
  | nil =>
    have hsame : (fun x => if x = b then [] else s.pending x) = s.pending := by
      funext x
      split
      · rename_i heq
        rw [heq, hp]
      · rfl
    rw [hsame, pass_nil]
  | @cons e made rest outs he _ ih =>
    refine .head (.enter hp he) ?_
    have hrest := ih (s := n.pass
      { s with pending := fun x => if x = b then rest else s.pending x } b [e] made)
      (by simp [pass])
    have hagain : (fun x => if x = b then [] else if x = b then rest else s.pending x) =
        fun x => if x = b then [] else s.pending x := by
      funext x
      split <;> rfl
    have hsame := pass_pass (n := n)
      { s with pending := fun x => if x = b then [] else s.pending x } b [e] rest made
        (together outs)
    rw [together_cons, show e :: rest = [e] ++ rest from rfl, ← hsame]
    simpa only [pass, hagain] using hrest

/-- A component can take all that another has passed on to it. -/
theorem take_all {a : ι × π} {b : ι} (ha : a ∈ n.inputs b) (hne : a.1 ≠ b) {events : List ε}
    {outs : List (π → List ε)} (h : List.Forall₂ (n.emits b) events outs) {s : Traffic ι π ε}
    (hq : s.queue a b = events) :
    n.Steps s (n.pass
      { s with queue := fun x y => if x = a ∧ y = b then [] else s.queue x y }
      b events (together outs)) := by
  induction h generalizing s with
  | nil =>
    have hsame : (fun x y => if x = a ∧ y = b then [] else s.queue x y) = s.queue := by
      funext x y
      split
      · rename_i heq
        rw [heq.1, heq.2, hq]
      · rfl
    rw [hsame, pass_nil]
  | @cons e made rest outs he _ ih =>
    refine .head (.take ha hq he) ?_
    have hrest := ih (s := n.pass
      { s with queue := fun x y => if x = a ∧ y = b then rest else s.queue x y } b [e] made)
      (by simp [pass, hne])
    have hsame := pass_pass (n := n)
      { s with queue := fun x y => if x = a ∧ y = b then [] else s.queue x y }
      b [e] rest made (together outs)
    rw [together_cons, show e :: rest = [e] ++ rest from rfl, ← hsame]
    -- taking from one queue and passing on to others do not meet, as `a` is no output of `b`
    have hqueue : ∀ x y, (if x = a ∧ y = b then []
          else if x.1 = b ∧ x ∈ n.inputs y then
            (if x = a ∧ y = b then rest else s.queue x y) ++ made x.2
          else if x = a ∧ y = b then rest else s.queue x y) =
        if x.1 = b ∧ x ∈ n.inputs y then
          (if x = a ∧ y = b then [] else s.queue x y) ++ made x.2
        else if x = a ∧ y = b then [] else s.queue x y := by
      intro x y
      by_cases hxy : x = a ∧ y = b
      · simp [hxy, hne]
      · simp [hxy]
    simpa only [pass, hqueue] using hrest

/-- With all its events before the second component of a line, a network can be drained. -/
theorem line_drains {a : ι} {rest : List ι} {events out : List ε} {s : Traffic ι π ε}
    (hnodup : (a :: rest).Nodup)
    (hedges : ∀ x y, x.1 ∈ a :: rest → (x ∈ n.inputs y ↔ x.2 = port ∧ Next (a :: rest) x.1 y))
    (hpending : ∀ b, s.pending b = [])
    (hahead : ∀ y, (a, port) ∈ n.inputs y → s.queue (a, port) y = events)
    (hothers : ∀ x y, x.1 ≠ a → x ∈ n.inputs y → s.queue x y = [])
    (hgiven : s.given (a, port) = events) (hlater : ∀ x ∈ rest, s.given (x, port) = [])
    (hthrough : n.Through port rest events out) :
    ∃ t, n.Steps s t ∧ n.Drained t ∧
      ∀ last, (a :: rest).getLast? = some last → t.given (last, port) = out := by
  induction rest generalizing a s events with
  | nil =>
    refine ⟨s, .refl, ⟨hpending, ?_⟩, ?_⟩
    · intro x y hxy
      by_cases hx : x.1 = a
      · have hnext := ((hedges x y (List.mem_singleton.mpr hx)).mp hxy).2
        exact absurd hnext next_single
      · exact hothers x y hx hxy
    · intro last hlast
      rw [List.getLast?_singleton, Option.some.injEq] at hlast
      rw [← hlast, hgiven]
      exact hthrough.symm
  | cons b rest ih =>
    obtain ⟨given, hgives, hrest⟩ := hthrough
    obtain ⟨outs, houts, htogether⟩ := emits_of_gives hgives
    rw [htogether] at hrest
    have hab : a ≠ b := fun heq => (List.nodup_cons.mp hnodup).1 (heq ▸ List.mem_cons_self ..)
    have hfrom : ∀ x y, x.1 = a → (x ∈ n.inputs y ↔ x = (a, port) ∧ y = b) := by
      rintro ⟨c, p⟩ y rfl
      rw [hedges (c, p) y (List.mem_cons_self ..), next_cons, Prod.mk.injEq]
      constructor
      · rintro ⟨hp, ⟨_, hy⟩ | ⟨i, hi, _⟩⟩
        · exact ⟨⟨rfl, hp⟩, hy⟩
        · exact absurd (List.mem_of_getElem? hi) (List.nodup_cons.mp hnodup).1
      · exact fun hboth => ⟨hboth.1.2, Or.inl ⟨rfl, hboth.2⟩⟩
    have hin : (a, port) ∈ n.inputs b := (hfrom _ b rfl).mpr ⟨rfl, rfl⟩
    have htaken := take_all hin hab houts (hahead b hin)
    have hedges' : ∀ x y, x.1 ∈ b :: rest →
        (x ∈ n.inputs y ↔ x.2 = port ∧ Next (b :: rest) x.1 y) := by
      intro x y hx
      rw [hedges x y (List.mem_cons_of_mem a hx), next_cons]
      have hxa : x.1 ≠ a := fun heq => (List.nodup_cons.mp hnodup).1 (heq ▸ hx)
      simp [hxa]
    let u := n.pass
      { s with queue := fun x y => if x = (a, port) ∧ y = b then [] else s.queue x y }
      b events (together outs)
    have hpending' : ∀ x, u.pending x = [] := hpending
    have hahead' : ∀ y, (b, port) ∈ n.inputs y → u.queue (b, port) y = together outs port := by
      intro y hy
      simp [u, pass, hy, hab.symm, hothers (b, port) y hab.symm hy]
    have hothers' : ∀ x y, x.1 ≠ b → x ∈ n.inputs y → u.queue x y = [] := by
      intro x y hxb hxy
      by_cases hxa : x.1 = a
      · simp [u, pass, (hfrom x y hxa).mp hxy, hab]
      · have hx : x ≠ (a, port) := fun heq => hxa (congrArg Prod.fst heq)
        simp [u, pass, hxb, hx, hothers x y hxa hxy]
    have hgiven' : u.given (b, port) = together outs port := by
      simp [u, pass, hlater b (List.mem_cons_self ..)]
    have hlater' : ∀ x ∈ rest, u.given (x, port) = [] := by
      intro x hx
      have hxb : x ≠ b := by
        rintro rfl
        exact (List.nodup_cons.mp (List.nodup_cons.mp hnodup).2).1 hx
      simp [u, pass, hxb, hlater x (List.mem_cons_of_mem b hx)]
    obtain ⟨t, ht, hdrained, hlast⟩ :=
      ih (List.nodup_cons.mp hnodup).2 hedges' hpending' hahead' hothers' hgiven' hlater' hrest
    refine ⟨t, htaken.trans ht, hdrained, ?_⟩
    intro last
    rw [List.getLast?_cons_cons]
    exact hlast last

/-- Whatever order its components get to run in, what a line of them gives is
what the events can come to when they go through one component after the other. -/
theorem line_gives_iff {first : ι} {rest : List ι} {feed : ι → List ε} {out : List ε} {last : ι}
    (h : n.Line port (first :: rest)) (hfeed : ∀ b ≠ first, feed b = [])
    (hlast : (first :: rest).getLast? = some last) :
    (∃ s, n.Steps (start feed) s ∧ n.Drained s ∧ s.given (last, port) = out) ↔
      n.Through port (first :: rest) (feed first) out := by
  constructor
  · rintro ⟨s, hs, hdrained, rfl⟩
    rw [List.getLast?_eq_getElem?] at hlast
    have hthrough := drained_through h hfeed hs hdrained _ hlast
    rwa [List.take_of_length_le (by simp)] at hthrough
  · rintro ⟨given, hgives, hrest⟩
    obtain ⟨outs, houts, htogether⟩ := emits_of_gives hgives
    rw [htogether] at hrest
    have hentered := enter_all houts (s := start feed) rfl
    let u := n.pass
      { start feed with pending := fun x => if x = first then [] else feed x }
      first (feed first) (together outs)
    have hpending : ∀ b, u.pending b = [] := by
      intro b
      by_cases hb : b = first
      · simp [u, pass, hb]
      · simp [u, pass, hb, start, hfeed b hb]
    have hahead : ∀ y, (first, port) ∈ n.inputs y →
        u.queue (first, port) y = together outs port := by
      intro y hy
      simp [u, pass, hy, start]
    have hothers : ∀ x y, x.1 ≠ first → x ∈ n.inputs y → u.queue x y = [] := by
      intro x y hx hxy
      simp [u, pass, hx, start]
    have hgiven : u.given (first, port) = together outs port := by
      simp [u, pass, start]
    have hlater : ∀ x ∈ rest, u.given (x, port) = [] := by
      intro x hx
      have hne : x ≠ first := by
        rintro rfl
        exact (List.nodup_cons.mp h.nodup).1 hx
      simp [u, pass, hne, start]
    obtain ⟨t, ht, hdrained, hout⟩ := line_drains h.nodup (fun x y _ => h.edges x y) hpending
      hahead hothers hgiven hlater hrest
    exact ⟨t, hentered.trans ht, hdrained, hout last hlast⟩

end

end Network

end Lib.Dataflow
