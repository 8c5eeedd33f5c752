import Mathlib.Data.List.Nodup
import VectorVrl.Lib.Runs

namespace Lib.Linearize
open Lib.Runs

variable {κ σ α ι ρ : Type*}

/-- One call at a time: the state after the calls of an order, each with what it found. -/
def replay (apply : Nat → ι → σ → ρ × σ) (w : σ) (order : List (Nat × ι)) : σ :=
  order.foldl (fun w call => (apply call.1 call.2 w).2) w

/-- The order has an answer for each call that has one: what the call gives when
it is made alone, after those before it. -/
def Answers (apply : Nat → ι → σ → ρ × σ) (w : σ) (order : List (Nat × ι))
    (answered : Nat → ρ → Prop) : Prop :=
  ∀ c r, answered c r → ∃ before found after, order = before ++ (c, found) :: after ∧
    r = (apply c found (replay apply w before)).1

/-- A shared object whose calls run in steps. -/
structure Shared (κ α ι ρ : Type*) where
  step : κ → α → Option κ
  /-- The call that a step makes its effect for, with what it found. -/
  effect : κ → α → Option (Nat × ι)
  started : κ → Nat → Prop
  /-- What a call is bound to answer, from its effect on. -/
  bound : κ → Nat → Option ρ

/-- The calls that took effect in a run, in that order. -/
def Shared.order (o : Shared κ α ι ρ) (s : κ) : List α → List (Nat × ι)
  | [] => []
  | a :: rest => (o.effect s a).toList ++ ((o.step s a).elim [] fun t => o.order t rest)

/-- What relates the states of the shared object to those of calls one at a time. -/
structure Simulates (o : Shared κ α ι ρ) (apply : Nat → ι → σ → ρ × σ) (R : κ → σ → Prop) :
    Prop where
  started : ∀ {s t a c}, o.step s a = some t → o.started s c → o.started t c
  silent : ∀ {s t a w}, R s w → o.step s a = some t → o.effect s a = none →
    R t w ∧ ∀ c, o.bound t c = o.bound s c
  takes : ∀ {s t a w c found}, R s w → o.step s a = some t → o.effect s a = some (c, found) →
    R t (apply c found w).2 ∧ o.bound s c = none ∧ o.started t c ∧
      o.bound t c = some (apply c found w).1 ∧ ∀ d ≠ c, o.bound t d = o.bound s d

variable {o : Shared κ α ι ρ} {apply : Nat → ι → σ → ρ × σ} {R : κ → σ → Prop}

theorem order_snoc {s t : κ} {before : List α} (h : exec o.step s before = some t) (a : α) :
    o.order s (before ++ [a]) = o.order s before ++ (o.effect t a).toList := by
  induction before generalizing s with
  | nil =>
    cases h
    rw [List.nil_append, Shared.order, Shared.order, List.nil_append]
    cases o.step t a <;> simp [Shared.order]
  | cons b rest ih =>
    rw [exec] at h
    obtain ⟨u, hu, hrest⟩ := Option.bind_eq_some_iff.mp h
    simp only [List.cons_append, Shared.order, hu, Option.elim_some, ih hrest, List.append_assoc]

theorem replay_snoc (w : σ) (order : List (Nat × ι)) (c : Nat) (found : ι) :
    replay apply w (order ++ [(c, found)]) = (apply c found (replay apply w order)).2 := by
  rw [replay, List.foldl_append]
  rfl

/-- What a run has come to, against its order one call at a time. -/
structure Linear (o : Shared κ α ι ρ) (apply : Nat → ι → σ → ρ × σ) (R : κ → σ → Prop)
    (w : σ) (order : List (Nat × ι)) (s : κ) : Prop where
  state : R s (replay apply w order)
  once : (order.map Prod.fst).Nodup
  ordered : ∀ c, c ∈ order.map Prod.fst ↔ o.bound s c ≠ none
  started : ∀ c, o.bound s c ≠ none → o.started s c
  answers : Answers apply w order fun c r => o.bound s c = some r

theorem answers_snoc {w : σ} {order : List (Nat × ι)} {answered : Nat → ρ → Prop}
    (h : Answers apply w order answered) (c : Nat) (found : ι) :
    Answers apply w (order ++ [(c, found)]) fun d r => answered d r ∨
      d = c ∧ r = (apply c found (replay apply w order)).1 := by
  rintro d r (hold | ⟨rfl, rfl⟩)
  · obtain ⟨before, found', after, rfl, hr⟩ := h d r hold
    exact ⟨before, found', after ++ [(c, found)], by simp, hr⟩
  · exact ⟨order, found, [], rfl, rfl⟩

theorem step_linear (hsim : Simulates o apply R) {w : σ} {order : List (Nat × ι)} {s t : κ}
    {a : α} (h : Linear o apply R w order s) (hs : o.step s a = some t) :
    Linear o apply R w (order ++ (o.effect s a).toList) t := by
  cases he : o.effect s a with
  | none =>
    obtain ⟨hstate, hbound⟩ := hsim.silent h.state hs he
    rw [Option.toList_none, List.append_nil]
    refine ⟨hstate, h.once, ?_, ?_, ?_⟩
    · intro c
      rw [hbound]
      exact h.ordered c
    · intro c hc
      rw [hbound] at hc
      exact hsim.started hs (h.started c hc)
    · intro c r hc
      rw [hbound] at hc
      exact h.answers c r hc
  | some call =>
    obtain ⟨c, found⟩ := call
    obtain ⟨hstate, hfresh, hstarted, hown, hother⟩ := hsim.takes h.state hs he
    rw [Option.toList_some]
    refine ⟨?_, ?_, ?_, ?_, ?_⟩
    · rw [replay_snoc]
      exact hstate
    · rw [List.map_append, List.map_singleton, ← List.concat_eq_append, List.nodup_concat,
        h.ordered, hfresh]
      exact ⟨by simp, h.once⟩
    · intro d
      rw [List.map_append, List.map_singleton, List.mem_append, List.mem_singleton, h.ordered]
      by_cases hd : d = c
      · simp [hd, hown]
      · simp [hd, hother d hd]
    · intro d hd
      by_cases heq : d = c
      · rw [heq]
        exact hstarted
      · rw [hother d heq] at hd
        exact hsim.started hs (h.started d hd)
    · intro d r hd
      apply answers_snoc h.answers c found d r
      by_cases heq : d = c
      · rw [heq, hown] at hd
        exact Or.inr ⟨heq, (Option.some.inj hd).symm⟩
      · rw [hother d heq] at hd
        exact Or.inl hd

theorem run_linear (hsim : Simulates o apply R) {init : κ} {w : σ}
    (hinit : R init w) (hnone : ∀ c, o.bound init c = none) {trace : List α} {s : κ}
    (hr : exec o.step init trace = some s) : Linear o apply R w (o.order init trace) s := by
  refine exec_invariant (P := fun trace s => Linear o apply R w (o.order init trace) s) ?_ ?_ hr
  · refine ⟨hinit, List.nodup_nil, ?_, ?_, ?_⟩
    · simp [Shared.order, hnone]
    · intro c hc
      exact absurd (hnone c) hc
    · intro c r hc
      rw [hnone] at hc
      cases hc
  · intro before t a u hbefore h hu
    rw [order_snoc hbefore]
    exact step_linear hsim h hu

/-- A call that is bound to its answer before another has started comes before
it in the order. -/
theorem real_time (hsim : Simulates o apply R) {init : κ} {w : σ}
    (hinit : R init w) (hnone : ∀ c, o.bound init c = none) {before after : List α} {s t : κ}
    (hb : exec o.step init before = some s) (ha : exec o.step s after = some t) {c d : Nat}
    (hc : o.bound s c ≠ none) (hd : ¬o.started s d) :
    ∃ front back, o.order init (before ++ after) = front ++ back ∧
      c ∈ front.map Prod.fst ∧ d ∉ front.map Prod.fst := by
  have h := run_linear hsim hinit hnone hb
  have hsplit : ∃ back, o.order init (before ++ after) = o.order init before ++ back := by
    refine exec_invariant
      (P := fun after _ => ∃ back, o.order init (before ++ after) = o.order init before ++ back)
      ⟨[], by rw [List.append_nil, List.append_nil]⟩ ?_ ha
    intro mid u a v hmid hback _
    obtain ⟨back, hback⟩ := hback
    have hrun : exec o.step init (before ++ mid) = some u := by
      rw [exec_append, hb]
      exact hmid
    exact ⟨back ++ (o.effect u a).toList, by
      rw [← List.append_assoc, order_snoc hrun, hback, List.append_assoc]⟩
  obtain ⟨back, hback⟩ := hsplit
  refine ⟨_, back, hback, (h.ordered c).mpr hc, ?_⟩
  intro hmem
  exact hd (h.started d ((h.ordered d).mp hmem))

end Lib.Linearize
