import Mathlib.Data.List.Induction

namespace Lib.Runs

variable {σ α : Type*}

/-- The state a run reaches by taking its labels in order, each of which must be possible. -/
def exec (step : σ → α → Option σ) (s : σ) : List α → Option σ
  | [] => some s
  | a :: rest => (step s a).bind fun t => exec step t rest

variable {step : σ → α → Option σ}

theorem exec_append (s : σ) (before after : List α) :
    exec step s (before ++ after) = (exec step s before).bind fun t => exec step t after := by
  induction before generalizing s with
  | nil => rfl
  | cons a rest ih =>
    cases hs : step s a with
    | none => simp [exec, hs]
    | some t => simp [exec, hs, ih t]

theorem exec_snoc (s : σ) (before : List α) (a : α) :
    exec step s (before ++ [a]) = (exec step s before).bind fun t => step t a := by
  rw [exec_append]
  congr 1
  funext t
  cases hs : step t a <;> simp [exec, hs]

/-- What holds at the start and is kept by each step, with the labels so far
in view, holds of every run. -/
theorem exec_invariant {init : σ} {P : List α → σ → Prop} (base : P [] init)
    (keep : ∀ before s a t, exec step init before = some s → P before s → step s a = some t →
      P (before ++ [a]) t) {trace : List α} {s : σ} (hr : exec step init trace = some s) :
    P trace s := by
  induction trace using List.reverseRecOn generalizing s with
  | nil =>
    cases hr
    exact base
  | append_singleton before a ih =>
    rw [exec_snoc] at hr
    obtain ⟨t, ht, ha⟩ := Option.bind_eq_some_iff.mp hr
    exact keep before t a s ht (ih ht) ha

end Lib.Runs
