import Mathlib.Data.List.Basic

namespace Lib.Effects

/-- A program on a store that it reaches through operations only: it stops with
a result, or performs an operation and goes on with the answer. -/
inductive Prog (Op : Type) (Answer : Op → Type) (ρ : Type) where
  | stop (result : ρ)
  | perform (op : Op) (next : Answer op → Prog Op Answer ρ)

/-- An operation that was performed, with the answer it got. -/
abbrev Event (Op : Type) (Answer : Op → Type) := (op : Op) × Answer op

/-- What a run leaves: the operations it performed, its result and the store. -/
structure Ran (Op : Type) (Answer : Op → Type) (ρ σ : Type) where
  log : List (Event Op Answer)
  result : ρ
  state : σ

section
variable {Op : Type} {Answer : Op → Type} {ρ τ σ : Type}

def Ran.ops (ran : Ran Op Answer ρ σ) : List Op := ran.log.map Sigma.fst

namespace Prog

def bind (f : ρ → Prog Op Answer τ) : Prog Op Answer ρ → Prog Op Answer τ
  | stop result => f result
  | perform op next => perform op fun answer => (next answer).bind f

variable (handle : (op : Op) → σ → Answer op × σ)

def run : Prog Op Answer ρ → σ → Ran Op Answer ρ σ
  | stop result, s => ⟨[], result, s⟩
  | perform op next, s =>
    let (answer, s) := handle op s
    let ran := (next answer).run s
    { ran with log := ⟨op, answer⟩ :: ran.log }

/-- The store after a list of operations, their answers thrown away. -/
def after (s : σ) (ops : List Op) : σ := ops.foldl (fun s op => (handle op s).2) s

theorem run_bind (f : ρ → Prog Op Answer τ) (p : Prog Op Answer ρ) (s : σ) :
    (p.bind f).run handle s =
      let first := p.run handle s
      let second := (f first.result).run handle first.state
      ⟨first.log ++ second.log, second.result, second.state⟩ := by
  induction p generalizing s with
  | stop result => rfl
  | perform op next ih => simp only [bind, run, ih, List.cons_append]

/-- A run leaves what the operations of its log leave. -/
theorem run_state (p : Prog Op Answer ρ) (s : σ) :
    (p.run handle s).state = after handle s (p.run handle s).ops := by
  induction p generalizing s with
  | stop result => rfl
  | perform op next ih => exact ih _ _

/-- An operation is answered from what the operations before it left. -/
theorem run_answer (p : Prog Op Answer ρ) (s : σ) {before rest : List (Event Op Answer)} {op : Op}
    {answer : Answer op} (h : (p.run handle s).log = before ++ ⟨op, answer⟩ :: rest) :
    answer = (handle op (after handle s (before.map Sigma.fst))).1 := by
  induction p generalizing s before with
  | stop result => simp [run] at h
  | perform first next ih =>
    cases before with
    | nil =>
      simp only [run, List.nil_append, List.cons.injEq] at h
      cases h.1
      rfl
    | cons event before =>
      simp only [run, List.cons_append, List.cons.injEq] at h
      obtain ⟨rfl, hrest⟩ := h
      have hanswer := ih _ _ hrest
      exact hanswer

/-- Runs of one program from two stores that answer alike, so far as it asks, do the same
and leave stores that are related as the operations before relate them. -/
theorem run_alike {R : List Op → σ → σ → Prop} (p : Prog Op Answer ρ) (s t : σ) (hstart : R [] s t)
    (hstep : ∀ before op rest u v, (p.run handle s).ops = before ++ op :: rest → R before u v →
      (handle op u).1 = (handle op v).1 ∧ R (before ++ [op]) (handle op u).2 (handle op v).2) :
    (p.run handle t).log = (p.run handle s).log ∧
      (p.run handle t).result = (p.run handle s).result ∧
      R (p.run handle s).ops (p.run handle s).state (p.run handle t).state := by
  induction p generalizing s t R with
  | stop result => exact ⟨rfl, rfl, hstart⟩
  | perform op next ih =>
    obtain ⟨hanswer, hnext⟩ := hstep [] op _ s t rfl hstart
    have hrest := ih (handle op s).1 (R := fun ops => R (op :: ops)) (handle op s).2
      (handle op t).2 hnext ?_
    · obtain ⟨hlog, hresult, hstate⟩ := hrest
      simp only [run, ← hanswer, hlog, hresult, Ran.ops, List.map_cons, true_and]
      exact hstate
    · intro before op' rest u v hops hu
      refine hstep (op :: before) op' rest u v ?_ hu
      exact congrArg (op :: ·) hops

/-- A part of the store that some operations act on and all others leave alone
is what those operations make of it. -/
theorem part_after (part : σ → τ) {κ : Type} {own : Op → Option κ} {act : τ → κ → τ}
    (hown : ∀ op s, part (handle op s).2 = (own op).elim (part s) (act (part s)))
    (ops : List Op) (s : σ) :
    part (after handle s ops) = (ops.filterMap own).foldl act (part s) := by
  induction ops generalizing s with
  | nil => rfl
  | cons op rest ih =>
    rw [after, List.foldl_cons]
    refine (ih _).trans ?_
    rw [hown op s, List.filterMap_cons]
    cases own op <;> rfl

end Prog

end

end Lib.Effects
