import Mathlib.Data.List.Basic

namespace Lib.Repeat
variable {α σ : Type*}

/-- An iterator over a list that starts over when the list runs out. -/
structure Cycle (α : Type*) where
  orig : List α
  iter : List α

def Cycle.of (l : List α) : Cycle α := ⟨l, l⟩

def Cycle.next (c : Cycle α) : Option α × Cycle α :=
  match c.iter with
  | a :: rest => (some a, ⟨c.orig, rest⟩)
  | [] =>
    match c.orig with
    | a :: rest => (some a, ⟨c.orig, rest⟩)
    | [] => (none, c)

/-- The first `n` items of a cycle. -/
structure Take (α : Type*) where
  cycle : Cycle α
  n : Nat

def Take.next (it : Take α) : Option α × Take α :=
  match it.n with
  | 0 => (none, it)
  | n + 1 => (it.cycle.next.1, ⟨it.cycle.next.2, n⟩)

/-- A `for` loop over an iterator, until it gives nothing; `none` when that has
not happened after `fuel` rounds. -/
def forEach (body : σ → α → σ) : Nat → Take α → σ → Option σ
  | 0, _, _ => none
  | fuel + 1, it, s =>
    match it.next with
    | (none, _) => some s
    | (some a, it) => forEach body fuel it (body s a)

theorem next_item (orig rest : List α) (a : α) (n : Nat) :
    Take.next ⟨⟨orig, a :: rest⟩, n + 1⟩ = (some a, ⟨⟨orig, rest⟩, n⟩) := rfl

/-- Where the list runs out the next item is its first. -/
theorem next_restart (rest : List α) (a : α) (n : Nat) :
    Take.next ⟨⟨a :: rest, []⟩, n + 1⟩ = (some a, ⟨⟨a :: rest, rest⟩, n⟩) := rfl

theorem for_each_item {body : σ → α → σ} {it after : Take α} {a : α} (fuel : Nat) (s : σ)
    (h : it.next = (some a, after)) :
    forEach body (fuel + 1) it s = forEach body fuel after (body s a) := by
  simp only [forEach, h]

/-- The loop goes through what is left of the current pass. -/
theorem for_each_rest (body : σ → α → σ) (orig rest : List α) (fuel n : Nat) (s : σ) :
    forEach body (fuel + rest.length) ⟨⟨orig, rest⟩, n + rest.length⟩ s =
      forEach body fuel ⟨⟨orig, []⟩, n⟩ (rest.foldl body s) := by
  induction rest generalizing s with
  | nil => rfl
  | cons a rest ih =>
    rw [List.length_cons, ← Nat.add_assoc, ← Nat.add_assoc,
      for_each_item _ s (next_item orig rest a _), ih, List.foldl_cons]

/-- From the end of a pass on the loop makes `k` whole ones. -/
theorem for_each_passes (body : σ → α → σ) (orig : List α) (fuel k : Nat) (s : σ) :
    forEach body (fuel + 1 + orig.length * k) ⟨⟨orig, []⟩, orig.length * k⟩ s =
      some ((List.replicate k orig).flatten.foldl body s) := by
  induction k generalizing s with
  | zero => rfl
  | succ k ih =>
    cases orig with
    | nil =>
      rw [List.flatten_replicate_nil, List.length_nil, Nat.zero_mul]
      rfl
    | cons a rest =>
      have hfuel : fuel + 1 + (a :: rest).length * (k + 1) =
          fuel + 1 + (a :: rest).length * k + rest.length + 1 := by
        rw [Nat.mul_succ, List.length_cons]
        omega
      have hleft : (a :: rest).length * (k + 1) =
          (a :: rest).length * k + rest.length + 1 := by
        rw [Nat.mul_succ, List.length_cons]
        omega
      rw [hfuel, hleft, for_each_item _ s (next_restart rest a _), for_each_rest, ih,
        List.replicate_succ, List.flatten_cons, List.foldl_append, List.foldl_cons]

/-- The loop over the first `l.length * k` items of a list's cycle ends after `k` passes. -/
theorem for_each_of (body : σ → α → σ) (l : List α) {k fuel : Nat} (s : σ)
    (h : l.length * k < fuel) :
    forEach body fuel ⟨.of l, l.length * k⟩ s =
      some ((List.replicate k l).flatten.foldl body s) := by
  obtain ⟨more, rfl⟩ := Nat.exists_eq_add_of_lt h
  cases k with
  | zero => rfl
  | succ k =>
    have hfuel : l.length * (k + 1) + more + 1 = more + 1 + l.length * k + l.length := by
      rw [Nat.mul_succ]
      omega
    rw [hfuel, Nat.mul_succ, Cycle.of, for_each_rest, for_each_passes, List.replicate_succ,
      List.flatten_cons, List.foldl_append]

end Lib.Repeat
