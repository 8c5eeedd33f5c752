import Mathlib.Algebra.Order.Monoid.Defs
import Mathlib.Data.List.Lex

namespace Lib.Versions

variable {α : Type*} [Zero α] [LinearOrder α]

/-- A component of a version, zero where the version has ended; none where it is
not a number. -/
def component (parts : List (Option α)) (i : Nat) : Option α := parts.getD i (some 0)

/-- Below, by the first component in which the two differ. -/
def Below (a b : List (Option α)) : Prop :=
  ∃ i x y, (∀ j < i, ∃ z, component a j = some z ∧ component b j = some z) ∧
    component a i = some x ∧ component b i = some y ∧ x < y

theorem below_cons {p q : Option α} {a b : List (Option α)} (h : Below (p :: a) (q :: b)) :
    (∃ x y, p = some x ∧ q = some y ∧ x < y) ∨ (∃ z, p = some z ∧ q = some z) ∧ Below a b := by
  obtain ⟨i, x, y, hsame, hx, hy, hlt⟩ := h
  cases i with
  | zero => exact Or.inl ⟨x, y, hx, hy, hlt⟩
  | succ i =>
    refine Or.inr ⟨hsame 0 (Nat.succ_pos i), i, x, y, ?_, hx, hy, hlt⟩
    intro j hj
    exact hsame (j + 1) (Nat.succ_lt_succ hj)

theorem below_head {x y : α} (h : x < y) (a b : List (Option α)) :
    Below (some x :: a) (some y :: b) :=
  ⟨0, x, y, fun _ hj => absurd hj (Nat.not_lt_zero _), rfl, rfl, h⟩

theorem below_tail {a b : List (Option α)} (z : α) (h : Below a b) :
    Below (some z :: a) (some z :: b) := by
  obtain ⟨i, x, y, hsame, hx, hy, hlt⟩ := h
  refine ⟨i + 1, x, y, ?_, hx, hy, hlt⟩
  intro j hj
  cases j with
  | zero => exact ⟨z, rfl, rfl⟩
  | succ j => exact hsame j (Nat.lt_of_succ_lt_succ hj)

/-- Numbers that are not negative are not below a version that has ended. -/
theorem not_below_nil {l : List α} (h : ∀ x ∈ l, 0 ≤ x) : ¬Below (l.map some) [] := by
  rintro ⟨i, x, y, _, hx, hy, hlt⟩
  obtain rfl : y = 0 := (Option.some.inj hy).symm
  rw [component, List.getD_eq_getElem?_getD, List.getElem?_map] at hx
  cases hi : l[i]? with
  | none =>
    rw [hi] at hx
    obtain rfl : x = 0 := (Option.some.inj hx).symm
    exact lt_irrefl _ hlt
  | some x' =>
    rw [hi] at hx
    obtain rfl : x' = x := Option.some.inj hx
    exact absurd (h x' (List.mem_of_getElem? hi)) (not_le_of_gt hlt)

/-- Below by components is below as a list. -/
theorem lt_of_below {l m : List α} (h : ∀ x ∈ l, 0 ≤ x)
    (hbelow : Below (l.map some) (m.map some)) : l < m := by
  induction l generalizing m with
  | nil =>
    cases m with
    | nil => exact absurd hbelow (not_below_nil (by simp))
    | cons y m => exact List.nil_lt_cons y m
  | cons x l ih =>
    rw [List.forall_mem_cons] at h
    cases m with
    | nil => exact absurd hbelow (not_below_nil (List.forall_mem_cons.mpr h))
    | cons y m =>
      rw [List.cons_lt_cons_iff]
      rcases below_cons hbelow with ⟨x', y', hx, hy, hlt⟩ | ⟨⟨z, hx, hy⟩, htail⟩
      · cases hx
        cases hy
        exact Or.inl hlt
      · cases hx
        cases hy
        exact Or.inr ⟨rfl, ih h.2 htail⟩

/-- Below as a list, and not by components, is to be cut off before zeros. -/
theorem zeros_of_lt {l m : List α} (h : ∀ y ∈ m, 0 ≤ y) (hlt : l < m)
    (hbelow : ¬Below (l.map some) (m.map some)) :
    ∃ zeros, zeros ≠ [] ∧ (∀ y ∈ zeros, y = 0) ∧ m = l ++ zeros := by
  induction l generalizing m with
  | nil =>
    refine ⟨m, ?_, ?_, rfl⟩
    · rintro rfl
      exact List.not_lt_nil [] hlt
    · clear hlt
      induction m with
      | nil => simp
      | cons y m ih =>
        rw [List.forall_mem_cons] at h ⊢
        have hy : y = 0 := by
          rcases lt_or_eq_of_le h.1 with hpos | hzero
          · exact absurd ⟨0, 0, y, fun _ hj => absurd hj (Nat.not_lt_zero _), rfl, rfl, hpos⟩ hbelow
          · exact hzero.symm
        refine ⟨hy, ih h.2 ?_⟩
        rintro ⟨i, x, y', hsame, hx, hy', hlt⟩
        refine hbelow ⟨i + 1, x, y', ?_, hx, hy', hlt⟩
        intro j hj
        cases j with
        | zero => exact ⟨0, rfl, congrArg some hy⟩
        | succ j => exact hsame j (Nat.lt_of_succ_lt_succ hj)
  | cons x l ih =>
    cases m with
    | nil => exact absurd hlt (List.not_lt_nil _)
    | cons y m =>
      rw [List.forall_mem_cons] at h
      rcases List.cons_lt_cons_iff.mp hlt with hxy | ⟨rfl, htail⟩
      · exact absurd (below_head hxy _ _) hbelow
      · obtain ⟨zeros, hne, hzeros, hm⟩ := ih h.2 htail fun hb => hbelow (below_tail x hb)
        exact ⟨zeros, hne, hzeros, congrArg (x :: ·) hm⟩

end Lib.Versions
