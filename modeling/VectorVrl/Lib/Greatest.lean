import Mathlib.Data.List.Nodup
import Mathlib.Order.Lattice

namespace Lib.Greatest

variable {α β : Type*} [LinearOrder β] {key : α → β} {p : α → Bool} {l : List α} {a b : α}

def notBelow (key : α → β) (a b : α) : Bool := key b ≤ key a

/-- The list with the greatest keys first, equal ones in their order. -/
def descending (key : α → β) (l : List α) : List α := l.mergeSort (notBelow key)

/-- The first of the greatest entries of a list among those with a property. -/
structure FirstGreatest (key : α → β) (p : α → Bool) (l : List α) (a : α) : Prop where
  holds : p a = true
  split : ∃ before after, l = before ++ a :: after ∧
    (∀ b ∈ before, p b = true → key b < key a) ∧ ∀ b ∈ after, p b = true → key b ≤ key a

namespace FirstGreatest

theorem mem (h : FirstGreatest key p l a) : a ∈ l := by
  obtain ⟨before, after, rfl, _, _⟩ := h.split
  simp

theorem le (h : FirstGreatest key p l a) (hmem : b ∈ l) (hb : p b = true) : key b ≤ key a := by
  obtain ⟨before, after, rfl, hbefore, hafter⟩ := h.split
  rw [List.mem_append, List.mem_cons] at hmem
  rcases hmem with hmem | rfl | hmem
  · exact le_of_lt (hbefore b hmem hb)
  · exact le_refl _
  · exact hafter b hmem hb

theorem unique (h : FirstGreatest key p l a) (h' : FirstGreatest key p l b) : a = b := by
  obtain ⟨before, after, hl, hbefore, _⟩ := h.split
  obtain ⟨before', after', hl', hbefore', _⟩ := h'.split
  rw [hl, List.append_eq_append_iff] at hl'
  rcases hl' with ⟨mid, hmid, heq⟩ | ⟨mid, hmid, heq⟩
  · cases mid with
    | nil => exact (List.cons.inj heq).1
    | cons c mid =>
      obtain rfl : a = c := (List.cons.inj heq).1
      have hlt := hbefore' a (by rw [hmid]; simp) h.holds
      exact absurd (h.le h'.mem h'.holds) (not_le_of_gt hlt)
  · cases mid with
    | nil => exact (List.cons.inj heq).1.symm
    | cons c mid =>
      obtain rfl : b = c := (List.cons.inj heq).1
      have hlt := hbefore b (by rw [hmid]; simp) h'.holds
      exact absurd (h'.le h.mem h.holds) (not_le_of_gt hlt)

end FirstGreatest

theorem not_below_trans (a b c : α) (hab : notBelow key a b = true)
    (hbc : notBelow key b c = true) : notBelow key a c = true := by
  rw [notBelow, decide_eq_true_eq] at hab hbc ⊢
  exact le_trans hbc hab

theorem not_below_total (a b : α) : (notBelow key a b || notBelow key b a) = true := by
  rw [notBelow, notBelow, Bool.or_eq_true, decide_eq_true_eq, decide_eq_true_eq]
  exact le_total _ _

theorem descending_pairwise (key : α → β) (l : List α) :
    (descending key l).Pairwise fun a b => key b ≤ key a := by
  have hsorted := List.pairwise_mergeSort (@not_below_trans α β _ key) not_below_total l
  exact hsorted.imp fun h => of_decide_eq_true h

theorem mem_descending : a ∈ descending key l ↔ a ∈ l := List.mem_mergeSort

theorem descending_stable (hle : key b ≤ key a) (h : [a, b].Sublist l) :
    [a, b].Sublist (descending key l) :=
  List.pair_sublist_mergeSort not_below_trans not_below_total (decide_eq_true hle) h

/-- An entry that stands before another stands in what is before it. -/
theorem mem_before {before after : List α} (hnodup : (before ++ a :: after).Nodup) (hne : b ≠ a)
    (h : [b, a].Sublist (before ++ a :: after)) : b ∈ before := by
  rw [List.nodup_append, List.nodup_cons] at hnodup
  obtain ⟨left, right, heq, hleft, hright⟩ := List.sublist_append_iff.mp h
  cases left with
  | nil =>
    rw [List.nil_append] at heq
    subst heq
    rcases List.sublist_cons_iff.mp hright with hafter | ⟨rest, heq, _⟩
    · exact absurd (hafter.subset (by simp)) hnodup.2.1.1
    · exact absurd (List.cons.inj heq).1 hne
  | cons c left =>
    obtain rfl : b = c := (List.cons.inj heq).1
    exact hleft.subset List.mem_cons_self

/-- No hit is above the first one in descending order. -/
theorem find_le (h : (descending key l).find? p = some a) (hmem : b ∈ l) (hb : p b = true) :
    key b ≤ key a := by
  obtain ⟨_, front, back, hsplit, hfront⟩ := List.find?_eq_some_iff_append.mp h
  have hsorted := descending_pairwise key l
  have hin : b ∈ descending key l := mem_descending.mpr hmem
  rw [hsplit, List.mem_append, List.mem_cons] at hin
  rw [hsplit, List.pairwise_append, List.pairwise_cons] at hsorted
  rcases hin with hin | rfl | hin
  · have hnot := hfront b hin
    rw [hb] at hnot
    cases hnot
  · exact le_refl _
  · exact hsorted.2.1.1 b hin

/-- The first hit in descending order is the first of the greatest. -/
theorem find_descending (hnodup : l.Nodup) (h : (descending key l).find? p = some a) :
    FirstGreatest key p l a := by
  obtain ⟨ha, front, back, hsplit, hfront⟩ := List.find?_eq_some_iff_append.mp h
  have hmem : a ∈ l := mem_descending.mp (List.mem_of_find?_eq_some h)
  have hle : ∀ b ∈ l, p b = true → key b ≤ key a := fun b hb hpb => find_le h hb hpb
  obtain ⟨before, after, rfl⟩ := List.append_of_mem hmem
  refine ⟨ha, before, after, rfl, ?_, ?_⟩
  · intro b hb hpb
    refine lt_of_le_of_ne (hle b (List.mem_append_left _ hb) hpb) ?_
    intro heq
    have hpair : [b, a].Sublist (before ++ a :: after) :=
      (List.singleton_sublist.mpr hb).append (List.singleton_sublist.mpr List.mem_cons_self)
    have hstable := descending_stable (le_of_eq heq.symm) hpair
    have hdescending : (descending key (before ++ a :: after)).Nodup :=
      (List.mergeSort_perm _ _).nodup_iff.mpr hnodup
    rw [hsplit] at hstable hdescending
    have hne : b ≠ a := by
      rintro rfl
      rw [List.nodup_append] at hnodup
      exact hnodup.2.2 b hb b List.mem_cons_self rfl
    have hnot := hfront b (mem_before hdescending hne hstable)
    rw [hpb] at hnot
    cases hnot
  · intro b hb
    exact hle b (List.mem_append_right _ (List.mem_cons_of_mem _ hb))

theorem find_none (h : (descending key l).find? p = none) (hmem : a ∈ l) : p a = false := by
  rw [List.find?_eq_none] at h
  simpa using h a (mem_descending.mpr hmem)

end Lib.Greatest
