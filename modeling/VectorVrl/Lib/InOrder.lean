import Mathlib.Data.List.Infix

namespace Lib.InOrder

variable {α : Type*} [DecidableEq α]

/-- The parts occur in the text one after the other, with anything between them. -/
def occurInOrder : List (List α) → List α → Bool
  | [], _ => true
  | part :: rest, text =>
    text.tails.any fun tail => decide (part <+: tail) && occurInOrder rest (tail.drop part.length)

theorem in_order_cons_iff {part : List α} {parts : List (List α)} {text : List α} :
    occurInOrder (part :: parts) text = true ↔
      ∃ before after, text = before ++ (part ++ after) ∧ occurInOrder parts after = true := by
  rw [occurInOrder, List.any_eq_true]
  constructor
  · intro h
    obtain ⟨tail, htail, h⟩ := h
    rw [Bool.and_eq_true, decide_eq_true_eq] at h
    obtain ⟨⟨after, rfl⟩, hafter⟩ := h
    obtain ⟨before, rfl⟩ := (List.mem_tails _ _).mp htail
    rw [List.drop_left] at hafter
    exact ⟨before, after, rfl, hafter⟩
  · intro h
    obtain ⟨before, after, rfl, hafter⟩ := h
    refine ⟨part ++ after, (List.mem_tails _ _).mpr (List.suffix_append _ _), ?_⟩
    rw [Bool.and_eq_true, decide_eq_true_eq, List.drop_left]
    exact ⟨List.prefix_append _ _, hafter⟩

/-- What occurs in a piece of a text occurs in the text. -/
theorem in_order_infix {parts : List (List α)} {piece text : List α} (hpiece : piece <:+: text)
    (h : occurInOrder parts piece = true) : occurInOrder parts text = true := by
  induction parts generalizing piece text with
  | nil => rfl
  | cons part parts ih =>
    obtain ⟨before, after, rfl, hafter⟩ := in_order_cons_iff.mp h
    obtain ⟨front, back, rfl⟩ := hpiece
    apply in_order_cons_iff.mpr
    refine ⟨front ++ before, after ++ back, by simp, ?_⟩
    exact ih (List.prefix_append after back).isInfix hafter

/-- A part of a split is a piece of the text without the separator. -/
theorem split_part {sep : α} {part : List α} (text : List α) (h : part ∈ text.splitOn sep) :
    sep ∉ part ∧ part <:+: text := by
  by_cases hsep : sep ∈ text
  · obtain ⟨first, rest, rfl, hfirst⟩ := List.eq_append_cons_of_mem hsep
    rw [List.splitOn_append_cons_self_of_not_mem hfirst] at h
    rcases List.mem_cons.mp h with rfl | h
    · exact ⟨hfirst, (List.prefix_append _ _).isInfix⟩
    · obtain ⟨hpart, hinfix⟩ := split_part rest h
      have hrest : rest <:+: first ++ sep :: rest := ⟨first ++ [sep], [], by simp⟩
      exact ⟨hpart, hinfix.trans hrest⟩
  · rw [List.splitOn_eq_singleton hsep, List.mem_singleton] at h
    exact ⟨h ▸ hsep, h ▸ List.infix_rfl⟩
termination_by text.length

/-- A front without the separator lies within the first part of a split. -/
theorem prefix_split {sep : α} {front : List α} (hsep : sep ∉ front) (back : List α) :
    ∃ part ∈ (front ++ back).splitOn sep, front <+: part := by
  by_cases hback : sep ∈ back
  · obtain ⟨first, rest, rfl, hfirst⟩ := List.eq_append_cons_of_mem hback
    have hpart : (front ++ first).splitOn sep = [front ++ first] :=
      List.splitOn_eq_singleton (by simp [hsep, hfirst])
    rw [← List.append_assoc, List.splitOn_append_cons_self, hpart]
    exact ⟨_, List.mem_cons_self, List.prefix_append _ _⟩
  · rw [List.splitOn_eq_singleton (by simp [hsep, hback])]
    exact ⟨_, List.mem_cons_self, List.prefix_append _ _⟩

/-- A piece without the separator lies within one part of a split. -/
theorem infix_split {sep : α} {piece text : List α} (hsep : sep ∉ piece)
    (hpiece : piece <:+: text) : ∃ part ∈ text.splitOn sep, piece <:+: part := by
  obtain ⟨before, after, rfl⟩ := hpiece
  rw [List.append_assoc]
  induction before with
  | nil =>
    obtain ⟨part, hpart, hprefix⟩ := prefix_split hsep after
    exact ⟨part, hpart, hprefix.isInfix⟩
  | cons a before ih =>
    obtain ⟨part, hpart, hinfix⟩ := ih
    obtain ⟨head, parts, hsplit⟩ :=
      List.exists_cons_of_ne_nil (List.splitOn_ne_nil sep (before ++ (piece ++ after)))
    rw [hsplit] at hpart
    rw [List.cons_append, List.splitOn_cons_eq_if_modifyHead, hsplit]
    split
    · exact ⟨part, List.mem_cons_of_mem _ hpart, hinfix⟩
    · rcases List.mem_cons.mp hpart with rfl | hpart
      · exact ⟨a :: part, List.mem_cons_self, List.infix_cons hinfix⟩
      · exact ⟨part, List.mem_cons_of_mem _ hpart, hinfix⟩

end Lib.InOrder
