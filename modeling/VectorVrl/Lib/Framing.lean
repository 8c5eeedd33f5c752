import Mathlib.Algebra.GroupWithZero.Nat
import Mathlib.Data.List.Basic

namespace Lib.Framing
variable {α : Type*} [DecidableEq α] (sep : α)

/-- A stream of parts, each with the separator after it. -/
def frame (parts : List (List α)) : List α := parts.flatMap fun part => part ++ [sep]

/-- The pieces between the separators of a stream, less an empty one after the last. -/
def unframe (stream : List α) : List (List α) :=
  let pieces := stream.splitOn sep
  if pieces.getLast? = some [] then pieces.dropLast else pieces

theorem split_frame (parts : List (List α)) :
    (frame sep parts).splitOn sep = (parts.flatMap fun part => part.splitOn sep) ++ [[]] := by
  induction parts with
  | nil => rfl
  | cons part rest ih =>
    rw [frame, List.flatMap_cons, List.append_assoc, List.singleton_append,
      List.splitOn_append_cons_self, ← frame, ih, List.flatMap_cons, List.append_assoc]

/-- A framed part comes back as the pieces it holds. -/
theorem unframe_frame (parts : List (List α)) :
    unframe sep (frame sep parts) = parts.flatMap fun part => part.splitOn sep := by
  simp [unframe, split_frame]

theorem split_length (part : List α) : (part.splitOn sep).length = part.count sep + 1 := by
  induction part with
  | nil => rfl
  | cons a rest ih =>
    rw [List.splitOn_cons_eq_if_modifyHead, List.count_cons]
    split
    · rw [List.length_cons, ih]
    · rw [List.length_modifyHead, ih, Nat.add_zero]

theorem mem_split {c : α} (hne : c ≠ sep) {text : List α} (h : c ∈ text) :
    ∃ part ∈ text.splitOn sep, c ∈ part := by
  induction text with
  | nil => cases h
  | cons a rest ih =>
    obtain ⟨head, parts, hsplit⟩ := List.exists_cons_of_ne_nil (List.splitOn_ne_nil sep rest)
    rw [List.splitOn_cons_eq_if_modifyHead, hsplit]
    rw [hsplit] at ih
    split
    · rename_i hsep
      rcases List.mem_cons.mp h with rfl | hmem
      · exact absurd (by simpa using hsep) hne
      · obtain ⟨part, hpart, hc⟩ := ih hmem
        exact ⟨part, List.mem_cons_of_mem _ hpart, hc⟩
    · rcases List.mem_cons.mp h with rfl | hmem
      · exact ⟨c :: head, List.mem_cons_self, List.mem_cons_self⟩
      · obtain ⟨part, hpart, hc⟩ := ih hmem
        rcases List.mem_cons.mp hpart with rfl | hpart
        · exact ⟨a :: part, List.mem_cons_self, List.mem_cons_of_mem a hc⟩
        · exact ⟨part, List.mem_cons_of_mem _ hpart, hc⟩

/-- Each separator inside a part makes one piece more. -/
theorem unframe_length (parts : List (List α)) :
    (unframe sep (frame sep parts)).length =
      parts.length + (parts.map fun part => part.count sep).sum := by
  rw [unframe_frame]
  induction parts with
  | nil => rfl
  | cons part rest ih =>
    rw [List.flatMap_cons, List.length_append, ih, split_length, List.length_cons, List.map_cons,
      List.sum_cons]
    omega

theorem unframe_length_iff (parts : List (List α)) :
    (unframe sep (frame sep parts)).length = parts.length ↔ ∀ part ∈ parts, sep ∉ part := by
  rw [unframe_length, Nat.add_eq_left, List.sum_eq_zero_iff_forall_eq_nat]
  simp [List.count_eq_zero]

theorem unframe_eq_iff (parts : List (List α)) :
    unframe sep (frame sep parts) = parts ↔ ∀ part ∈ parts, sep ∉ part := by
  constructor
  · intro h
    exact (unframe_length_iff sep parts).mp (congrArg List.length h)
  · intro h
    rw [unframe_frame]
    induction parts with
    | nil => rfl
    | cons part rest ih =>
      rw [List.forall_mem_cons] at h
      rw [List.flatMap_cons, List.splitOn_eq_singleton h.1, ih h.2, List.singleton_append]

end Lib.Framing
