import Mathlib.Data.List.Basic

namespace Lib.Segments
variable {α : Type*} (marks : α → Bool)

/-- The unmarked run a stream starts with, and its segments: each a mark and the
run after it. -/
def segments : List α → List α × List (α × List α)
  | [] => ([], [])
  | c :: rest =>
    let (run, later) := segments rest
    if marks c then ([], (c, run) :: later) else (c :: run, later)

def join (run : List α) (later : List (α × List α)) : List α :=
  run ++ later.flatMap fun segment => segment.1 :: segment.2

/-- Marks start segments and occur nowhere else. -/
structure Marked (run : List α) (later : List (α × List α)) : Prop where
  run : ∀ c ∈ run, marks c = false
  starts : ∀ segment ∈ later, marks segment.1 = true
  bodies : ∀ segment ∈ later, ∀ c ∈ segment.2, marks c = false

theorem segments_mark {c : α} (hc : marks c = true) (rest : List α) :
    segments marks (c :: rest) = ([], (c, (segments marks rest).1) :: (segments marks rest).2) := by
  rw [segments]
  exact if_pos hc

theorem segments_plain {c : α} (hc : marks c = false) (rest : List α) :
    segments marks (c :: rest) = (c :: (segments marks rest).1, (segments marks rest).2) := by
  rw [segments]
  exact if_neg (by simp [hc])

theorem join_segments (text : List α) :
    join (segments marks text).1 (segments marks text).2 = text := by
  induction text with
  | nil => rfl
  | cons c rest ih =>
    cases hc : marks c with
    | true =>
      rw [segments_mark marks hc]
      exact congrArg (c :: ·) ih
    | false =>
      rw [segments_plain marks hc]
      exact congrArg (c :: ·) ih

theorem segments_marked (text : List α) :
    Marked marks (segments marks text).1 (segments marks text).2 := by
  induction text with
  | nil =>
    exact ⟨fun _ h => absurd h List.not_mem_nil, fun _ h => absurd h List.not_mem_nil,
      fun _ h => absurd h List.not_mem_nil⟩
  | cons c rest ih =>
    cases hc : marks c with
    | true =>
      rw [segments_mark marks hc]
      refine ⟨fun _ h => absurd h List.not_mem_nil, ?_, ?_⟩
      · exact List.forall_mem_cons.mpr ⟨hc, ih.starts⟩
      · exact List.forall_mem_cons.mpr ⟨ih.run, ih.bodies⟩
    | false =>
      rw [segments_plain marks hc]
      exact ⟨List.forall_mem_cons.mpr ⟨hc, ih.run⟩, ih.starts, ih.bodies⟩

variable {marks}

theorem segments_run {run : List α} (h : ∀ c ∈ run, marks c = false) (rest : List α) :
    segments marks (run ++ rest) =
      (run ++ (segments marks rest).1, (segments marks rest).2) := by
  induction run with
  | nil => rfl
  | cons c run ih =>
    rw [List.forall_mem_cons] at h
    rw [List.cons_append, segments_plain marks h.1, ih h.2]
    rfl

/-- Segments come apart again where they were joined. -/
theorem segments_join {run : List α} {later : List (α × List α)} (h : Marked marks run later) :
    segments marks (join run later) = (run, later) := by
  rw [join, segments_run h.run]
  have hlater : segments marks (later.flatMap fun segment => segment.1 :: segment.2) =
      ([], later) := by
    obtain ⟨_, hstarts, hbodies⟩ := h
    induction later with
    | nil => rfl
    | cons segment later ih =>
      rw [List.forall_mem_cons] at hstarts hbodies
      rw [List.flatMap_cons, List.cons_append, segments_mark marks hstarts.1,
        segments_run hbodies.1, ih hstarts.2 hbodies.2, List.append_nil]
  rw [hlater, List.append_nil]

theorem segments_eq_iff {text run : List α} {later : List (α × List α)} :
    segments marks text = (run, later) ↔ text = join run later ∧ Marked marks run later := by
  constructor
  · intro h
    have hjoin := join_segments marks text
    have hmarked := segments_marked marks text
    rw [h] at hjoin hmarked
    exact ⟨hjoin.symm, hmarked⟩
  · rintro ⟨rfl, h⟩
    exact segments_join h

end Lib.Segments
