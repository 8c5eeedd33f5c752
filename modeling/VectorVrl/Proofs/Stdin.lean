import VectorVrl.Runner

namespace VectorVrl.Proofs.Stdin
open Lib.Framing

theorem stdin_frame (inputLogs : List String) :
    stdinText inputLogs = frame '\n' (inputLogs.map String.toList) := by
  rw [stdinText, frame, List.flatMap_map]

theorem texts_eq_iff {pieces : List (List Char)} {texts : List String} :
    pieces.map String.ofList = texts ↔ pieces = texts.map String.toList := by
  constructor
  · rintro rfl
    simp
  · rintro rfl
    simp

/-- Vector reads one line more for each newline inside a log. -/
theorem lines_read_length (inputLogs : List String) :
    (linesRead (stdinText inputLogs)).length =
      inputLogs.length + (inputLogs.map fun log => log.toList.count '\n').sum := by
  rw [linesRead, List.length_map, stdin_frame, unframe_length, List.length_map, List.map_map]
  rfl

/-- The logs come back from stdin as they were, and as many, exactly when none
of them holds a newline. -/
theorem stdin_lossless_iff (inputLogs : List String) :
    (linesRead (stdinText inputLogs) = inputLogs ∧
      (linesRead (stdinText inputLogs)).length = inputLogs.length) ↔
      ∀ log ∈ inputLogs, '\n' ∉ log.toList := by
  have hframe : (∀ part ∈ inputLogs.map String.toList, '\n' ∉ part) ↔
      ∀ log ∈ inputLogs, '\n' ∉ log.toList := by simp
  rw [← hframe, linesRead, texts_eq_iff, List.length_map, stdin_frame, unframe_eq_iff]
  constructor
  · exact fun h => h.1
  · intro h
    exact ⟨h, by rw [(unframe_length_iff '\n' _).mpr h, List.length_map]⟩

/-- A log of two lines is read as two events. -/
theorem stack_trace_split :
    linesRead (stdinText ["panic\n  at main"]) = ["panic", "  at main"] ∧
    linesRead (stdinText ["panic\n  at main"]) ≠ ["panic\n  at main"] ∧
    (linesRead (stdinText ["panic\n  at main"])).length ≠ ["panic\n  at main"].length := by
  decide

end VectorVrl.Proofs.Stdin
