import VectorVrl.Proofs.JsonFuel
import VectorVrl.Proofs.Runner

namespace VectorVrl.Proofs.RunVerdict
open Lib.Lines

/-- The lines that hold something, by their numbers from `number` on. -/
def heldLines (number : Nat) (lines : List (List Char)) : List (Nat × List Char) :=
  ((lines.zipIdx number).map Prod.swap).filter fun entry => strip entry.2 ≠ []

theorem held_blank {line : List Char} (h : strip line = []) (number : Nat)
    (rest : List (List Char)) : heldLines number (line :: rest) = heldLines (number + 1) rest := by
  rw [heldLines, List.zipIdx_cons, List.map_cons]
  exact List.filter_cons_of_neg (by simp [h])

theorem held_line {line : List Char} (h : strip line ≠ []) (number : Nat)
    (rest : List (List Char)) :
    heldLines number (line :: rest) = (number, line) :: heldLines (number + 1) rest := by
  rw [heldLines, List.zipIdx_cons, List.map_cons]
  exact List.filter_cons_of_pos (by simp [h])

theorem intercalate_ne {texts : List String} (sep : String) (hne : texts ≠ [])
    (htexts : ∀ text ∈ texts, text ≠ "") : sep.intercalate texts ≠ "" := by
  obtain ⟨text, rest, rfl⟩ := List.exists_cons_of_ne_nil hne
  rw [List.forall_mem_cons] at htexts
  cases rest with
  | nil =>
    rw [String.intercalate_singleton]
    exact htexts.1
  | cons next rest =>
    rw [String.intercalate_cons_cons]
    simp [htexts.1]

theorem problems_text (returncode : Int) (stderr : List Char) (undecodable : List Nat) :
    ∀ text ∈ problems returncode stderr undecodable, text ≠ "" := by
  intro text hmem
  simp only [problems, List.mem_append, List.mem_ite_nil_right, List.mem_singleton] at hmem
  have hexited : toString "Vector exited " ≠ "" := by decide
  have hlines : toString "output lines " ≠ "" := by decide
  rcases hmem with (⟨_, rfl⟩ | ⟨_, rfl⟩) | ⟨hstderr, rfl⟩
  · simp [hexited]
  · simp [hlines]
  · rw [Ne, String.ofList_eq_empty_iff, List.take_eq_nil_iff]
    simp [hstderr]

theorem problems_nil_iff {returncode : Int} {stderr : List Char} {undecodable : List Nat} :
    problems returncode stderr undecodable = [] ↔
      returncode = 0 ∧ undecodable = [] ∧ strip stderr = [] := by
  simp only [problems, List.append_eq_nil_iff, ite_eq_right_iff, List.cons_ne_self, imp_false]
  tauto

theorem message_empty_iff {returncode : Int} {stderr : List Char} {undecodable : List Nat} :
    " | ".intercalate (problems returncode stderr undecodable) = "" ↔
      returncode = 0 ∧ undecodable = [] ∧ strip stderr = [] := by
  rw [← problems_nil_iff]
  constructor
  · intro hempty
    by_contra hne
    exact intercalate_ne _ hne (problems_text _ _ _) hempty
  · intro hnil
    rw [hnil, String.intercalate_nil]

section
variable [PyFloat]

/-- What a line is read as. -/
def lineValue (entry : Nat × List Char) : Option PyVal := (loads entry.2).toOption

/-- The numbers of the lines that are not read. -/
def unread (held : List (Nat × List Char)) : List Nat :=
  (held.filter fun entry => (lineValue entry).isNone).map Prod.fst

/-- What the loop leaves: the lines read in order and the numbers of the others, unless
a line ends it by an error of another kind. -/
theorem decode_ok_iff {lines : List (List Char)} {number : Nat} {decoded final : Decoded} :
    decodeLines number decoded lines = .ok final ↔
      (∀ entry ∈ heldLines number lines, ∀ e, loads entry.2 = .error e → e = .jsonDecodeError) ∧
      final.results = decoded.results ++ (heldLines number lines).filterMap lineValue ∧
      final.undecodable = decoded.undecodable ++ unread (heldLines number lines) := by
  induction lines generalizing number decoded with
  | nil =>
    obtain ⟨results, undecodable⟩ := decoded
    obtain ⟨results', undecodable'⟩ := final
    have hheld : heldLines number [] = [] := rfl
    rw [decodeLines, hheld, Except.ok.injEq, Decoded.mk.injEq, eq_comm,
      eq_comm (a := undecodable)]
    simp [unread]
  | cons line rest ih =>
    rw [decodeLines]
    by_cases hstrip : strip line = []
    · rw [if_pos hstrip, held_blank hstrip]
      exact ih
    · rw [if_neg hstrip, held_line hstrip, List.forall_mem_cons]
      cases hline : loads line with
      | ok value =>
        have hvalue : lineValue (number, line) = some value := by
          rw [lineValue, hline]
          rfl
        simp [ih, unread, hvalue, List.append_assoc]
      | error e =>
        have hnone : lineValue (number, line) = none := by
          rw [lineValue, hline]
          rfl
        cases e with
        | jsonDecodeError => simp [ih, unread, hnone, List.append_assoc]
        | _ => simp

/-- An error that ends the loop is the one of some line. -/
theorem decode_error {lines : List (List Char)} {number : Nat} {decoded : Decoded} {e : LoadError}
    (h : decodeLines number decoded lines = .error e) :
    e ≠ .jsonDecodeError ∧ ∃ entry ∈ heldLines number lines, loads entry.2 = .error e := by
  induction lines generalizing number decoded with
  | nil => cases h
  | cons line rest ih =>
    rw [decodeLines] at h
    by_cases hstrip : strip line = []
    · rw [if_pos hstrip] at h
      rw [held_blank hstrip]
      exact ih h
    · rw [if_neg hstrip] at h
      rw [held_line hstrip, List.exists_mem_cons_iff]
      cases hline : loads line with
      | ok value =>
        rw [hline] at h
        obtain ⟨hother, hfound⟩ := ih h
        exact ⟨hother, Or.inr hfound⟩
      | error e' =>
        rw [hline] at h
        cases e' with
        | jsonDecodeError =>
          obtain ⟨hother, hfound⟩ := ih h
          exact ⟨hother, Or.inr hfound⟩
        | _ =>
          cases h
          exact ⟨by simp, Or.inl rfl⟩

theorem unread_nil_iff {held : List (Nat × List Char)} :
    unread held = [] ↔ ∀ entry ∈ held, ∃ v, loads entry.2 = .ok v := by
  rw [unread, List.map_eq_nil_iff, List.filter_eq_nil_iff]
  refine forall₂_congr fun entry _ => ?_
  rw [lineValue]
  cases loads entry.2 <;> simp [Except.toOption]

/-- What a run of Vector is reported as, its output without lone surrogates: success is an exit 0
with every line read, the results are the lines read in order, a failure always says something,
and only an integer of too many digits is raised. -/
theorem run_verdict (vector : VectorConfig → List Char → VectorRun)
    (transforms : List (String × Transform)) (inputLogs : List String)
    (dataDir outputFile timeout : String) :
    let run := vector (vectorConfig transforms dataDir outputFile) (stdinText inputLogs)
    let held := heldLines 1 (splitLines (universalNewlines (run.outputFile.getD [])))
    (∀ entry ∈ held, loads entry.2 ≠ .error .surrogate) →
    (∀ success results message,
      runRemapChain vector transforms inputLogs dataDir outputFile timeout =
          .ok (success, results, message) →
        (success = true ↔ (∃ stderr, run.completed = .exited 0 stderr) ∧
          ∀ entry ∈ held, ∃ v, loads entry.2 = .ok v) ∧
        (∀ returncode stderr, run.completed = .exited returncode stderr →
          results = held.filterMap lineValue ∧
          message = " | ".intercalate (problems returncode stderr (unread held))) ∧
        ((∀ returncode stderr, run.completed ≠ .exited returncode stderr) → results = []) ∧
        (message = "" ↔ success = true ∧
          ∃ stderr, run.completed = .exited 0 stderr ∧ strip stderr = [])) ∧
    ∀ e, runRemapChain vector transforms inputLogs dataDir outputFile timeout = .error e →
      e = .tooManyDigits ∧ ∃ entry ∈ held, loads entry.2 = .error .tooManyDigits := by
  intro run held hpaired
  have hrun : vector (vectorConfig transforms dataDir outputFile) (stdinText inputLogs) = run := rfl
  simp only [runRemapChain, hrun]
  cases hcompleted : run.completed with
  | timeoutExpired =>
    refine ⟨?_, fun _ h => (by cases h)⟩
    rintro success results message ⟨⟩
    have hfinish : toString "Vector did not finish within " ≠ "" := by decide
    simp [hfinish]
  | osError error =>
    refine ⟨?_, fun _ h => (by cases h)⟩
    rintro success results message ⟨⟩
    have herror : toString "Vector execution error: " ≠ "" := by decide
    simp [herror]
  | exited returncode stderr =>
    simp only
    cases hdecoded : decodeLines 1 ⟨[], []⟩
        (splitLines (universalNewlines (run.outputFile.getD []))) with
    | error e =>
      refine ⟨fun _ _ _ h => (by cases h), ?_⟩
      rintro e' ⟨⟩
      obtain ⟨hother, entry, hentry, herror⟩ := decode_error hdecoded
      have hdigits : e = .tooManyDigits := by
        cases e with
        | jsonDecodeError => exact absurd rfl hother
        | tooManyDigits => rfl
        | surrogate => exact absurd herror (hpaired entry hentry)
        | outOfFuel => exact absurd herror (JsonFuel.loads_fueled entry.2)
      exact ⟨hdigits, entry, hentry, hdigits ▸ herror⟩
    | ok final =>
      obtain ⟨_, hresults, hundecodable⟩ := decode_ok_iff.mp hdecoded
      rw [List.nil_append] at hresults hundecodable
      refine ⟨?_, fun _ h => (by cases h)⟩
      rintro success results message ⟨⟩
      have hsuccess : (returncode = 0 && final.undecodable.isEmpty) = true ↔
          returncode = 0 ∧ ∀ entry ∈ held, ∃ v, loads entry.2 = .ok v := by
        rw [Bool.and_eq_true, decide_eq_true_eq, List.isEmpty_iff, hundecodable, unread_nil_iff]
      refine ⟨?_, ?_, ?_, ?_⟩
      · rw [hsuccess]
        simp
      · rintro returncode' stderr' ⟨⟩
        rw [hresults, hundecodable]
        exact ⟨rfl, rfl⟩
      · exact fun hnot => absurd rfl (hnot returncode stderr)
      · rw [message_empty_iff, hundecodable, unread_nil_iff, ← hundecodable, hsuccess]
        simp only [Completed.exited.injEq, existsAndEq]
        tauto

end

section
local instance : PyFloat := ⟨fun _ => ⟨0⟩⟩

/-- An output of three lines, one blank and one cut short, and a word on stderr. -/
def cutShort (_ : VectorConfig) (_ : List Char) : VectorRun :=
  ⟨.exited 0 ['w'], some "[1]\n\n\x7b\"a\"".toList⟩

def cutLines : List (Nat × List Char) := [(1, "[1]".toList), (3, "\x7b\"a\"".toList)]

theorem cut_lines :
    heldLines 1 (splitLines (universalNewlines "[1]\n\n\x7b\"a\"".toList)) = cutLines := by
  decide +kernel

theorem cut_short_verdict :
    (∀ success results message,
      runRemapChain cutShort [] ["a", "b"] "" "" "10" = .ok (success, results, message) →
        (success = true ↔ (∃ stderr, Completed.exited 0 ['w'] = .exited 0 stderr) ∧
          ∀ entry ∈ cutLines, ∃ v, loads entry.2 = .ok v) ∧
        (∀ returncode stderr, Completed.exited 0 ['w'] = .exited returncode stderr →
          results = cutLines.filterMap lineValue ∧
          message = " | ".intercalate (problems returncode stderr (unread cutLines))) ∧
        ((∀ returncode stderr, Completed.exited 0 ['w'] ≠ .exited returncode stderr) →
          results = []) ∧
        (message = "" ↔ success = true ∧
          ∃ stderr, Completed.exited 0 ['w'] = .exited 0 stderr ∧ strip stderr = [])) ∧
    ∀ e, runRemapChain cutShort [] ["a", "b"] "" "" "10" = .error e →
      e = .tooManyDigits ∧ ∃ entry ∈ cutLines, loads entry.2 = .error .tooManyDigits := by
  have hlines : ∀ entry ∈ cutLines, loads entry.2 ≠ .error .surrogate := by
    rw [cutLines, List.forall_mem_cons, List.forall_mem_singleton]
    constructor
    · intro h
      cases h
    · intro h
      cases h
  rw [← cut_lines] at hlines ⊢
  exact run_verdict cutShort [] ["a", "b"] "" "" "10" hlines

end

end VectorVrl.Proofs.RunVerdict
