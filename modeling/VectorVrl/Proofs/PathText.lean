import VectorVrl.Lib.Segments
import VectorVrl.Proofs.InfiniteFloat

namespace VectorVrl.Proofs.PathText
open Lib.Segments

/-- A character that starts a segment of a path. -/
def startsSegment (c : Char) : Bool := c = '.' || c = '['

/-- A key that a path's text tells from its other segments. -/
def PlainKey (k : String) : Prop := ∀ c ∈ k.toList, startsSegment c = false

/-- How a step is written: its mark and what follows. -/
def written : Step → Char × List Char
  | .key k => ('.', k.toList)
  | .index i => ('[', Nat.toDigits 10 i ++ [']'])

def readStep (segment : Char × List Char) : Option Step :=
  if segment.1 = '.' then some (.key (String.ofList segment.2))
  else
    let i := Nat.ofDigitChars 10 segment.2.dropLast 0
    if segment = written (.index i) then some (.index i) else none

/-- The position a path's text names. -/
def readPath (text : String) : Option (List Step) :=
  match segments startsSegment text.toList with
  | ([], later) => later.mapM readStep
  | (_ :: _, _) => none

theorem read_step_iff {segment : Char × List Char} {step : Step} :
    readStep segment = some step ↔ segment = written step := by
  constructor
  · intro h
    unfold readStep at h
    split at h
    · rename_i hdot
      cases h
      rw [written, String.toList_ofList, ← hdot]
    · dsimp only at h
      split at h
      · rename_i heq
        cases h
        exact heq
      · cases h
  · rintro rfl
    cases step with
    | key k => simp [readStep, written]
    | index i =>
      have hi : Nat.ofDigitChars 10 (Nat.toDigits 10 i) 0 = i :=
        Nat.ofDigitChars_toDigits (by decide) (by decide)
      simp [readStep, written, hi]

theorem read_steps_iff {later : List (Char × List Char)} {path : List Step} :
    later.mapM readStep = some path ↔ later = path.map written := by
  induction later generalizing path with
  | nil => cases path <;> simp
  | cons segment later ih =>
    rw [List.mapM_cons, Option.bind_eq_bind, Option.bind_eq_some_iff]
    simp only [Option.bind_eq_bind, Option.bind_eq_some_iff, read_step_iff, ih]
    constructor
    · rintro ⟨step, rfl, rest, rfl, hpath⟩
      cases hpath
      rfl
    · intro h
      cases path with
      | nil => cases h
      | cons step path =>
        cases h
        exact ⟨step, rfl, path, rfl, rfl⟩

theorem path_written (path : List Step) :
    (pathText path).toList = join [] (path.map written) := by
  induction path with
  | nil => rfl
  | cons step path ih =>
    rw [pathText, String.toList_append, ih, join, join, List.nil_append, List.nil_append,
      List.map_cons, List.flatMap_cons]
    congr 1
    cases step with
    | key k =>
      have hsegment : (Step.key k).segment = "." ++ k := rfl
      simp [hsegment, written]
    | index i =>
      have hsegment : (Step.index i).segment = "[" ++ i.repr ++ "]" := rfl
      simp [hsegment, written]

theorem written_marked {path : List Step} :
    Marked startsSegment [] (path.map written) ↔ ∀ k, .key k ∈ path → PlainKey k := by
  constructor
  · intro h k hmem
    exact h.bodies _ (List.mem_map_of_mem hmem)
  · intro h
    refine ⟨fun _ hmem => absurd hmem List.not_mem_nil, ?_, ?_⟩
    · intro segment hmem
      obtain ⟨step, _, rfl⟩ := List.mem_map.mp hmem
      cases step <;> rfl
    · intro segment hmem c hc
      obtain ⟨step, hstep, rfl⟩ := List.mem_map.mp hmem
      cases step with
      | key k => exact h k hstep c hc
      | index i =>
        rcases List.mem_append.mp hc with hdigit | hclose
        · have hdigit := Nat.isDigit_of_mem_toDigits (by decide) (by decide) hdigit
          unfold startsSegment
          rw [Bool.or_eq_false_iff, decide_eq_false_iff_not, decide_eq_false_iff_not]
          constructor
          · rintro rfl
            cases hdigit
          · rintro rfl
            cases hdigit
        · rw [List.mem_singleton.mp hclose]
          rfl

/-- A text is read as a position exactly where it is the text of that position and
tells its keys apart. -/
theorem read_path_iff {text : String} {path : List Step} :
    readPath text = some path ↔ text = pathText path ∧ ∀ k, .key k ∈ path → PlainKey k := by
  rw [← String.toList_inj, path_written, ← written_marked, ← segments_eq_iff]
  unfold readPath
  cases hs : segments startsSegment text.toList with
  | mk run later =>
    cases run with
    | nil => rw [read_steps_iff, Prod.mk.injEq, and_iff_right rfl]
    | cons c run => simp

/-- The position in an error is the one it names: its text leads back to the first
offending number and to nothing else, as long as no key on the way has a mark of its own. -/
theorem error_names_position :
    (∀ j e, jsonToVrlValue j = .error e → ∃ path, j.FirstOutOfRange path e.value ∧
      ((∀ k, .key k ∈ path → PlainKey k) ↔ readPath e.path = some path)) ∧
    (∀ v text, firstInfiniteFloat v = some text → ∃ path, v.FirstInfinite path ∧
      ((∀ k, .key k ∈ path → PlainKey k) ↔ readPath text = some path)) ∧
    ∀ path path', (∀ k, .key k ∈ path → PlainKey k) → (∀ k, .key k ∈ path' → PlainKey k) →
      pathText path = pathText path' → path = path' := by
  refine ⟨?_, ?_, ?_⟩
  · intro j e h
    obtain ⟨path, hfirst, htext⟩ := RoundTrip.error_is_first h
    exact ⟨path, hfirst, by rw [read_path_iff, htext, and_iff_right rfl]⟩
  · intro v text h
    obtain ⟨path, hfirst, htext⟩ := InfiniteFloat.reports_first h
    exact ⟨path, hfirst, by rw [read_path_iff, htext, and_iff_right rfl]⟩
  · intro path path' hplain hplain' htext
    have hread := read_path_iff.mpr ⟨rfl, hplain⟩
    rw [htext, read_path_iff.mpr ⟨rfl, hplain'⟩] at hread
    exact (Option.some.inj hread).symm

example : readPath ".a[10].b" = some [.key "a", .index 10, .key "b"] := by decide

end VectorVrl.Proofs.PathText
