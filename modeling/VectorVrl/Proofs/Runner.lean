import VectorVrl.Proofs.JsonFuel
import VectorVrl.Proofs.Output

namespace VectorVrl.Proofs.Runner
open Lib.Lines PyJson JsonQuotes JsonFuel Output

/-- A text ends its first line at its first break. -/
theorem split_at_break {before : List Char} {c : Char} (rest : List Char)
    (h : ∀ d ∈ before, isLineBreak d = false) (hc : isLineBreak c = true) (hreturn : c ≠ '\r') :
    splitLines (before ++ c :: rest) = before :: splitLines rest := by
  rw [splitLines, split_from_unbroken h, List.nil_append,
    split_from_char before fun hcrlf => hreturn hcrlf.1, if_pos hc]
  rfl

/-- The first entry of a list that has a property, if any has. -/
theorem first_such {α : Type} {p : α → Prop} {l : List α} (h : ∃ a ∈ l, p a) :
    ∃ before a after, l = before ++ a :: after ∧ p a ∧ ∀ b ∈ before, ¬p b := by
  induction l with
  | nil => simp at h
  | cons b l ih =>
    by_cases hb : p b
    · exact ⟨[], b, l, rfl, hb, by simp⟩
    · rw [List.exists_mem_cons_iff] at h
      obtain ⟨before, a, after, rfl, ha, hbefore⟩ := ih (h.resolve_left hb)
      refine ⟨b :: before, a, after, rfl, ha, ?_⟩
      rw [List.forall_mem_cons]
      exact ⟨hb, hbefore⟩

theorem newlines_kept {text : List Char} (h : '\r' ∉ text) : universalNewlines text = text := by
  induction text with
  | nil => rfl
  | cons c rest ih =>
    rw [List.mem_cons, not_or] at h
    rw [universalNewlines, if_neg (Ne.symm h.1), ih h.2]

theorem strip_ne {c : Char} (h : pyIsSpace c = false) (rest : List Char) :
    strip (c :: rest) ≠ [] := by
  rw [strip, List.dropWhile_cons_of_neg (by simp [h]), List.reverse_cons]
  intro hnil
  rw [List.reverse_eq_nil_iff, List.dropWhile_eq_nil_iff] at hnil
  have hspace := hnil c (by simp)
  rw [h] at hspace
  cases hspace

section
variable [PyFloat]

/-- A line that is read adds its value to the results. -/
theorem decode_all {lines : List (List Char)} {values : List PyVal}
    (h : List.Forall₂ (fun line v => strip line ≠ [] ∧ loads line = .ok v) lines values)
    (number : Nat) (decoded : Decoded) :
    decodeLines number decoded lines =
      .ok { decoded with results := decoded.results ++ values } := by
  induction h generalizing number decoded with
  | nil => simp [decodeLines]
  | cons hline _ ih =>
    rw [decodeLines, if_neg hline.1, hline.2]
    simp only [ih, List.append_assoc, List.singleton_append]

theorem undecodable_kept {lines : List (List Char)} {number : Nat} {decoded final : Decoded}
    (h : decodeLines number decoded lines = .ok final) (hsome : decoded.undecodable ≠ []) :
    final.undecodable ≠ [] := by
  induction lines generalizing number decoded with
  | nil =>
    cases h
    exact hsome
  | cons road more ih =>
    rw [decodeLines] at h
    split at h
    · exact ih h hsome
    split at h
    · exact ih h hsome
    · exact ih h (by simp)
    · cases h

theorem decode_fueled (number : Nat) (decoded : Decoded) (lines : List (List Char)) :
    decodeLines number decoded lines ≠ .error .outOfFuel := by
  induction lines generalizing number decoded with
  | nil => simp [decodeLines]
  | cons road more ih =>
    rw [decodeLines]
    split
    · apply ih
    split
    · apply ih
    · apply ih
    · rename_i e _ hload
      intro heq
      rw [Except.error.inj heq] at hload
      exact loads_fueled road hload

/-- A run always comes to its end. -/
theorem run_fueled (vector : VectorConfig → List Char → VectorRun)
    (transforms : List (String × Transform)) (inputLogs : List String)
    (dataDir outputFile timeout : String) :
    runRemapChain vector transforms inputLogs dataDir outputFile timeout ≠ .error .outOfFuel := by
  unfold runRemapChain
  simp only
  split
  · simp
  · simp
  · rw [ne_eq, Lib.Collect.map_error_iff]
    apply decode_fueled

/-- A line that is not JSON is reported. -/
theorem undecodable_found {lines : List (List Char)} {bad : List Char} {number : Nat}
    {decoded final : Decoded} (hmem : bad ∈ lines) (hstrip : strip bad ≠ [])
    (hbad : ∀ v, loads bad ≠ .ok v) (h : decodeLines number decoded lines = .ok final) :
    final.undecodable ≠ [] := by
  induction lines generalizing number decoded with
  | nil => cases hmem
  | cons road more ih =>
    rw [decodeLines] at h
    rcases List.mem_cons.mp hmem with rfl | hmem
    · rw [if_neg hstrip] at h
      split at h
      · rename_i v hv
        exact absurd hv (hbad v)
      · exact undecodable_kept h (by simp)
      · cases h
    · split at h
      · exact ih hmem h
      split at h
      · exact ih hmem h
      · exact ih hmem h
      · cases h

end

section
variable [FloatTexts]

theorem unbroken_iff (object : JsonObject) :
    object.Unbroken ↔ ∀ c ∈ sinkJson object.value, isLineBreak c = false := by
  constructor
  · intro h c hmem
    rw [← Bool.not_eq_true]
    intro hbreak
    obtain ⟨hraw, s, hs, hc⟩ := (mem_json hbreak object.value).mp hmem
    rw [h s hs c hc] at hraw
    cases hraw
  · intro h s hs c hc
    rw [← Bool.not_eq_true]
    intro hraw
    have hbreak := break_of_raw hraw
    have hplain := h c ((mem_json hbreak object.value).mpr ⟨hraw, s, hs, hc⟩)
    rw [hplain] at hbreak
    cases hbreak

theorem sink_no_return (objects : List JsonObject) : '\r' ∉ sinkText objects := by
  intro hmem
  obtain ⟨object, _, hmem⟩ := List.mem_flatMap.mp hmem
  rcases List.mem_append.mp hmem with hmem | hmem
  · have hraw := ((mem_json (by decide) object.value).mp hmem).1
    cases hraw
  · rw [List.mem_singleton] at hmem
    cases hmem

theorem object_line (object : JsonObject) :
    ∃ rest, sinkJson object.value = '\x7b' :: rest := ⟨_, rfl⟩

/-- Lines without breaks come apart again where they were joined. -/
theorem split_sink {objects : List JsonObject} (h : ∀ object ∈ objects, object.Unbroken)
    (rest : List Char) :
    splitLines (sinkText objects ++ rest) =
      (objects.map fun object => sinkJson object.value) ++ splitLines rest := by
  induction objects with
  | nil => rfl
  | cons object more ih =>
    rw [List.forall_mem_cons, unbroken_iff] at h
    rw [sinkText, List.flatMap_cons, List.append_assoc, List.append_assoc, List.singleton_append,
      splitLines, split_from_unbroken h.1, List.nil_append, split_from_newline]
    exact congrArg (sinkJson object.value :: ·) (ih h.2)

/-- Lines without breaks are all read, each as its object. -/
theorem unbroken_decoded {objects : List JsonObject} (h : ∀ object ∈ objects, object.Unbroken) :
    decodeLines 1 ⟨[], []⟩ (splitLines (sinkText objects)) =
      .ok ⟨objects.map fun object => pyValue object.value, []⟩ := by
  have hsplit := split_sink h []
  have hlines : List.Forall₂ (fun line v => strip line ≠ [] ∧ loads line = .ok v)
      (objects.map fun object => sinkJson object.value)
      (objects.map fun object => pyValue object.value) := by
    rw [List.forall₂_map_left_iff, List.forall₂_map_right_iff, List.forall₂_same]
    intro object _
    obtain ⟨rest, hline⟩ := object_line object
    refine ⟨?_, loads_back object⟩
    rw [hline]
    exact strip_ne (by decide) rest
  rw [List.append_nil] at hsplit
  rw [hsplit, show splitLines [] = [] from rfl, List.append_nil, decode_all hlines]
  rfl

/-- The first line of a broken object's text stops inside a string. -/
theorem broken_line {object : JsonObject} (h : ¬object.Unbroken) (rest : List Char) :
    ∃ bad more, splitLines (sinkJson object.value ++ rest) = bad :: more ∧ strip bad ≠ [] ∧
      ∀ v, loads bad ≠ .ok v := by
  have hsome : ∃ c ∈ sinkJson object.value, isLineBreak c = true := by
    rw [unbroken_iff] at h
    simpa using h
  obtain ⟨bad, c, more, htext, hc, hbad⟩ := first_such hsome
  have hraw : isRawBreak c = true := by
    refine ((mem_json hc object.value).mp ?_).1
    rw [htext]
    simp
  have hreturn : c ≠ '\r' := by
    rintro rfl
    cases hraw
  have hinside : Quote.outside.after bad = .inside := by
    have hacross := across_json object.value
    rw [htext] at hacross
    exact inside_at_break hacross hc
  refine ⟨bad, splitLines (more ++ rest), ?_, ?_, ?_⟩
  · rw [htext, List.append_assoc, List.cons_append,
      split_at_break _ (by simpa using hbad) hc hreturn]
  · obtain ⟨tail, hline⟩ := object_line object
    cases bad with
    | nil => cases hinside
    | cons d bad =>
      rw [hline, List.cons_append, List.cons.injEq] at htext
      rw [← htext.1]
      exact strip_ne (by decide) bad
  · intro v hv
    rw [loads_outside hv] at hinside
    cases hinside

/-- A line cut inside a string is reported as not JSON. -/
theorem broken_reported {objects : List JsonObject}
    (h : ∃ object ∈ objects, ¬object.Unbroken) {final : Decoded}
    (hdecoded : decodeLines 1 ⟨[], []⟩ (splitLines (sinkText objects)) = .ok final) :
    final.undecodable ≠ [] := by
  obtain ⟨before, object, after, rfl, hbroken, hbefore⟩ := first_such h
  obtain ⟨bad, more, hsplit, hstrip, hbad⟩ := broken_line hbroken ('\n' :: sinkText after)
  have htext : sinkText (before ++ object :: after) =
      sinkText before ++ (sinkJson object.value ++ '\n' :: sinkText after) := by
    simp [sinkText]
  rw [htext, split_sink (by simpa using hbefore), hsplit] at hdecoded
  exact undecodable_found (by simp) hstrip hbad hdecoded

section
variable {vector : VectorConfig → List Char → VectorRun} {transforms : List (String × Transform)}
  {inputLogs : List String} {dataDir outputFile : String} {objects : List JsonObject}
  {stderr : List Char}

/-- The sink's lines come back as the objects they were written from, with
nothing to report of them, exactly when no string in them holds a raw break. -/
theorem output_decoded_iff (timeout : String)
    (hexit : (vector (vectorConfig transforms dataDir outputFile) (stdinText inputLogs)).completed =
      .exited 0 stderr)
    (houtput : (vector (vectorConfig transforms dataDir outputFile)
      (stdinText inputLogs)).outputFile.getD [] = sinkText objects) :
    runRemapChain vector transforms inputLogs dataDir outputFile timeout =
      .ok (true, objects.map fun object => pyValue object.value,
        " | ".intercalate (problems 0 stderr [])) ↔
      ∀ object ∈ objects, object.Unbroken := by
  have hrun : runRemapChain vector transforms inputLogs dataDir outputFile timeout =
      (decodeLines 1 ⟨[], []⟩ (splitLines (sinkText objects))).map fun decoded =>
        (decide ((0 : Int) = 0) && decoded.undecodable.isEmpty, decoded.results,
          " | ".intercalate (problems 0 stderr decoded.undecodable)) := by
    simp only [runRemapChain, hexit, houtput, newlines_kept (sink_no_return objects)]
  rw [hrun]
  constructor
  · intro h
    by_contra hbroken
    simp only [not_forall, exists_prop] at hbroken
    obtain ⟨final, hfinal, heq⟩ := Lib.Collect.map_ok_iff.mp h
    have hnonempty := broken_reported hbroken hfinal
    have hok := congrArg Prod.fst heq
    simp [hnonempty] at hok
  · intro h
    rw [unbroken_decoded h]
    rfl

end

end

/-- A way to write floats that keeps the laws: their bits after a point. -/
local instance plainFloats : FloatTexts where
  parse text := ⟨BitVec.ofNat 64 (Nat.ofDigitChars 10 (text.drop 2) 0)⟩
  write f := ⟨[], ['0'], '.' :: Nat.toDigits 10 f.bits.toNat, []⟩
  wellFormed f _ := by
    refine ⟨.inl rfl, .inl rfl, .inr ⟨['.'], by simp, _, ?_, ?_, rfl⟩, .inl rfl⟩
    · exact Nat.toDigits_ne_nil
    · intro d hd
      exact Nat.isDigit_of_mem_toDigits (by decide) (by decide) hd
  marked _ _ := .inl (by simp)
  parse_write f _ := by
    simp [NumberParts.text]

/-- An object of one field. -/
def messageObject (message : String) : JsonObject :=
  ⟨⟨["message"], List.pairwise_singleton _ _⟩, fun _ => .string message⟩

/-- A line separator in a message cuts its line in two, and neither half is JSON. -/
theorem line_separator_reported :
    (runRemapChain
      (fun _ _ => ⟨.exited 0 [], some (sinkText [messageObject "a\u2028b"])⟩) [] ["a"] "" "" "10").map
        (fun r => (r.1, r.2.1.length, r.2.2)) =
          .ok (false, 0, "output lines [1, 2] are not JSON") ∧
    runRemapChain
      (fun _ _ => ⟨.exited 0 [], some (sinkText [messageObject "a\u2028b"])⟩) [] ["a"] "" "" "10" ≠
        .ok (true, [pyValue (messageObject "a\u2028b").value], "") := by
  have h : (runRemapChain
      (fun _ _ => ⟨.exited 0 [], some (sinkText [messageObject "a\u2028b"])⟩) [] ["a"] "" "" "10").map
        (fun r => (r.1, r.2.1.length, r.2.2)) =
          .ok (false, 0, "output lines [1, 2] are not JSON") := by
    decide +kernel
  refine ⟨h, ?_⟩
  intro heq
  rw [heq] at h
  cases h

/-- An object of a number, a list with a line feed in it and an object. -/
def requestObject : JsonObject :=
  ⟨⟨["code", "lines", "peer"], by decide⟩, ![.number (.negInt (-1) (by decide)),
    .array ![.string "GET /\nHost: a", .null, .number (.float ⟨0x4004000000000000⟩ rfl)],
    .object ⟨["port"], List.pairwise_singleton _ _⟩ fun _ => .number (.posInt 443)]⟩

theorem objects_decoded :
    runRemapChain
      (fun _ _ => ⟨.exited 0 [], some (sinkText [messageObject "ok", requestObject])⟩) []
        ["ok", "GET"] "" "" "10" =
        .ok (true, [pyValue (messageObject "ok").value, pyValue requestObject.value], "") := by
  change runRemapChain _ _ _ _ _ _ = .ok (true,
    [messageObject "ok", requestObject].map fun object => pyValue object.value,
    " | ".intercalate (problems 0 [] []))
  rw [output_decoded_iff "10" rfl rfl, List.forall_mem_cons, List.forall_mem_singleton]
  have hok : (messageObject "ok").value.strings = ["message", "ok"] := rfl
  have hrequest : requestObject.value.strings =
      ["code", "lines", "peer", "GET /\nHost: a", "port"] := rfl
  rw [JsonObject.Unbroken, JsonObject.Unbroken, hok, hrequest]
  simp [isRawBreak]

end VectorVrl.Proofs.Runner
