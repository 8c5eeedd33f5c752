import VectorVrl.Proofs.JsonQuotes

namespace VectorVrl.Proofs.Output
open Lib.OrderedMap Lib.Lines PyJson JsonQuotes

/-- Line breaks stand inside of strings only, with `q` at the start of the text. -/
def BreaksInside : Quote → List Char → Prop
  | _, [] => True
  | q, c :: rest => (isLineBreak c = true → q = .inside) ∧ BreaksInside (q.step c) rest

/-- From `q` to `q'` over a whole text, whose breaks stand inside of strings. -/
structure Across (q q' : Quote) (text : List Char) : Prop where
  after : q.after text = q'
  breaks : BreaksInside q text

theorem Across.nil (q : Quote) : Across q q [] := ⟨rfl, trivial⟩

theorem Across.cons {q q' : Quote} {c : Char} {text : List Char}
    (hc : isLineBreak c = true → q = .inside) (h : Across (q.step c) q' text) :
    Across q q' (c :: text) := ⟨h.after, hc, h.breaks⟩

theorem Across.step {q q' : Quote} {c : Char} {text : List Char} (hc : isLineBreak c = false)
    (h : Across (q.step c) q' text) : Across q q' (c :: text) := by
  refine .cons ?_ h
  rw [hc]
  exact fun hbreak => absurd hbreak Bool.false_ne_true

theorem Across.append {p q r : Quote} {text more : List Char} (h : Across p q text)
    (h' : Across q r more) : Across p r (text ++ more) := by
  induction text generalizing p with
  | nil =>
    obtain rfl : p = q := h.after
    exact h'
  | cons c text ih => exact .cons h.breaks.1 (ih ⟨h.after, h.breaks.2⟩)

/-- A character that neither opens a string nor breaks a line. -/
def isPlain (c : Char) : Bool := c ≠ '"' && !isLineBreak c

theorem plain_iff {c : Char} : isPlain c = true ↔ c ≠ '"' ∧ isLineBreak c = false := by
  simp [isPlain]

theorem across_plain {text : List Char} (h : text.all isPlain = true) :
    Across .outside .outside text := by
  induction text with
  | nil => exact .nil _
  | cons c rest ih =>
    rw [List.all_cons, Bool.and_eq_true, plain_iff] at h
    refine .step h.1.2 ?_
    rw [Quote.step, if_neg h.1.1]
    exact ih h.2

/-- Before the first break of a text that is across from outside, one is in a string. -/
theorem inside_at_break {q q' : Quote} {before rest : List Char} {c : Char}
    (h : Across q q' (before ++ c :: rest)) (hc : isLineBreak c = true) :
    q.after before = .inside := by
  induction before generalizing q with
  | nil => exact h.breaks.1 hc
  | cons d before ih => exact ih ⟨h.after, h.breaks.2⟩

theorem hex_padded_plain : ∀ n < 0x20,
    (hexPadded 4 n).all (fun c => isPlain c && c ≠ '\\') = true := by decide

theorem hex_padded_char {n : Nat} (h : n < 0x20) {c : Char} (hc : c ∈ hexPadded 4 n) :
    (c ≠ '"' ∧ isLineBreak c = false) ∧ c ≠ '\\' := by
  have hplain := List.all_eq_true.mp (hex_padded_plain n h) c hc
  rwa [Bool.and_eq_true, plain_iff, decide_eq_true_eq] at hplain

theorem across_inside {text : List Char}
    (h : ∀ c ∈ text, c ≠ '"' ∧ c ≠ '\\') : Across .inside .inside text := by
  induction text with
  | nil => exact .nil _
  | cons c rest ih =>
    obtain ⟨hquote, hslash⟩ := h c List.mem_cons_self
    refine .cons (fun _ => rfl) ?_
    rw [Quote.step, if_neg hquote, if_neg hslash]
    exact ih fun d hd => h d (List.mem_cons_of_mem c hd)

theorem across_short {c : Char} (h : isLineBreak c = false) : Across .inside .inside ['\\', c] :=
  .cons (fun _ => rfl) (.step h (.nil _))

theorem across_escape (c : Char) : Across .inside .inside (sinkEscape c) := by
  rcases escape_forms c with ⟨d, hform, _, _, hbreak, _⟩ | ⟨hcontrol, hform⟩ |
    ⟨hform, hquote, hslash, _⟩
  · rw [hform]
    exact across_short hbreak
  · rw [hform]
    exact (across_short (show isLineBreak 'u' = false by decide)).append (across_inside fun d hd =>
      ⟨(hex_padded_char hcontrol hd).1.1, (hex_padded_char hcontrol hd).2⟩)
  · rw [hform]
    exact across_inside (by simpa using ⟨hquote, hslash⟩)

theorem across_string (s : String) : Across .outside .outside (sinkString s) := by
  have hbody : ∀ cs : List Char, Across .inside .inside (cs.flatMap sinkEscape) := by
    intro cs
    induction cs with
    | nil => exact .nil _
    | cons c cs ih => exact (across_escape c).append ih
  refine .step rfl ((hbody s.toList).append ?_)
  exact .step rfl (.nil _)

theorem mem_commas {c : Char} (h : c ≠ ',') (texts : List (List Char)) :
    c ∈ commas texts ↔ ∃ text ∈ texts, c ∈ text := by
  induction texts with
  | nil => simp [commas]
  | cons text more ih =>
    cases more with
    | nil => simp [commas_single]
    | cons next more =>
      rw [commas_cons, List.mem_append, List.mem_cons, ih]
      simp [h]

theorem break_raw {c : Char} (h : isLineBreak c = true) (hcontrol : ¬c.toNat < 0x20) :
    isRawBreak c = true := by
  simp only [isLineBreak, Bool.or_eq_true, decide_eq_true_eq] at h
  rcases h with ((((((((rfl | rfl) | rfl) | rfl) | rfl) | rfl) | rfl) | rfl) | rfl) | rfl <;>
    first
    | rfl
    | exact absurd (by decide) hcontrol

theorem raw_not_control {c : Char} (h : isRawBreak c = true) : ¬c.toNat < 0x20 := by
  simp only [isRawBreak, Bool.or_eq_true, decide_eq_true_eq] at h
  rcases h with (rfl | rfl) | rfl <;> decide

theorem break_of_raw {c : Char} (h : isRawBreak c = true) : isLineBreak c = true := by
  simp only [isRawBreak, Bool.or_eq_true, decide_eq_true_eq] at h
  rcases h with (rfl | rfl) | rfl <;> decide

/-- A character stays as it is, or its escape has no break and it is no raw one. -/
theorem escape_cases (d : Char) :
    (sinkEscape d = [d] ∧ ¬d.toNat < 0x20) ∨
    ((sinkEscape d).any isLineBreak = false ∧ isRawBreak d = false) := by
  rcases escape_forms d with ⟨e, hform, _, _, hbreak, hraw⟩ | ⟨hcontrol, hform⟩ |
    ⟨hform, _, _, hcontrol⟩
  · refine Or.inr ⟨?_, hraw⟩
    rw [hform, List.any_cons, List.any_cons, List.any_nil, hbreak]
    rfl
  · refine Or.inr ⟨?_, ?_⟩
    · rw [hform, List.any_eq_false]
      intro c hc
      rw [Bool.not_eq_true]
      rcases List.mem_cons.mp hc with rfl | hc
      · rfl
      rcases List.mem_cons.mp hc with rfl | hc
      · rfl
      · exact (hex_padded_char hcontrol hc).1.2
    · rw [← Bool.not_eq_true]
      exact fun hraw => raw_not_control hraw hcontrol
  · exact Or.inl ⟨hform, hcontrol⟩

section
variable {c : Char}

theorem mem_escape (h : isLineBreak c = true) (d : Char) :
    c ∈ sinkEscape d ↔ isRawBreak c = true ∧ c = d := by
  rcases escape_cases d with ⟨hraw, hcontrol⟩ | ⟨hplain, hnot⟩
  · rw [hraw, List.mem_singleton]
    constructor
    · rintro rfl
      exact ⟨break_raw h hcontrol, rfl⟩
    · exact fun hsome => hsome.2
  · constructor
    · intro hmem
      exact absurd h (List.any_eq_false.mp hplain c hmem)
    · intro hsome
      obtain ⟨hbreak, rfl⟩ := hsome
      rw [hnot] at hbreak
      cases hbreak

theorem mem_string (h : isLineBreak c = true) (s : String) :
    c ∈ sinkString s ↔ isRawBreak c = true ∧ c ∈ s.toList := by
  have hquote : c ≠ '"' := by
    rintro rfl
    cases h
  simp only [sinkString, List.mem_cons, List.mem_append, List.mem_flatMap, mem_escape h, hquote,
    List.not_mem_nil, false_or, or_false]
  constructor
  · rintro ⟨d, hd, hraw, rfl⟩
    exact ⟨hraw, hd⟩
  · rintro ⟨hraw, hmem⟩
    exact ⟨c, hmem, hraw, rfl⟩

end

theorem digit_plain {c : Char} (h : c.isDigit = true) : isPlain c = true := by
  refine plain_iff.mpr ⟨digit_ne_quote h, ?_⟩
  rw [← Bool.not_eq_true]
  intro hbreak
  simp only [isLineBreak, Bool.or_eq_true, decide_eq_true_eq] at hbreak
  rcases hbreak with ((((((((rfl | rfl) | rfl) | rfl) | rfl) | rfl) | rfl) | rfl) | rfl) | rfl <;>
    cases h

theorem digits_all_plain {digits : List Char} (h : ∀ d ∈ digits, d.isDigit = true) :
    digits.all isPlain = true :=
  List.all_eq_true.mpr fun d hd => digit_plain (h d hd)

theorem marked_plain {marks : List (List Char)} {text : List Char} (h : MarkedDigits marks text)
    (hmarks : ∀ mark ∈ marks, mark.all isPlain = true) : text.all isPlain = true := by
  rcases h with rfl | ⟨mark, hmark, digits, _, hdigits, rfl⟩
  · rfl
  · rw [List.all_append, Bool.and_eq_true]
    exact ⟨hmarks mark hmark, digits_all_plain hdigits⟩

theorem number_text_plain {parts : NumberParts} (h : parts.WellFormed) :
    parts.text.all isPlain = true := by
  have hminus : parts.minus.all isPlain = true := by
    rcases h.minus with hminus | hminus <;> rw [hminus] <;> rfl
  have hdigits : parts.digits.all isPlain = true := by
    rcases h.digits with hzero | ⟨_, _, _, _, hdigits⟩
    · rw [hzero]
      rfl
    · exact digits_all_plain hdigits
  rw [NumberParts.text, List.all_append, List.all_append, List.all_append, hminus, hdigits,
    marked_plain h.fraction (by decide), marked_plain h.exponent (by decide)]
  rfl

theorem across_commas {texts : List (List Char)}
    (h : ∀ text ∈ texts, Across .outside .outside text) :
    Across .outside .outside (commas texts) := by
  induction texts with
  | nil => exact .nil _
  | cons text more ih =>
    rw [List.forall_mem_cons] at h
    cases more with
    | nil =>
      rw [commas_single]
      exact h.1
    | cons next more =>
      rw [commas_cons]
      exact h.1.append (.step rfl (ih h.2))

theorem exists_of_fn {α : Type} {n : Nat} {f : Fin n → α} {p : α → Prop} :
    (∃ a ∈ List.ofFn f, p a) ↔ ∃ i, p (f i) := by
  simp [List.mem_ofFn]

section
variable [FloatTexts]

/-- The sink's text of a value is across from outside to outside. -/
theorem across_json (j : JsonValue) : Across .outside .outside (sinkJson j) := by
  induction j with
  | null =>
    rw [sinkJson]
    exact across_plain (by decide)
  | bool b =>
    rw [sinkJson]
    cases b <;> exact across_plain (by decide)
  | number n => exact across_plain (number_text_plain (sink_number_well_formed n))
  | string s => exact across_string s
  | array items ih =>
    have hitems : Across .outside .outside (commas (List.ofFn fun i => sinkJson (items i))) := by
      apply across_commas
      intro text htext
      obtain ⟨i, rfl⟩ := List.mem_ofFn.mp htext
      exact ih i
    exact .step rfl (hitems.append (.step rfl (.nil _)))
  | object keys field ih =>
    have hfields : Across .outside .outside (commas (List.ofFn fun i =>
        sinkString (keys.name i) ++ ':' :: sinkJson (field i))) := by
      apply across_commas
      intro text htext
      obtain ⟨i, rfl⟩ := List.mem_ofFn.mp htext
      exact (across_string _).append (.step rfl (ih i))
    exact .step rfl (hfields.append (.step rfl (.nil _)))

/-- A break is in a value's text exactly when it stays raw and some string of the
value holds it. -/
theorem mem_json {c : Char} (h : isLineBreak c = true) (j : JsonValue) :
    c ∈ sinkJson j ↔ isRawBreak c = true ∧ ∃ s ∈ j.strings, c ∈ s.toList := by
  have hnot : ∀ d, isLineBreak d = false → c ≠ d := by
    rintro d hd rfl
    rw [hd] at h
    cases h
  induction j with
  | null =>
    refine iff_of_false ?_ (by simp [JsonValue.strings])
    rw [sinkJson]
    simp [hnot, isLineBreak]
  | bool b =>
    refine iff_of_false ?_ (by simp [JsonValue.strings])
    rw [sinkJson]
    cases b <;> simp [hnot, isLineBreak]
  | number n =>
    refine iff_of_false ?_ (by simp [JsonValue.strings])
    intro hmem
    have hplain := List.all_eq_true.mp (number_text_plain (sink_number_well_formed n)) c hmem
    rw [(plain_iff.mp hplain).2] at h
    cases h
  | string s =>
    rw [sinkJson, mem_string h]
    simp [JsonValue.strings]
  | array items ih =>
    have hstrings : ∀ s, s ∈ (JsonValue.array items).strings ↔ ∃ i, s ∈ (items i).strings := by
      intro s
      rw [JsonValue.strings, List.mem_flatten, exists_of_fn]
    rw [sinkJson, List.mem_cons, List.mem_append, List.mem_singleton,
      mem_commas (hnot ',' (by decide)), exists_of_fn]
    simp only [ih, hstrings, hnot '[' (by decide), hnot ']' (by decide), false_or, or_false,
      exists_and_left]
    constructor
    · rintro ⟨hraw, i, s, hs, hc⟩
      exact ⟨hraw, s, ⟨i, hs⟩, hc⟩
    · rintro ⟨hraw, s, ⟨i, hs⟩, hc⟩
      exact ⟨hraw, i, s, hs, hc⟩
  | object keys field ih =>
    have hstrings : ∀ s, s ∈ (JsonValue.object keys field).strings ↔
        ∃ i, s = keys.name i ∨ s ∈ (field i).strings := by
      intro s
      rw [JsonValue.strings, List.mem_append, List.mem_flatten, exists_of_fn, exists_or]
      refine or_congr_left ?_
      rw [List.mem_iff_get]
      exact exists_congr fun i => eq_comm
    rw [sinkJson, List.mem_cons, List.mem_append, List.mem_singleton,
      mem_commas (hnot ',' (by decide)), exists_of_fn]
    simp only [List.mem_append, List.mem_cons, mem_string h, ih, hstrings,
      hnot '\x7b' (by decide), hnot '\x7d' (by decide), hnot ':' (by decide), false_or, or_false,
      ← and_or_left, exists_and_left]
    constructor
    · rintro ⟨hraw, i, hname | ⟨s, hs, hc⟩⟩
      · exact ⟨hraw, _, ⟨i, Or.inl rfl⟩, hname⟩
      · exact ⟨hraw, s, ⟨i, Or.inr hs⟩, hc⟩
    · rintro ⟨hraw, s, ⟨i, rfl | hs⟩, hc⟩
      · exact ⟨hraw, i, Or.inl hc⟩
      · exact ⟨hraw, i, Or.inr ⟨s, hs, hc⟩⟩

end

end VectorVrl.Proofs.Output
