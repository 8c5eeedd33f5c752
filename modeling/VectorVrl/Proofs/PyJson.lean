import Mathlib.Data.List.TakeDrop
import VectorVrl.Sink

namespace VectorVrl.Proofs.PyJson
open Lib.Lines Lib.OrderedDict Lib.OrderedMap

/-- A text does not start with such a character. -/
def HeadNot (p : Char → Bool) (text : List Char) : Prop :=
  ∀ c, text.head? = some c → p c = false

theorem head_not_cons {p : Char → Bool} {c : Char} (h : p c = false) (rest : List Char) :
    HeadNot p (c :: rest) := by
  intro d hd
  cases hd
  exact h

theorem head_not_nil (p : Char → Bool) : HeadNot p [] := by
  intro d hd
  cases hd

theorem span_run {p : Char → Bool} {run rest : List Char} (h : ∀ c ∈ run, p c = true)
    (hrest : HeadNot p rest) : (run ++ rest).span p = (run, rest) := by
  rw [List.span_eq_takeWhile_dropWhile, List.takeWhile_append_of_pos h,
    List.dropWhile_append_of_pos h]
  cases rest with
  | nil => simp
  | cons c rest =>
    have hc := hrest c rfl
    simp [hc]

/-- A number ends where neither digits nor a mark go on. -/
def endsNumber (c : Char) : Bool := c.isDigit || c = '.' || c = 'e' || c = 'E'

theorem ends_digit {rest : List Char} (h : HeadNot endsNumber rest) :
    HeadNot Char.isDigit rest := by
  intro c hc
  have hends := h c hc
  simp only [endsNumber, Bool.or_eq_false_iff] at hends
  exact hends.1.1.1

theorem marked_head {p : Char → Bool} {marks : List (List Char)} {text rest : List Char}
    (h : MarkedDigits marks text) (hrest : HeadNot p rest)
    (hmarks : ∀ mark ∈ marks, mark.head?.any (fun c => !p c) = true) :
    HeadNot p (text ++ rest) := by
  rcases h with rfl | ⟨mark, hmark, digits, _, _, rfl⟩
  · exact hrest
  · obtain ⟨c, hhead, hc⟩ := (Option.any_eq_true _ _).mp (hmarks mark hmark)
    intro d hd
    rw [List.append_assoc, List.head?_append, hhead] at hd
    cases hd
    simpa using hc

theorem match_digits_run {digits rest : List Char} (h : DigitRun digits)
    (hrest : HeadNot Char.isDigit rest) : matchDigits (digits ++ rest) = some (digits, rest) := by
  rcases h with rfl | ⟨c, more, rfl, hzero, hdigits⟩
  · rfl
  · have hspan := span_run hdigits hrest
    rw [List.cons_append] at hspan ⊢
    rw [matchDigits, if_neg hzero, if_pos (hdigits c List.mem_cons_self), hspan]

theorem match_fraction {fraction rest : List Char} (h : MarkedDigits [['.']] fraction)
    (hdot : HeadNot (· = '.') rest) (hrest : HeadNot Char.isDigit rest) :
    matchFraction (fraction ++ rest) = (fraction, rest) := by
  rcases h with rfl | ⟨mark, hmark, digits, hne, hdigits, rfl⟩
  · cases rest with
    | nil => rfl
    | cons c rest =>
      have hc := hdot c rfl
      simp only [decide_eq_false_iff_not] at hc
      simp [matchFraction, hc]
  · rw [List.mem_singleton] at hmark
    subst hmark
    have hspan := span_run hdigits hrest
    simp [matchFraction, hspan, hne, -List.span_eq_takeWhile_dropWhile]

theorem match_sign {digits : List Char} (hne : digits ≠ [])
    (hdigits : ∀ d ∈ digits, d.isDigit = true) (rest : List Char) :
    matchSign (digits ++ rest) = ([], digits ++ rest) := by
  obtain ⟨c, more, rfl⟩ := List.exists_cons_of_ne_nil hne
  have hc := hdigits c List.mem_cons_self
  have hplus : c ≠ '+' := by
    rintro rfl
    cases hc
  have hminus : c ≠ '-' := by
    rintro rfl
    cases hc
  simp [matchSign, hplus, hminus]

theorem match_exponent {exponent rest : List Char}
    (h : MarkedDigits [['e'], ['e', '-'], ['e', '+']] exponent)
    (hrest : HeadNot endsNumber rest) : matchExponent (exponent ++ rest) = (exponent, rest) := by
  rcases h with rfl | ⟨mark, hmark, digits, hne, hdigits, rfl⟩
  · cases rest with
    | nil => rfl
    | cons c rest =>
      have hc := hrest c rfl
      simp only [endsNumber, Bool.or_eq_false_iff, decide_eq_false_iff_not] at hc
      simp [matchExponent, hc.1.2, hc.2]
  · have hspan := span_run hdigits (ends_digit hrest)
    simp only [List.mem_cons, List.not_mem_nil, or_false] at hmark
    rcases hmark with rfl | rfl | rfl
    · simp [matchExponent, match_sign hne hdigits, hspan, hne, -List.span_eq_takeWhile_dropWhile]
    · simp [matchExponent, matchSign, hspan, hne, -List.span_eq_takeWhile_dropWhile]
    · simp [matchExponent, matchSign, hspan, hne, -List.span_eq_takeWhile_dropWhile]

theorem match_minus {minus digits : List Char} (h : minus = [] ∨ minus = ['-'])
    (hdigits : DigitRun digits) (rest : List Char) :
    matchMinus (minus ++ (digits ++ rest)) = (minus, digits ++ rest) := by
  rcases h with rfl | rfl
  · rcases hdigits with rfl | ⟨c, more, rfl, _, hall⟩
    · rfl
    · have hc : c ≠ '-' := by
        rintro rfl
        cases hall '-' List.mem_cons_self
      simp [matchMinus, hc]
  · rfl

/-- A well-formed number is read up to its end. -/
theorem match_number {parts : NumberParts} (h : parts.WellFormed) {rest : List Char}
    (hrest : HeadNot endsNumber rest) : matchNumber (parts.text ++ rest) = some (parts, rest) := by
  have hdot : HeadNot (· = '.') rest := by
    intro c hc
    have hends := hrest c hc
    simp only [endsNumber, Bool.or_eq_false_iff] at hends
    exact hends.1.1.2
  have hexponentDot : HeadNot (· = '.') (parts.exponent ++ rest) :=
    marked_head h.exponent hdot (by decide)
  have hexponentDigit : HeadNot Char.isDigit (parts.exponent ++ rest) :=
    marked_head h.exponent (ends_digit hrest) (by decide)
  have hfractionDigit : HeadNot Char.isDigit (parts.fraction ++ (parts.exponent ++ rest)) :=
    marked_head h.fraction hexponentDigit (by decide)
  have htext : parts.text ++ rest =
      parts.minus ++ (parts.digits ++ (parts.fraction ++ (parts.exponent ++ rest))) := by
    simp [NumberParts.text]
  rw [htext, matchNumber, match_minus h.minus h.digits]
  simp only [match_digits_run h.digits hfractionDigit, Option.map_some,
    match_fraction h.fraction hexponentDot hexponentDigit, match_exponent h.exponent hrest]

theorem hex_four_append {digits rest : List Char} {n : Nat}
    (h : hexFour digits = some (n, [])) : hexFour (digits ++ rest) = some (n, rest) := by
  match digits, h with
  | a :: b :: c :: d :: more, h =>
    simp only [hexFour, Option.bind_eq_bind, Option.bind_eq_some_iff, Option.pure_def,
      Option.some.injEq, Prod.mk.injEq] at h
    obtain ⟨a', ha, b', hb, c', hc, d', hd, hn, rfl⟩ := h
    simp [hexFour, ha, hb, hc, hd, hn]

theorem hex_padded_read : ∀ n < 0x20, hexFour (hexPadded 4 n) = some (n, []) := by decide

theorem control_escape {c : Char} (h : c.toNat < 0x20) (rest : List Char) :
    readEscape ('u' :: (hexPadded 4 c.toNat ++ rest)) = .ok (c, rest) := by
  have hlow : isLowSurrogate c.toNat = false := by
    simp only [isLowSurrogate, Bool.and_eq_false_iff, decide_eq_false_iff_not]
    omega
  have hhigh : isHighSurrogate c.toNat = false := by
    simp only [isHighSurrogate, Bool.and_eq_false_iff, decide_eq_false_iff_not]
    omega
  simp [readEscape, hex_four_append (hex_padded_read _ h), unicodeEscape, hlow, hhigh]

/-- The ways a character is written: after a backslash as a short escape, as a
`\u` escape, or as it is. -/
theorem escape_forms (c : Char) :
    (∃ d, sinkEscape c = ['\\', d] ∧ d ≠ 'u' ∧ shortEscape d = some c ∧
      isLineBreak d = false ∧ isRawBreak c = false) ∨
    (c.toNat < 0x20 ∧ sinkEscape c = '\\' :: 'u' :: hexPadded 4 c.toNat) ∨
    (sinkEscape c = [c] ∧ c ≠ '"' ∧ c ≠ '\\' ∧ ¬c.toNat < 0x20) := by
  have hshort : ∀ d, d ≠ 'u' ∧ shortEscape d = some c ∧ isLineBreak d = false ∧
      isRawBreak c = false → ∃ d', ['\\', d] = ['\\', d'] ∧ d' ≠ 'u' ∧ shortEscape d' = some c ∧
        isLineBreak d' = false ∧ isRawBreak c = false := fun d hd => ⟨d, rfl, hd⟩
  unfold sinkEscape
  split
  · rename_i h
    simp only [Bool.or_eq_true, decide_eq_true_eq] at h
    rcases h with rfl | rfl <;> exact Or.inl (hshort _ (by decide))
  split
  · rename_i h
    subst h
    exact Or.inl (hshort 'b' (by decide))
  split
  · rename_i h
    subst h
    exact Or.inl (hshort 't' (by decide))
  split
  · rename_i h
    subst h
    exact Or.inl (hshort 'n' (by decide))
  split
  · rename_i h
    subst h
    exact Or.inl (hshort 'f' (by decide))
  split
  · rename_i h
    subst h
    exact Or.inl (hshort 'r' (by decide))
  split
  · rename_i h
    exact Or.inr (Or.inl ⟨h, rfl⟩)
  · rename_i hquote _ _ _ _ _ hcontrol
    simp only [Bool.or_eq_true, decide_eq_true_eq, not_or] at hquote
    exact Or.inr (Or.inr ⟨rfl, hquote.1, hquote.2, hcontrol⟩)

/-- Each character of a string comes back from its escape. -/
theorem scan_escape (fuel : Nat) (read : List Char) (c : Char) (rest : List Char) :
    scanString (fuel + 1) read (sinkEscape c ++ rest) = scanString fuel (read ++ [c]) rest := by
  rcases escape_forms c with ⟨d, hform, hu, hshort, _⟩ | ⟨hcontrol, hform⟩ |
    ⟨hform, hquote, hslash, hcontrol⟩
  · rw [hform, List.cons_append, List.cons_append, List.nil_append, scanString,
      if_neg (by decide), if_pos rfl, readEscape, if_neg hu, hshort]
  · rw [hform, List.cons_append, List.cons_append, scanString, if_neg (by decide), if_pos rfl,
      control_escape hcontrol]
  · rw [hform, List.singleton_append, scanString, if_neg hquote, if_neg hslash, if_neg hcontrol]

theorem fuel_succ {n fuel : Nat} (h : n < fuel) : ∃ less, fuel = less + 1 :=
  Nat.exists_eq_add_one_of_ne_zero (Nat.ne_of_gt (Nat.zero_lt_of_lt h))

theorem scan_string {fuel : Nat} {s : List Char} (read rest : List Char) (h : s.length < fuel) :
    scanString fuel read (s.flatMap sinkEscape ++ '"' :: rest) = .ok (read ++ s, rest) := by
  induction s generalizing fuel read with
  | nil =>
    obtain ⟨fuel, rfl⟩ := fuel_succ h
    rw [List.flatMap_nil, List.nil_append, scanString, if_pos rfl, List.append_nil]
  | cons c s ih =>
    obtain ⟨fuel, rfl⟩ := fuel_succ h
    rw [List.flatMap_cons, List.append_assoc, scan_escape, ih (read ++ [c])
      (Nat.lt_of_succ_lt_succ h), List.append_assoc, List.singleton_append]

theorem escape_ne (c : Char) : sinkEscape c ≠ [] := by
  rcases escape_forms c with ⟨d, hform, _⟩ | ⟨_, hform⟩ | ⟨hform, _⟩ <;> simp [hform]

theorem escaped_length (s : List Char) : s.length ≤ (s.flatMap sinkEscape).length := by
  induction s with
  | nil => simp
  | cons c s ih =>
    have hpos := List.length_pos_iff.mpr (escape_ne c)
    rw [List.flatMap_cons, List.length_append, List.length_cons]
    omega

theorem digits_head {n : Nat} (h : 0 < n) :
    ∃ c rest, Nat.toDigits 10 n = c :: rest ∧ c ≠ '0' := by
  induction n using Nat.strongRecOn with
  | _ n ih =>
    rw [Nat.toDigits_eq_if (by decide)]
    split
    · refine ⟨_, [], rfl, ?_⟩
      rw [ne_eq, Nat.digitChar_eq_zero]
      omega
    · obtain ⟨c, rest, hdigits, hc⟩ := ih (n / 10) (by omega) (by omega)
      rw [hdigits]
      exact ⟨c, _, rfl, hc⟩

theorem decimal_run (n : Nat) : DigitRun (Nat.toDigits 10 n) := by
  rcases Nat.eq_zero_or_pos n with rfl | hpos
  · exact Or.inl rfl
  · obtain ⟨c, rest, hdigits, hc⟩ := digits_head hpos
    refine Or.inr ⟨c, rest, hdigits, hc, ?_⟩
    intro d hd
    exact Nat.isDigit_of_mem_toDigits (by decide) (by decide) hd

theorem run_head {digits : List Char} (h : DigitRun digits) :
    ∃ c rest, digits = c :: rest ∧ c.isDigit = true := by
  rcases h with rfl | ⟨c, rest, rfl, _, hall⟩
  · exact ⟨'0', [], rfl, by decide⟩
  · exact ⟨c, rest, rfl, hall c List.mem_cons_self⟩

/-- A number starts with a digit, or with a minus and a digit. -/
theorem number_head {parts : NumberParts} (h : parts.WellFormed) :
    ∃ c rest, c.isDigit = true ∧ (parts.text = c :: rest ∨ parts.text = '-' :: c :: rest) := by
  obtain ⟨c, rest, hdigits, hc⟩ := run_head h.digits
  refine ⟨c, rest ++ parts.fraction ++ parts.exponent, hc, ?_⟩
  rcases h.minus with hminus | hminus
  · left
    simp [NumberParts.text, hminus, hdigits]
  · right
    simp [NumberParts.text, hminus, hdigits]

theorem decimal_short {n : Nat} (h : n < 2 ^ 64) : (Nat.toDigits 10 n).length ≤ maxIntDigits := by
  have hle : (Nat.toDigits 10 n).length ≤ 20 :=
    (Nat.length_toDigits_le_iff (by decide) (by decide)).mpr (Nat.lt_trans h (by decide))
  exact Nat.le_trans hle (by decide)

theorem number_not_constant {text : List Char} {c : Char} (hc : c.isDigit = true)
    (h : ∃ rest, text = c :: rest ∨ text = '-' :: c :: rest) :
    (constants.find? fun entry => entry.1.toList <+: text) = none := by
  have hdigit : ∀ d, d.isDigit = false → d ≠ c := by
    rintro d hd rfl
    rw [hc] at hd
    cases hd
  obtain ⟨rest, rfl | rfl⟩ := h
  · simp [constants, hdigit]
  · simp [constants, hdigit]

theorem skip_none {c : Char} (h : isJsonSpace c = false) (rest : List Char) :
    skipSpace (c :: rest) = c :: rest := by
  rw [skipSpace, List.dropWhile_cons_of_neg (by simp [h])]

theorem commas_cons (text next : List Char) (more : List (List Char)) :
    commas (text :: next :: more) = text ++ ',' :: commas (next :: more) := by
  simp [commas, List.intercalate]

theorem commas_single (text : List Char) : commas [text] = text := by
  simp [commas, List.intercalate]

/-- What follows the first of several texts. -/
theorem commas_first (text : List Char) (more : List (List Char)) :
    ∃ rest, commas (text :: more) = text ++ rest := by
  cases more with
  | nil => exact ⟨[], by rw [commas_single, List.append_nil]⟩
  | cons next more => exact ⟨_, commas_cons text next more⟩

theorem skip_commas {text : List Char} {c : Char} {rest : List Char} (htext : text = c :: rest)
    (hc : isJsonSpace c = false) (more : List (List Char)) (after : List Char) :
    skipSpace (commas (text :: more) ++ after) = commas (text :: more) ++ after := by
  obtain ⟨suffix, hfirst⟩ := commas_first text more
  rw [hfirst, htext, List.cons_append, List.cons_append, skip_none hc]

theorem of_list_items {n : Nat} (items : Fin n → PyVal) :
    PyVal.ofList (List.ofFn items) = .list items :=
  congrArg (fun p : (n : Nat) × (Fin n → PyVal) => PyVal.list p.2)
    (List.equivSigmaTuple.right_inv ⟨n, items⟩)

theorem dict_ext {keys names : List String} (hkeys : keys.Nodup) (hnames : names.Nodup)
    {f : Fin keys.length → PyVal} {g : Fin names.length → PyVal} (h : keys = names)
    (hf : ∀ i j, i.val = j.val → f i = g j) :
    PyVal.dict keys hkeys f = .dict names hnames g := by
  subst h
  congr
  funext i
  exact hf i i rfl

theorem of_dict_fields {names : List String} (distinct : names.Nodup)
    (value : Fin names.length → PyVal) {d : Dict String PyVal}
    (h : d.items = List.ofFn fun i => (names.get i, value i)) :
    PyVal.ofDict d = .dict names distinct value := by
  apply dict_ext
  · rw [h, List.map_ofFn]
    exact List.ofFn_get names
  · intro i j hij
    simp only [List.get_eq_getElem, List.getElem_of_eq h, List.getElem_ofFn, Fin.val_cast]
    exact congrArg value (Fin.ext hij)

section
variable [PyFloat]

theorem scan_items_last {fuel : Nat} {text after : List Char} {item : PyVal} (read : List PyVal)
    (h : scanOnce fuel text = .ok (item, ']' :: after)) :
    scanItems (fuel + 1) read text = .ok (.ofList (read ++ [item]), after) := by
  simp only [scanItems, h, skip_none (show isJsonSpace ']' = false by decide)]
  rfl

theorem scan_items_next {fuel : Nat} {text after : List Char} {item : PyVal} (read : List PyVal)
    (h : scanOnce fuel text = .ok (item, ',' :: after)) :
    scanItems (fuel + 1) read text = scanItems fuel (read ++ [item]) (skipSpace after) := by
  simp only [scanItems, h, skip_none (show isJsonSpace ',' = false by decide)]
  rfl

theorem scan_members_last {fuel : Nat} {text rest after name : List Char} {value : PyVal}
    (read : Dict String PyVal) (hname : scanString fuel [] text = .ok (name, ':' :: rest))
    (hvalue : scanOnce fuel (skipSpace rest) = .ok (value, '\x7d' :: after)) :
    scanMembers (fuel + 1) read ('"' :: text) =
      .ok (.ofDict (read.set (String.ofList name) value), after) := by
  simp only [scanMembers, hname, hvalue, skip_none (show isJsonSpace ':' = false by decide),
    skip_none (show isJsonSpace '\x7d' = false by decide)]
  rfl

theorem scan_members_next {fuel : Nat} {text rest after name : List Char} {value : PyVal}
    (read : Dict String PyVal) (hname : scanString fuel [] text = .ok (name, ':' :: rest))
    (hvalue : scanOnce fuel (skipSpace rest) = .ok (value, ',' :: after)) :
    scanMembers (fuel + 1) read ('"' :: text) =
      scanMembers fuel (read.set (String.ofList name) value) (skipSpace after) := by
  simp only [scanMembers, hname, hvalue, skip_none (show isJsonSpace ':' = false by decide),
    skip_none (show isJsonSpace ',' = false by decide)]
  rfl

end

section
variable [floats : FloatTexts]

theorem sink_number_well_formed (n : Number) : (sinkNumber n).WellFormed := by
  cases n with
  | posInt n => exact ⟨Or.inl rfl, decimal_run _, Or.inl rfl, Or.inl rfl⟩
  | negInt i neg => exact ⟨Or.inr rfl, decimal_run _, Or.inl rfl, Or.inl rfl⟩
  | float f finite => exact floats.wellFormed f finite

theorem number_value (n : Number) : numberValue (sinkNumber n) = .ok (pyValue (.number n)) := by
  cases n with
  | posInt n =>
    have hshort := Nat.not_lt.mpr (decimal_short n.toNat_lt)
    simp [sinkNumber, numberValue, pyValue, hshort]
  | negInt i neg =>
    have hlt : i.toInt.natAbs < 2 ^ 64 := by
      have hle := i.le_toInt
      have hneg := Int64.lt_iff_toInt_lt.mp neg
      simp only [Int64.toInt_zero] at hneg
      omega
    have hshort := Nat.not_lt.mpr (decimal_short hlt)
    have hneg := Int64.lt_iff_toInt_lt.mp neg
    simp only [Int64.toInt_zero] at hneg
    have habs : -(i.toInt.natAbs : Int) = i.toInt := by omega
    simp only [sinkNumber, numberValue, pyValue, hshort, if_false, and_self, if_true,
      List.cons_ne_self, Nat.ofDigitChars_ten_toDigits, habs]
  | float f finite =>
    have hmarked : ¬((floats.write f).fraction = [] ∧ (floats.write f).exponent = []) := by
      rw [not_and_or]
      exact floats.marked f finite
    simp [sinkNumber, numberValue, pyValue, hmarked, floats.parse_write f finite]

/-- How the text of a value starts: not with a space and not with a closing bracket. -/
theorem value_head (j : JsonValue) :
    ∃ c rest, sinkJson j = c :: rest ∧ isJsonSpace c = false ∧ c ≠ ']' := by
  cases j with
  | null => exact ⟨'n', _, rfl, by decide, by decide⟩
  | bool b => cases b <;> exact ⟨_, _, rfl, by decide, by decide⟩
  | number n =>
    obtain ⟨c, rest, hc, htext | htext⟩ := number_head (sink_number_well_formed n)
    · refine ⟨c, rest, htext, ?_, ?_⟩
      · rw [isJsonSpace, Bool.or_eq_false_iff, Bool.or_eq_false_iff, Bool.or_eq_false_iff]
        simp only [decide_eq_false_iff_not]
        refine ⟨⟨⟨?_, ?_⟩, ?_⟩, ?_⟩ <;> rintro rfl <;> cases hc
      · rintro rfl
        cases hc
    · exact ⟨'-', _, htext, by decide, by decide⟩
  | string s => exact ⟨'"', _, rfl, by decide, by decide⟩
  | array items => exact ⟨'[', _, rfl, by decide, by decide⟩
  | object keys field => exact ⟨'\x7b', _, rfl, by decide, by decide⟩

theorem skip_value (j : JsonValue) (rest : List Char) :
    skipSpace (sinkJson j ++ rest) = sinkJson j ++ rest := by
  obtain ⟨c, more, htext, hspace, _⟩ := value_head j
  rw [htext, List.cons_append, skip_none hspace]

theorem scan_number {fuel : Nat} (n : Number) {rest : List Char} (h : HeadNot endsNumber rest) :
    scanOnce (fuel + 1) ((sinkNumber n).text ++ rest) = .ok (pyValue (.number n), rest) := by
  have hread := match_number (sink_number_well_formed n) h
  obtain ⟨c, more, hc, htext⟩ := number_head (sink_number_well_formed n)
  have hstart : ∃ after, (sinkNumber n).text ++ rest = c :: after ∨
      (sinkNumber n).text ++ rest = '-' :: c :: after := by
    refine ⟨more ++ rest, htext.imp ?_ ?_⟩
    · intro h
      rw [h, List.cons_append]
    · intro h
      rw [h, List.cons_append, List.cons_append]
  have hconstant := number_not_constant hc hstart
  have hatom : scanAtom ((sinkNumber n).text ++ rest) = .ok (pyValue (.number n), rest) := by
    simp only [scanAtom, hconstant, hread, number_value]
    rfl
  have hnot : ∀ d, d.isDigit = false → c ≠ d := by
    rintro d hd rfl
    rw [hc] at hd
    cases hd
  rcases htext with htext | htext
  · rw [htext, List.cons_append] at hatom ⊢
    rw [scanOnce, if_neg (hnot _ (by decide)), if_neg (hnot _ (by decide)),
      if_neg (hnot _ (by decide)), hatom]
  · rw [htext, List.cons_append] at hatom ⊢
    rw [scanOnce, if_neg (by decide), if_neg (by decide), if_neg (by decide), hatom]

/-- What is read back from a value's text, whatever follows that ends a number. -/
def ReadBack (j : JsonValue) : Prop :=
  ∀ fuel rest, 2 * (sinkJson j).length < fuel → HeadNot endsNumber rest →
    scanOnce fuel (sinkJson j ++ rest) = .ok (pyValue j, rest)

theorem scan_items {items : List JsonValue} (hback : ∀ j ∈ items, ReadBack j) (hne : items ≠ [])
    (read : List PyVal) (rest : List Char) (fuel : Nat)
    (hfuel : 2 * (commas (items.map sinkJson)).length + 1 < fuel) :
    scanItems fuel read (commas (items.map sinkJson) ++ ']' :: rest) =
      .ok (.ofList (read ++ items.map pyValue), rest) := by
  induction items generalizing read fuel with
  | nil => exact absurd rfl hne
  | cons j more ih =>
    obtain ⟨fuel, rfl⟩ := fuel_succ hfuel
    have hj := hback j List.mem_cons_self
    cases more with
    | nil =>
      rw [List.map_singleton, commas_single] at hfuel ⊢
      exact scan_items_last read
        (hj fuel (']' :: rest) (by omega) (head_not_cons (by decide) rest))
    | cons next more =>
      obtain ⟨c, tail, htext, hspace, _⟩ := value_head next
      rw [List.map_cons, List.map_cons, commas_cons, ← List.map_cons] at hfuel ⊢
      rw [List.length_append, List.length_cons] at hfuel
      have hmore := ih (fun k hk => hback k (List.mem_cons_of_mem j hk))
        (List.cons_ne_nil next more) (read ++ [pyValue j]) fuel (by omega)
      rw [List.append_assoc, List.cons_append, scan_items_next read
        (hj fuel _ (by omega) (head_not_cons (by decide) _)), List.map_cons,
        skip_commas htext hspace, ← List.map_cons, hmore, List.append_assoc]
      rfl

def memberText (entry : String × JsonValue) : List Char :=
  sinkString entry.1 ++ ':' :: sinkJson entry.2

def pyEntry (entry : String × JsonValue) : String × PyVal := (entry.1, pyValue entry.2)

theorem scan_members {entries : List (String × JsonValue)}
    (hback : ∀ entry ∈ entries, ReadBack entry.2) (hne : entries ≠ [])
    (hdistinct : (entries.map Prod.fst).Nodup) (read : Dict String PyVal)
    (hnew : ∀ entry ∈ entries, entry.1 ∉ read.keys) (rest : List Char) (fuel : Nat)
    (hfuel : 2 * (commas (entries.map memberText)).length + 1 < fuel) :
    ∃ d : Dict String PyVal, d.items = read.items ++ entries.map pyEntry ∧
      scanMembers fuel read (commas (entries.map memberText) ++ '\x7d' :: rest) =
        .ok (.ofDict d, rest) := by
  induction entries generalizing read fuel with
  | nil => exact absurd rfl hne
  | cons entry more ih =>
    obtain ⟨name, j⟩ := entry
    obtain ⟨fuel, rfl⟩ := fuel_succ hfuel
    have hj : ReadBack j := hback (name, j) List.mem_cons_self
    have hfresh := hnew (name, j) List.mem_cons_self
    have hlen := escaped_length name.toList
    have hread : ∀ after, 2 * (memberText (name, j)).length ≤ fuel + 1 →
        scanString fuel [] (name.toList.flatMap sinkEscape ++ '"' :: after) =
          .ok (name.toList, after) := by
      intro after hle
      simp only [memberText, sinkString, List.length_append, List.length_cons,
        List.length_nil] at hle
      rw [scan_string [] after (by omega), List.nil_append]
    have htext : ∀ after, memberText (name, j) ++ after =
        '"' :: (name.toList.flatMap sinkEscape ++ '"' :: ':' :: (sinkJson j ++ after)) := by
      simp [memberText, sinkString]
    have hvalue : 2 * (sinkJson j).length + 4 ≤ 2 * (memberText (name, j)).length := by
      simp only [memberText, sinkString, List.length_append, List.length_cons]
      omega
    cases more with
    | nil =>
      rw [List.map_singleton, commas_single] at hfuel
      refine ⟨read.set name (pyValue j), Dict.set_new hfresh _, ?_⟩
      rw [List.map_singleton, commas_single]
      have hscan := hj fuel ('\x7d' :: rest) (by omega) (head_not_cons (by decide) rest)
      rw [htext, scan_members_last read (hread _ (by omega)) ((skip_value j _).symm ▸ hscan),
        String.ofList_toList]
    | cons next more =>
      have hsplit : commas (((name, j) :: next :: more).map memberText) =
          memberText (name, j) ++ ',' :: commas ((next :: more).map memberText) :=
        commas_cons ..
      rw [hsplit, List.length_append, List.length_cons] at hfuel
      rw [List.map_cons, List.nodup_cons] at hdistinct
      have hadded : ∀ entry ∈ next :: more, entry.1 ∉ (read.set name (pyValue j)).keys := by
        intro entry hentry hmem
        rw [Dict.keys, Dict.set_new hfresh, List.map_append, List.mem_append] at hmem
        rcases hmem with hold | hsame
        · exact hnew entry (List.mem_cons_of_mem _ hentry) hold
        · rw [List.map_singleton, List.mem_singleton] at hsame
          exact hdistinct.1 (hsame ▸ List.mem_map_of_mem hentry)
      obtain ⟨d, hd, hmore⟩ := ih (fun e he => hback e (List.mem_cons_of_mem _ he))
        (List.cons_ne_nil next more) hdistinct.2 (read.set name (pyValue j)) hadded fuel
        (by omega)
      refine ⟨d, ?_, ?_⟩
      · rw [hd, Dict.set_new hfresh, List.append_assoc]
        rfl
      · have hscan := hj fuel (',' :: (commas ((next :: more).map memberText) ++ '\x7d' :: rest))
          (by omega) (head_not_cons (by decide) _)
        rw [hsplit, List.append_assoc, List.cons_append, htext,
          scan_members_next read (hread _ (by omega)) ((skip_value j _).symm ▸ hscan),
          String.ofList_toList, List.map_cons,
          skip_commas (show memberText next = '"' :: _ from rfl) (by decide), ← List.map_cons,
          hmore]

theorem constant_back {j : JsonValue} {text : List Char} {v : PyVal} {c : Char}
    {more : List Char} (htext : sinkJson j = text) (hvalue : pyValue j = v)
    (hhead : text = c :: more) (hc : c ≠ '"' ∧ c ≠ '\x7b' ∧ c ≠ '[')
    (hatom : ∀ rest, scanAtom (text ++ rest) = .ok (v, rest)) : ReadBack j := by
  intro fuel rest hfuel _
  obtain ⟨fuel, rfl⟩ := fuel_succ hfuel
  rw [htext, hvalue, ← hatom rest, hhead, List.cons_append, scanOnce, if_neg hc.1, if_neg hc.2.1,
    if_neg hc.2.2]

/-- Every JSON value is read back from the sink's text of it. -/
theorem json_back (j : JsonValue) : ReadBack j := by
  induction j with
  | null => exact constant_back rfl rfl rfl (by decide) fun _ => rfl
  | bool b =>
    cases b with
    | false => exact constant_back rfl rfl rfl (by decide) fun _ => rfl
    | true => exact constant_back rfl rfl rfl (by decide) fun _ => rfl
  | number n =>
    intro fuel rest hfuel hrest
    obtain ⟨fuel, rfl⟩ := fuel_succ hfuel
    exact scan_number n hrest
  | string s =>
    intro fuel rest hfuel _
    obtain ⟨fuel, rfl⟩ := fuel_succ hfuel
    have hlen := escaped_length s.toList
    simp only [sinkJson, sinkString, List.length_cons, List.length_append] at hfuel
    simp only [sinkJson, sinkString, List.cons_append, List.append_assoc, List.nil_append]
    rw [scanOnce, if_pos rfl, scan_string [] rest (by omega), List.nil_append]
    simp only [Except.map, String.ofList_toList, pyValue]
  | array items ih =>
    intro fuel rest hfuel _
    obtain ⟨fuel, rfl⟩ := fuel_succ hfuel
    have htexts : (List.ofFn fun i => sinkJson (items i)) = (List.ofFn items).map sinkJson := by
      rw [List.map_ofFn]
      rfl
    have hvalues : (List.ofFn items).map pyValue = List.ofFn fun i => pyValue (items i) := by
      rw [List.map_ofFn]
      rfl
    have hback : ∀ j ∈ List.ofFn items, ReadBack j := by
      intro j hj
      obtain ⟨i, rfl⟩ := List.mem_ofFn.mp hj
      exact ih i
    rw [sinkJson, htexts, List.length_cons, List.length_append, List.length_singleton] at hfuel
    rw [sinkJson, htexts, pyValue, ← of_list_items, ← hvalues, List.cons_append, List.append_assoc,
      List.singleton_append]
    cases hitems : List.ofFn items with
    | nil => rfl
    | cons j more =>
      rw [hitems] at hback hfuel
      obtain ⟨c, tail, htext, hspace, hclose⟩ := value_head j
      obtain ⟨suffix, hfirst⟩ := commas_first (sinkJson j) (more.map sinkJson)
      have hscan := scan_items hback (List.cons_ne_nil j more) [] rest fuel (by omega)
      rw [List.map_cons, hfirst, htext, List.cons_append, List.cons_append] at hscan
      rw [List.map_cons, hfirst, htext, List.cons_append, List.cons_append, scanOnce,
        if_neg (by decide), if_neg (by decide), if_pos rfl, skip_none hspace]
      simp only [if_neg hclose]
      exact hscan
  | object keys field ih =>
    intro fuel rest hfuel _
    obtain ⟨fuel, rfl⟩ := fuel_succ hfuel
    have htexts : (List.ofFn fun i => sinkString (keys.name i) ++ ':' :: sinkJson (field i)) =
        (List.ofFn fun i => (keys.name i, field i)).map memberText := by
      rw [List.map_ofFn]
      rfl
    have hvalues : (List.ofFn fun i => (keys.name i, field i)).map pyEntry =
        List.ofFn fun i => (keys.names.get i, pyValue (field i)) := by
      rw [List.map_ofFn]
      rfl
    have hnames : (List.ofFn fun i => (keys.name i, field i)).map Prod.fst = keys.names := by
      rw [List.map_ofFn]
      exact List.ofFn_get keys.names
    have hback : ∀ entry ∈ List.ofFn fun i => (keys.name i, field i), ReadBack entry.2 := by
      intro entry hentry
      obtain ⟨i, rfl⟩ := List.mem_ofFn.mp hentry
      exact ih i
    have hdict : ∀ d : Dict String PyVal,
        d.items = (List.ofFn fun i => (keys.name i, field i)).map pyEntry →
        PyVal.ofDict d = pyValue (.object keys field) :=
      fun d hd => of_dict_fields keys.nodup _ (hd.trans hvalues)
    have hdistinct := hnames ▸ keys.nodup
    rw [sinkJson, htexts, List.length_cons, List.length_append, List.length_singleton] at hfuel
    rw [sinkJson, htexts, List.cons_append, List.append_assoc, List.singleton_append]
    cases hentries : List.ofFn fun i => (keys.name i, field i) with
    | nil =>
      rw [hentries] at hdict
      exact congrArg (fun v => Except.ok (v, rest)) (hdict .empty rfl)
    | cons entry more =>
      rw [hentries] at hback hfuel hdistinct hdict
      obtain ⟨suffix, hfirst⟩ := commas_first (memberText entry) (more.map memberText)
      obtain ⟨d, hd, hscan⟩ := scan_members hback (List.cons_ne_nil entry more) hdistinct .empty
        (by simp [Dict.empty, Dict.keys]) rest fuel (by omega)
      rw [← hdict d (by simpa [Dict.empty] using hd), ← hscan, List.map_cons, hfirst]
      rfl

/-- An object is loaded from its line. -/
theorem loads_back (object : JsonObject) : loads (sinkJson object.value) = .ok (pyValue object.value) := by
  have hskip := skip_value object.value []
  have hscan := json_back object.value (2 * (sinkJson object.value).length + 1) []
    (Nat.lt_succ_self _) (head_not_nil _)
  rw [List.append_nil] at hskip hscan
  have hhead : (sinkJson object.value).head? ≠ some '\uFEFF' := by
    rw [JsonObject.value, sinkJson, List.head?_cons]
    decide
  simp only [loads, if_neg hhead, hskip, hscan]
  rfl

end

end VectorVrl.Proofs.PyJson
