import Mathlib.Data.List.TakeWhile
import VectorVrl.Proofs.PyJson

namespace VectorVrl.Proofs.JsonQuotes
open Lib.OrderedDict PyJson

/-- Where a position of a JSON text stands: outside of strings, in one, or after
a backslash in one. -/
inductive Quote where
  | outside
  | inside
  | escaped
deriving DecidableEq, Repr

def Quote.step : Quote → Char → Quote
  | .outside, c => if c = '"' then .inside else .outside
  | .inside, c => if c = '"' then .outside else if c = '\\' then .escaped else .inside
  | .escaped, _ => .inside

def Quote.after (q : Quote) (text : List Char) : Quote := text.foldl Quote.step q

/-- From `q` at the start of a text to `q'` where `rest` is left of it. -/
def Reads (q q' : Quote) (text rest : List Char) : Prop :=
  ∃ used, text = used ++ rest ∧ q.after used = q'

theorem Reads.refl (q : Quote) (text : List Char) : Reads q q text text := ⟨[], rfl, rfl⟩

theorem Reads.trans {p q r : Quote} {text mid rest : List Char} (h : Reads p q text mid)
    (h' : Reads q r mid rest) : Reads p r text rest := by
  obtain ⟨used, rfl, hq⟩ := h
  obtain ⟨more, rfl, hr⟩ := h'
  refine ⟨used ++ more, (List.append_assoc ..).symm, ?_⟩
  rw [← hr, ← hq]
  exact List.foldl_append

theorem Reads.char (q : Quote) (c : Char) (rest : List Char) :
    Reads q (q.step c) (c :: rest) rest := ⟨[c], rfl, rfl⟩

theorem Reads.length_le {q q' : Quote} {text rest : List Char} (h : Reads q q' text rest) :
    rest.length ≤ text.length := by
  obtain ⟨used, rfl, _⟩ := h
  rw [List.length_append]
  omega

theorem outside_char {c : Char} (h : c ≠ '"') (rest : List Char) :
    Reads .outside .outside (c :: rest) rest := by
  have hread := Reads.char .outside c rest
  rwa [Quote.step, if_neg h] at hread

/-- Text without a quote stays outside of strings. -/
theorem outside_plain {used : List Char} (h : '"' ∉ used) : Quote.outside.after used = .outside := by
  induction used with
  | nil => rfl
  | cons c rest ih =>
    rw [List.mem_cons, not_or] at h
    rw [Quote.after, List.foldl_cons, Quote.step, if_neg (Ne.symm h.1)]
    exact ih h.2

theorem skip_reads (text : List Char) : Reads .outside .outside text (skipSpace text) := by
  refine ⟨text.takeWhile isJsonSpace, List.takeWhile_append_dropWhile.symm, outside_plain ?_⟩
  intro hmem
  have hspace := List.mem_takeWhile_imp hmem
  cases hspace

/-- After a space that is skipped comes a character that is not a quote. -/
theorem skip_then {text rest : List Char} {c : Char} (h : skipSpace text = c :: rest)
    (hc : c ≠ '"') : Reads .outside .outside text rest := by
  have hskip := skip_reads text
  rw [h] at hskip
  exact hskip.trans (outside_char hc rest)

/-- What comes after an opening bracket and the spaces behind it. -/
theorem open_reads {c d : Char} {text after : List Char} (hc : c ≠ '"')
    (h : skipSpace text = d :: after) : Reads .outside .outside (c :: text) (d :: after) :=
  (outside_char hc text).trans (h ▸ skip_reads text)

theorem digit_ne_quote {c : Char} (h : c.isDigit = true) : c ≠ '"' := by
  rintro rfl
  cases h

theorem run_plain (text : List Char) : '"' ∉ (text.span Char.isDigit).1 ∧
    text = (text.span Char.isDigit).1 ++ (text.span Char.isDigit).2 := by
  rw [List.span_eq_takeWhile_dropWhile]
  refine ⟨?_, List.takeWhile_append_dropWhile.symm⟩
  intro hmem
  exact digit_ne_quote (List.mem_takeWhile_imp hmem) rfl

theorem hex_digit_plain {c : Char} {n : Nat} (h : hexDigit c = some n) : c ≠ '"' ∧ c ≠ '\\' := by
  refine ⟨?_, ?_⟩ <;> rintro rfl <;> cases h

theorem inside_plain {c : Char} (h : c ≠ '"' ∧ c ≠ '\\') (rest : List Char) :
    Reads .inside .inside (c :: rest) rest := by
  have hread := Reads.char .inside c rest
  rwa [Quote.step, if_neg h.1, if_neg h.2] at hread

theorem hex_four_reads {text rest : List Char} {n : Nat} (h : hexFour text = some (n, rest)) :
    Reads .inside .inside text rest := by
  match text, h with
  | a :: b :: c :: d :: more, h =>
    simp only [hexFour, Option.bind_eq_bind, Option.bind_eq_some_iff, Option.pure_def,
      Option.some.injEq, Prod.mk.injEq] at h
    obtain ⟨a', ha, b', hb, c', hc, d', hd, _, rfl⟩ := h
    exact (((inside_plain (hex_digit_plain ha) _).trans (inside_plain (hex_digit_plain hb) _)).trans
      (inside_plain (hex_digit_plain hc) _)).trans (inside_plain (hex_digit_plain hd) _)

theorem unicode_reads {n : Nat} {text rest : List Char} {c : Char}
    (h : unicodeEscape n text = .ok (c, rest)) : Reads .inside .inside text rest := by
  unfold unicodeEscape at h
  split at h
  · cases h
  split at h
  · split at h
    · split at h
      · rename_i hmarks
        simp only [Bool.and_eq_true, decide_eq_true_eq] at hmarks
        obtain ⟨rfl, rfl⟩ := hmarks
        split at h
        · cases h
        · rename_i hfour
          split at h
          · obtain ⟨_, rfl⟩ := Prod.mk.inj (Except.ok.inj h)
            exact ((Reads.char .inside '\\' _).trans (Reads.char .escaped 'u' _)).trans
              (hex_four_reads hfour)
          · cases h
      · cases h
    · cases h
  · cases h
    exact .refl _ _

theorem escape_reads {text rest : List Char} {c : Char} (h : readEscape text = .ok (c, rest)) :
    Reads .escaped .inside text rest := by
  cases text with
  | nil => cases h
  | cons d text =>
    rw [readEscape] at h
    split at h
    · split at h
      · cases h
      · rename_i hfour
        exact ((Reads.char .escaped d _).trans (hex_four_reads hfour)).trans (unicode_reads h)
    · split at h
      · cases h
      · cases h
        exact Reads.char .escaped d _

/-- A string that is read ends at its closing quote. -/
theorem string_reads {fuel : Nat} {read text s rest : List Char}
    (h : scanString fuel read text = .ok (s, rest)) : Reads .inside .outside text rest := by
  induction fuel generalizing read text with
  | zero => cases h
  | succ fuel ih =>
    cases text with
    | nil => cases h
    | cons c text =>
      rw [scanString] at h
      split at h
      · rename_i hquote
        cases h
        subst hquote
        exact Reads.char .inside '"' _
      split at h
      · rename_i _ hslash
        subst hslash
        split at h
        · cases h
        · rename_i hescape
          exact ((Reads.char .inside '\\' _).trans (escape_reads hescape)).trans (ih h)
      split at h
      · cases h
      · rename_i hquote hslash _
        exact (inside_plain ⟨hquote, hslash⟩ text).trans (ih h)

/-- A piece of a text that holds no quote, and what is after it. -/
def Plain (text used rest : List Char) : Prop := text = used ++ rest ∧ '"' ∉ used

theorem minus_plain (text : List Char) :
    Plain text (matchMinus text).1 (matchMinus text).2 := by
  cases text with
  | nil => exact ⟨rfl, List.not_mem_nil⟩
  | cons c rest =>
    rw [matchMinus]
    split
    · rename_i h
      exact ⟨by rw [h]; rfl, by simp⟩
    · exact ⟨rfl, List.not_mem_nil⟩

theorem digits_plain {text digits rest : List Char} (h : matchDigits text = some (digits, rest)) :
    Plain text digits rest := by
  cases text with
  | nil => cases h
  | cons c text =>
    rw [matchDigits] at h
    split at h
    · rename_i hc
      cases h
      exact ⟨by rw [hc]; rfl, by decide⟩
    split at h
    · obtain ⟨hplain, hsplit⟩ := run_plain (c :: text)
      rw [Option.some.inj h] at hplain hsplit
      exact ⟨hsplit, hplain⟩
    · cases h

theorem fraction_plain (text : List Char) :
    Plain text (matchFraction text).1 (matchFraction text).2 := by
  cases text with
  | nil => exact ⟨rfl, List.not_mem_nil⟩
  | cons c rest =>
    obtain ⟨hplain, hsplit⟩ := run_plain rest
    by_cases h : (c = '.' && !(rest.span Char.isDigit).1.isEmpty) = true
    · have hmatch : matchFraction (c :: rest) =
          (c :: (rest.span Char.isDigit).1, (rest.span Char.isDigit).2) := if_pos h
      simp only [Bool.and_eq_true, decide_eq_true_eq] at h
      rw [hmatch]
      refine ⟨congrArg (c :: ·) hsplit, ?_⟩
      rw [h.1, List.mem_cons, not_or]
      exact ⟨by decide, hplain⟩
    · have hmatch : matchFraction (c :: rest) = ([], c :: rest) := if_neg h
      rw [hmatch]
      exact ⟨rfl, List.not_mem_nil⟩

theorem sign_plain (text : List Char) : Plain text (matchSign text).1 (matchSign text).2 := by
  cases text with
  | nil => exact ⟨rfl, List.not_mem_nil⟩
  | cons c rest =>
    rw [matchSign]
    split
    · rename_i h
      simp only [Bool.or_eq_true, decide_eq_true_eq] at h
      refine ⟨rfl, ?_⟩
      rcases h with rfl | rfl <;> simp
    · exact ⟨rfl, List.not_mem_nil⟩

theorem exponent_plain (text : List Char) :
    Plain text (matchExponent text).1 (matchExponent text).2 := by
  cases text with
  | nil => exact ⟨rfl, List.not_mem_nil⟩
  | cons c rest =>
    obtain ⟨hrest, hsign⟩ := sign_plain rest
    obtain ⟨hplain, hsplit⟩ := run_plain (matchSign rest).2
    by_cases h : ((c = 'e' || c = 'E') && !((matchSign rest).2.span Char.isDigit).1.isEmpty) = true
    · have hmatch : matchExponent (c :: rest) =
          (c :: ((matchSign rest).1 ++ ((matchSign rest).2.span Char.isDigit).1),
            ((matchSign rest).2.span Char.isDigit).2) := if_pos h
      simp only [Bool.and_eq_true, Bool.or_eq_true, decide_eq_true_eq] at h
      rw [hmatch]
      refine ⟨?_, ?_⟩
      · rw [List.cons_append, List.append_assoc, ← hsplit, ← hrest]
      · rw [List.mem_cons, List.mem_append]
        rintro (rfl | hmem | hmem)
        · rcases h.1 with h | h <;> cases h
        · exact hsign hmem
        · exact hplain hmem
    · have hmatch : matchExponent (c :: rest) = ([], c :: rest) := if_neg h
      rw [hmatch]
      exact ⟨rfl, List.not_mem_nil⟩

theorem match_number_eq (text : List Char) :
    matchNumber text = (matchDigits (matchMinus text).2).map fun found =>
      (⟨(matchMinus text).1, found.1, (matchFraction found.2).1,
        (matchExponent (matchFraction found.2).2).1⟩,
        (matchExponent (matchFraction found.2).2).2) := rfl

theorem number_plain {text rest : List Char} {parts : NumberParts}
    (h : matchNumber text = some (parts, rest)) : Plain text parts.text rest := by
  obtain ⟨hminus, hminusPlain⟩ := minus_plain text
  rw [match_number_eq, Option.map_eq_some_iff] at h
  obtain ⟨⟨digits, after⟩, hdigits, heq⟩ := h
  rw [Prod.mk.injEq] at heq
  obtain ⟨hsplit, hplain⟩ := digits_plain hdigits
  obtain ⟨hfraction, hfractionPlain⟩ := fraction_plain after
  obtain ⟨hexponent, hexponentPlain⟩ := exponent_plain (matchFraction after).2
  rw [← heq.1, ← heq.2]
  refine ⟨?_, ?_⟩
  · simp only [NumberParts.text, List.append_assoc]
    rw [← hexponent, ← hfraction, ← hsplit, ← hminus]
  · simp only [NumberParts.text, List.mem_append, not_or]
    exact ⟨⟨⟨hminusPlain, hplain⟩, hfractionPlain⟩, hexponentPlain⟩

section
variable [PyFloat]

theorem atom_reads {text rest : List Char} {v : PyVal} (h : scanAtom text = .ok (v, rest)) :
    Reads .outside .outside text rest := by
  unfold scanAtom at h
  split at h
  · rename_i entry hfound
    obtain ⟨_, rfl⟩ := Prod.mk.inj (Except.ok.inj h)
    have hplain : ∀ entry ∈ constants, '"' ∉ entry.1.toList := by decide
    have hstart := List.find?_some hfound
    obtain ⟨after, hafter⟩ := of_decide_eq_true hstart
    refine ⟨entry.1.toList, ?_, outside_plain (hplain entry (List.mem_of_find?_eq_some hfound))⟩
    rw [← hafter, ← String.length_toList, List.drop_left]
  · split at h
    · cases h
    · rename_i parts after hnumber
      obtain ⟨hsplit, hplain⟩ := number_plain hnumber
      obtain ⟨v', _, heq⟩ := Lib.Collect.map_ok_iff.mp h
      obtain ⟨_, rfl⟩ := Prod.mk.inj heq
      exact ⟨parts.text, hsplit, outside_plain hplain⟩

/-- Reading leaves off outside of strings, within `fuel` rounds. -/
structure ScanReads (fuel : Nat) : Prop where
  once : ∀ text v rest, scanOnce fuel text = .ok (v, rest) → Reads .outside .outside text rest
  items : ∀ read text v rest, scanItems fuel read text = .ok (v, rest) →
    Reads .outside .outside text rest
  members : ∀ read text v rest, scanMembers fuel read text = .ok (v, rest) →
    Reads .outside .outside text rest

theorem once_reads {fuel : Nat} (h : ScanReads fuel) {text rest : List Char} {v : PyVal}
    (hok : scanOnce (fuel + 1) text = .ok (v, rest)) : Reads .outside .outside text rest := by
  cases text with
  | nil => cases hok
  | cons c text =>
    rw [scanOnce] at hok
    split at hok
    · rename_i hquote
      subst hquote
      obtain ⟨⟨s, after⟩, hs, heq⟩ := Lib.Collect.map_ok_iff.mp hok
      cases heq
      exact (Reads.char .outside '"' text).trans (string_reads hs)
    split at hok
    · rename_i hquote _
      split at hok
      · cases hok
      · rename_i d after hskip
        split at hok
        · rename_i hclose
          cases hok
          exact (open_reads hquote hskip).trans (outside_char (by rw [hclose]; decide) _)
        · exact (open_reads hquote hskip).trans (h.members _ _ _ _ hok)
    split at hok
    · rename_i hquote _ _
      split at hok
      · cases hok
      · rename_i d after hskip
        split at hok
        · rename_i hclose
          cases hok
          exact (open_reads hquote hskip).trans (outside_char (by rw [hclose]; decide) _)
        · exact (open_reads hquote hskip).trans (h.items _ _ _ _ hok)
    · exact atom_reads hok

theorem items_reads {fuel : Nat} (h : ScanReads fuel) {read : List PyVal} {text rest : List Char}
    {v : PyVal} (hok : scanItems (fuel + 1) read text = .ok (v, rest)) :
    Reads .outside .outside text rest := by
  rw [scanItems] at hok
  split at hok
  · cases hok
  · rename_i item mid hitem
    have hread := h.once _ _ _ hitem
    split at hok
    · cases hok
    · rename_i c after hskip
      split at hok
      · rename_i hclose
        cases hok
        exact hread.trans (skip_then hskip (by rw [hclose]; decide))
      split at hok
      · rename_i hcomma
        have hnext := hread.trans (skip_then hskip (by rw [hcomma]; decide))
        exact (hnext.trans (skip_reads after)).trans (h.items _ _ _ _ hok)
      · cases hok

theorem members_reads {fuel : Nat} (h : ScanReads fuel) {read : Dict String PyVal}
    {text rest : List Char} {v : PyVal} (hok : scanMembers (fuel + 1) read text = .ok (v, rest)) :
    Reads .outside .outside text rest := by
  cases text with
  | nil => cases hok
  | cons quote text =>
    rw [scanMembers] at hok
    split at hok
    · cases hok
    rename_i hquote
    rw [Classical.not_not] at hquote
    subst hquote
    split at hok
    · cases hok
    rename_i name mid hname
    have hkey := (Reads.char .outside '"' text).trans (string_reads hname)
    split at hok
    · cases hok
    rename_i colon after hskip
    split at hok
    · cases hok
    rename_i hcolon
    rw [Classical.not_not] at hcolon
    have hmark := (hkey.trans (skip_then hskip (by rw [hcolon]; decide))).trans (skip_reads after)
    split at hok
    · cases hok
    rename_i value behind hvalue
    have hread := hmark.trans (h.once _ _ _ hvalue)
    simp only at hok
    split at hok
    · cases hok
    rename_i c beyond hskip
    split at hok
    · rename_i hclose
      cases hok
      exact hread.trans (skip_then hskip (by rw [hclose]; decide))
    split at hok
    · rename_i hcomma
      have hnext := hread.trans (skip_then hskip (by rw [hcomma]; decide))
      exact (hnext.trans (skip_reads beyond)).trans (h.members _ _ _ _ hok)
    · cases hok

theorem scan_reads (fuel : Nat) : ScanReads fuel := by
  induction fuel with
  | zero =>
    constructor
    · intro _ _ _ h
      cases h
    · intro _ _ _ _ h
      cases h
    · intro _ _ _ _ h
      cases h
  | succ fuel ih =>
    exact ⟨fun _ _ _ => once_reads ih, fun _ _ _ _ => items_reads ih,
      fun _ _ _ _ => members_reads ih⟩

/-- A text that stops inside a string is not JSON. -/
theorem loads_outside {text : List Char} {v : PyVal} (h : loads text = .ok v) :
    Quote.outside.after text = .outside := by
  unfold loads at h
  split at h
  · cases h
  split at h
  · cases h
  rename_i value rest hscan
  split at h
  · rename_i hrest
    have hend := skip_reads rest
    rw [hrest] at hend
    obtain ⟨used, hused, hquote⟩ :=
      ((skip_reads text).trans ((scan_reads _).once _ _ _ hscan)).trans hend
    rw [hused, List.append_nil]
    exact hquote
  · cases h

end

end VectorVrl.Proofs.JsonQuotes
