import Mathlib.Data.List.Basic

namespace Lib.Lines

/-- The characters that end a line, as Python's `str.splitlines` knows them. -/
def isLineBreak (c : Char) : Bool :=
  c = '\n' || c = '\r' || c = '\x0b' || c = '\x0c' || c = '\x1c' || c = '\x1d' || c = '\x1e' ||
  c = '\u0085' || c = '\u2028' || c = '\u2029'

/-- The lines of a text after the part `line` of its first line; `\r\n` is one
break, and a break at the end starts no further line. -/
def splitFrom (line : List Char) : List Char → List (List Char)
  | [] => if line = [] then [] else [line]
  | '\r' :: '\n' :: rest => line :: splitFrom [] rest
  | c :: rest =>
    if isLineBreak c then line :: splitFrom [] rest else splitFrom (line ++ [c]) rest

def splitLines (text : List Char) : List (List Char) := splitFrom [] text

theorem split_from_nil (line : List Char) :
    splitFrom line [] = if line = [] then [] else [line] := rfl

theorem split_from_crlf (line rest : List Char) :
    splitFrom line ('\r' :: '\n' :: rest) = line :: splitFrom [] rest := rfl

theorem split_from_char {c : Char} {rest : List Char} (line : List Char)
    (h : ¬(c = '\r' ∧ ∃ rest', rest = '\n' :: rest')) :
    splitFrom line (c :: rest) =
      if isLineBreak c then line :: splitFrom [] rest else splitFrom (line ++ [c]) rest := by
  rw [splitFrom.eq_def]
  split
  · contradiction
  · rename_i rest' heq
    cases heq
    exact absurd ⟨rfl, rest', rfl⟩ h
  · rename_i heq
    cases heq
    rfl

theorem split_from_plain {c : Char} (h : isLineBreak c = false) (line rest : List Char) :
    splitFrom line (c :: rest) = splitFrom (line ++ [c]) rest := by
  rw [split_from_char line, h, if_neg (by simp)]
  intro hsome
  obtain ⟨rfl, _⟩ := hsome
  cases h

theorem split_from_newline (line rest : List Char) :
    splitFrom line ('\n' :: rest) = line :: splitFrom [] rest := by
  rw [split_from_char line, if_pos (by decide)]
  intro hsome
  obtain ⟨h, _⟩ := hsome
  cases h

/-- A newline separates texts whatever they end in. -/
theorem split_from_join (line text rest : List Char) :
    splitFrom line (text ++ '\n' :: rest) =
      splitFrom line (text ++ ['\n']) ++ splitFrom [] rest := by
  induction line, text using splitFrom.induct with
  | case1 => simp [split_from_newline, split_from_nil]
  | case2 line _ => simp [split_from_newline, split_from_nil]
  | case3 line text ih => simp only [List.cons_append, split_from_crlf, ih]
  | case4 line c text hne hbreak ih =>
    cases text with
    | nil =>
      by_cases hc : c = '\r'
      · subst hc
        simp [split_from_crlf, split_from_nil]
      · have hsplit : ∀ more, splitFrom line (c :: '\n' :: more) =
            line :: splitFrom [] ('\n' :: more) := by
          intro more
          rw [split_from_char line fun h => hc h.1, if_pos hbreak]
        simp [hsplit, split_from_newline, split_from_nil]
    | cons d text =>
      have hsplit : ∀ more, splitFrom line ((c :: d :: text) ++ more) =
          line :: splitFrom [] ((d :: text) ++ more) := by
        intro more
        rw [List.cons_append, split_from_char line, if_pos hbreak]
        intro hsome
        obtain ⟨hc, rest', hd⟩ := hsome
        simp only [List.cons_append, List.cons.injEq] at hd
        exact hne text hc (by rw [hd.1])
      rw [hsplit, hsplit, ih]
      rfl
  | case5 line c text hne hplain ih =>
    have hfalse := Bool.not_eq_true _ ▸ hplain
    rw [List.cons_append, List.cons_append, split_from_plain hfalse, split_from_plain hfalse, ih]

theorem split_from_unbroken {text : List Char} (h : ∀ c ∈ text, isLineBreak c = false)
    (line rest : List Char) : splitFrom line (text ++ rest) = splitFrom (line ++ text) rest := by
  induction text generalizing line with
  | nil => simp
  | cons c text ih =>
    rw [List.cons_append, split_from_plain (h c List.mem_cons_self),
      ih fun d hd => h d (List.mem_cons_of_mem c hd), List.append_assoc, List.singleton_append]

/-- A line already begun takes in the first line of what follows and leaves the others. -/
theorem split_from_begun (rest : List Char) : ∃ first, ∀ line, line ≠ [] →
    splitFrom line rest = (line ++ first) :: (splitFrom [] rest).tail := by
  have hany : ∀ line : List Char, ∃ first, ∀ line, line ≠ [] →
      splitFrom line rest = (line ++ first) :: (splitFrom [] rest).tail := by
    intro line
    induction line, rest using splitFrom.induct with
    | case1 => exact ⟨[], fun line h => by simp [split_from_nil, h]⟩
    | case2 => exact ⟨[], fun line h => by simp [split_from_nil, h]⟩
    | case3 => exact ⟨[], fun line h => by simp [split_from_crlf]⟩
    | case4 _ c rest hne hbreak =>
      have hsplit : ∀ line, splitFrom line (c :: rest) = line :: splitFrom [] rest := by
        intro line
        rw [split_from_char line fun ⟨hc, rest', hr⟩ => hne rest' hc hr, if_pos hbreak]
      exact ⟨[], fun line _ => by simp [hsplit]⟩
    | case5 _ c rest hne hplain ih =>
      obtain ⟨first, hfirst⟩ := ih
      have hfalse := Bool.not_eq_true _ ▸ hplain
      refine ⟨c :: first, fun line _ => ?_⟩
      rw [split_from_plain hfalse, split_from_plain hfalse, hfirst (line ++ [c]) (by simp),
        hfirst ([] ++ [c]) (by simp), List.tail_cons, List.append_assoc, List.singleton_append]
  exact hany []

theorem split_lines_ne {text : List Char} (h : text ≠ []) : splitLines text ≠ [] := by
  unfold splitLines
  cases text with
  | nil => exact absurd rfl h
  | cons c rest =>
    rw [splitFrom.eq_def]
    split
    · contradiction
    · simp
    · split
      · simp
      · obtain ⟨first, hfirst⟩ := split_from_begun rest
        rename_i heq _
        cases heq
        rw [hfirst _ (by simp)]
        simp

end Lib.Lines
