import VectorVrl.Lib.Depth
import VectorVrl.Nesting

namespace VectorVrl.Proofs.Scanner
open Nesting Lib.Depth

/-- Where the scan stands between two characters. `boundary` is outside every
string, literal, comment and identifier run. -/
inductive Mode where
  | boundary
  | word
  | literalPrefix
  | quoted (close : Char)
  | escaped (close : Char)
  | comment
deriving DecidableEq, Repr

/-- What a character at the start of a token begins, and what it does to the depth. -/
def enter (c : Char) : Mode × Mark :=
  if isOpener c then (.boundary, .opens)
  else if isCloser c then (.boundary, .closes)
  else if c = '"' then (.quoted '"', .flat)
  else if c = '#' then (.comment, .flat)
  else if isLiteralPrefix c then (.literalPrefix, .flat)
  else if isIdentContinue c then (.word, .flat)
  else (.boundary, .flat)

def Mode.next : Mode → Char → Mode × Mark
  | .boundary, c => enter c
  | .word, c => if isIdentContinue c then (.word, .flat) else enter c
  | .literalPrefix, c =>
    if c = '\'' then (.quoted '\'', .flat)
    else if isIdentContinue c then (.word, .flat)
    else enter c
  | .quoted close, c =>
    if c = '\\' then (.escaped close, .flat)
    else if c = close then (.boundary, .flat)
    else (.quoted close, .flat)
  | .escaped close, _ => (.quoted close, .flat)
  | .comment, c => if c = '\n' then (.boundary, .flat) else (.comment, .flat)

/-- The scan read one character at a time: no lookahead, so text that has been
read is never reinterpreted. -/
structure Scan where
  mode : Mode
  gauge : Gauge
deriving DecidableEq, Repr

def Scan.read (s : Scan) (c : Char) : Scan :=
  ⟨(s.mode.next c).1, s.gauge.mark (s.mode.next c).2⟩

def Scan.readAll (s : Scan) (cs : List Char) : Scan := cs.foldl Scan.read s

def Scan.start : Scan := ⟨.boundary, Gauge.zero⟩

/-- The mode in which the scan of `text` ends. -/
def endMode (text : String) : Mode := (Scan.start.readAll text.toList).mode

@[simp] theorem read_all_nil (s : Scan) : s.readAll [] = s := rfl

@[simp] theorem read_all_cons (s : Scan) (c : Char) (cs : List Char) :
    s.readAll (c :: cs) = (s.read c).readAll cs := rfl

theorem read_all_append (s : Scan) (xs ys : List Char) :
    s.readAll (xs ++ ys) = (s.readAll xs).readAll ys := List.foldl_append

theorem ident_not_bracket {c : Char} (h : isIdentContinue c = true) :
    isOpener c = false ∧ isCloser c = false ∧ c ≠ '"' ∧ c ≠ '#' ∧ c ≠ '\'' := by
  refine ⟨?_, ?_, ?_, ?_, ?_⟩
  · by_contra hb
    simp only [isOpener, Bool.not_eq_false, Bool.or_eq_true, decide_eq_true_eq] at hb
    rcases hb with (rfl | rfl) | rfl <;> exact absurd h (by decide)
  · by_contra hb
    simp only [isCloser, Bool.not_eq_false, Bool.or_eq_true, decide_eq_true_eq] at hb
    rcases hb with (rfl | rfl) | rfl <;> exact absurd h (by decide)
  all_goals rintro rfl; exact absurd h (by decide)

theorem prefix_ident {c : Char} (h : isLiteralPrefix c = true) : isIdentContinue c = true := by
  simp only [isLiteralPrefix, Bool.or_eq_true, decide_eq_true_eq] at h
  rcases h with (rfl | rfl) | rfl <;> decide

/-- Two scans that end up recording the same deepest level. -/
def SameDeepest (s t : Scan) (xs ys : List Char) : Prop :=
  (s.readAll xs).gauge.deepest = (t.readAll ys).gauge.deepest

theorem quoted_skips (close : Char) (g : Gauge) (cs : List Char) :
    SameDeepest ⟨.quoted close, g⟩ ⟨.boundary, g⟩ cs (skipQuoted close cs) := by
  unfold SameDeepest
  fun_induction skipQuoted close cs with
  | case1 => rfl
  | case2 => simp [Scan.read, Mode.next]
  | case3 c rest ih => simpa [Scan.read, Mode.next] using ih
  | case4 cs hn => simp [Scan.read, Mode.next, hn]
  | case5 c cs hn hc ih => simpa [Scan.read, Mode.next, hn, hc] using ih

theorem comment_skips (g : Gauge) (cs : List Char) :
    SameDeepest ⟨.comment, g⟩ ⟨.boundary, g⟩ cs (cs.dropWhile (· ≠ '\n')) := by
  unfold SameDeepest
  induction cs with
  | nil => rfl
  | cons c cs ih =>
    by_cases hc : c = '\n'
    · subst hc
      simp [Scan.read, Mode.next, enter, isOpener, isCloser, isLiteralPrefix, isIdentContinue]
    · simpa [Scan.read, Mode.next, hc] using ih

theorem word_skips (g : Gauge) (cs : List Char) :
    SameDeepest ⟨.word, g⟩ ⟨.boundary, g⟩ cs (cs.dropWhile isIdentContinue) := by
  unfold SameDeepest
  induction cs with
  | nil => rfl
  | cons c cs ih =>
    by_cases hc : isIdentContinue c = true
    · simpa [Scan.read, Mode.next, hc] using ih
    · simp [Scan.read, Mode.next, hc]

/-- A prefix letter that no single quote follows begins an ordinary word. -/
theorem prefix_is_word (g : Gauge) (cs : List Char) (h : cs.head? ≠ some '\'') :
    SameDeepest ⟨.literalPrefix, g⟩ ⟨.word, g⟩ cs cs := by
  cases cs with
  | nil => rfl
  | cons c cs =>
    have hc : c ≠ '\'' := by simpa using h
    simp [SameDeepest, Scan.read, Mode.next, hc]

/-- The counting loop and the character-by-character scan agree. -/
theorem count_brackets_scan (depth maxDepth : Nat) (cs : List Char) :
    countBrackets depth maxDepth cs =
      (Scan.readAll ⟨.boundary, ⟨depth, maxDepth⟩⟩ cs).gauge.deepest := by
  fun_induction countBrackets depth maxDepth cs with
  | case1 depth maxDepth => rfl
  | case2 depth maxDepth c cs ho ih =>
    simpa [Scan.read, Mode.next, enter, ho, Gauge.mark] using ih
  | case3 depth maxDepth c cs ho hc ih =>
    simpa [Scan.read, Mode.next, enter, ho, hc, Gauge.mark] using ih
  | case4 depth maxDepth cs ho hc ih =>
    rw [ih]
    simpa [Scan.read, Mode.next, enter, ho, hc] using (quoted_skips '"' _ cs).symm
  | case5 depth maxDepth cs ho hc hq ih =>
    rw [ih]
    simpa [Scan.read, Mode.next, enter, ho, hc, hq] using (comment_skips _ cs).symm
  | case6 depth maxDepth c cs ho hc hq hh hp ih =>
    simp only [Bool.and_eq_true, beq_iff_eq] at hp
    obtain ⟨hl, hn⟩ := hp
    obtain ⟨rest, rfl⟩ : ∃ rest, cs = '\'' :: rest := by
      cases cs with
      | nil => simp at hn
      | cons d rest => exact ⟨rest, by simpa using hn⟩
    rw [ih]
    simpa [Scan.read, Mode.next, enter, ho, hc, hq, hh, hl] using (quoted_skips '\'' _ rest).symm
  | case7 depth maxDepth c cs ho hc hq hh hp hi ih =>
    rw [ih]
    by_cases hl : isLiteralPrefix c = true
    · have hn : cs.head? ≠ some '\'' := by simpa [hl] using hp
      have hw := (prefix_is_word ⟨depth, maxDepth⟩ cs hn).trans (word_skips _ cs)
      simpa [Scan.read, Mode.next, enter, ho, hc, hq, hh, hl] using hw.symm
    · simpa [Scan.read, Mode.next, enter, ho, hc, hq, hh, hl, hi] using (word_skips _ cs).symm
  | case8 depth maxDepth c cs ho hc hq hh hp hi ih =>
    have hl : isLiteralPrefix c = false := by
      by_contra hl
      exact hi (prefix_ident (by simpa using hl))
    simpa [Scan.read, Mode.next, enter, ho, hc, hq, hh, hl, hi] using ih

theorem max_depth_scan (source : String) :
    maxBracketDepth source = (Scan.start.readAll source.toList).gauge.deepest :=
  count_brackets_scan 0 0 source.toList

/-- Reading from a deeper start stays deeper: modes agree and each mark is monotone. -/
theorem read_all_below (m : Mode) {g h : Gauge} (hb : g.Below h) (cs : List Char) :
    (Scan.readAll ⟨m, g⟩ cs).gauge.Below (Scan.readAll ⟨m, h⟩ cs).gauge := by
  induction cs generalizing m g h with
  | nil => exact hb
  | cons c cs ih => exact ih _ (hb.mark _)

theorem deepest_le_read_all (s : Scan) (cs : List Char) :
    s.gauge.deepest ≤ (s.readAll cs).gauge.deepest := by
  induction cs generalizing s with
  | nil => exact Nat.le_refl _
  | cons c cs ih => exact Nat.le_trans (s.gauge.deepest_le_mark _) (ih (s.read c))

end VectorVrl.Proofs.Scanner
