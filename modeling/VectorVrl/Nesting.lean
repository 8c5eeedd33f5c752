import Mathlib.Data.List.Basic

namespace VectorVrl.Nesting

/-- Deepest bracket nesting a VRL program may use. -/
def maxVrlNestingDepth : Nat := 64

/-- VRL's own identifier-continue set, digits included. -/
def isIdentContinue (c : Char) : Bool :=
  c = '@' || c = '_' || ('a' ≤ c && c ≤ 'z') || ('A' ≤ c && c ≤ 'Z') || ('0' ≤ c && c ≤ '9')

def isOpener (c : Char) : Bool := c = '(' || c = '{' || c = '['

def isCloser (c : Char) : Bool := c = ')' || c = '}' || c = ']'

/-- The letters that make the next single quote open a literal. -/
def isLiteralPrefix (c : Char) : Bool := c = 'r' || c = 's' || c = 't'

/-- The characters left once a literal's closing `close` has been passed. An
unterminated literal leaves none. -/
def skipQuoted (close : Char) : List Char → List Char
  | [] => []
  | c :: cs =>
    if c = '\\' then
      match cs with
      | [] => []
      | _ :: rest => skipQuoted close rest
    else if c = close then cs
    else skipQuoted close cs

theorem skip_quoted_length (close : Char) (cs : List Char) :
    (skipQuoted close cs).length ≤ cs.length := by
  fun_induction skipQuoted close cs <;> simp_all <;> omega

/-- The counting loop, from a depth and the deepest level seen before it. -/
def countBrackets (depth maxDepth : Nat) : List Char → Nat
  | [] => maxDepth
  | c :: cs =>
    if isOpener c then countBrackets (depth + 1) (max maxDepth (depth + 1)) cs
    else if isCloser c then countBrackets (depth - 1) maxDepth cs
    else if c = '"' then countBrackets depth maxDepth (skipQuoted '"' cs)
    else if c = '#' then countBrackets depth maxDepth (cs.dropWhile (· ≠ '\n'))
    -- a prefix letter opens a literal only at the start of a token
    else if isLiteralPrefix c && cs.head? == some '\'' then
      countBrackets depth maxDepth (skipQuoted '\'' cs.tail)
    else if isIdentContinue c then countBrackets depth maxDepth (cs.dropWhile isIdentContinue)
    else countBrackets depth maxDepth cs
termination_by cs => cs.length
decreasing_by
  all_goals simp only [List.length_cons]
  all_goals have hq := skip_quoted_length '"' cs
  all_goals have ht := skip_quoted_length '\'' cs.tail
  all_goals have hn := (List.dropWhile_sublist (l := cs) (· ≠ '\n')).length_le
  all_goals have hi := (List.dropWhile_sublist (l := cs) isIdentContinue).length_le
  all_goals simp only [List.length_tail] at ht
  all_goals omega

/-- The deepest structural bracket nesting in `source`. -/
def maxBracketDepth (source : String) : Nat := countBrackets 0 0 source.toList

/-- Reject VRL source whose brackets nest deeper than `maxVrlNestingDepth`. -/
def checkNestingDepth (vrlCode : String) : Except String Unit :=
  let maxDepth := maxBracketDepth vrlCode
  if maxDepth > maxVrlNestingDepth then
    .error s!"VRL source nests {maxDepth} levels deep, exceeding the {maxVrlNestingDepth}-level limit"
  else .ok ()

theorem check_accepts_iff (vrlCode : String) :
    checkNestingDepth vrlCode = .ok () ↔ maxBracketDepth vrlCode ≤ maxVrlNestingDepth := by
  unfold checkNestingDepth
  dsimp only
  split <;> simp <;> omega

example : maxBracketDepth "([\")\", (1r'(2))])" = 4 := by decide +kernel

end VectorVrl.Nesting
