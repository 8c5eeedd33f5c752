import VectorVrl.PyJson

namespace VectorVrl

/-- What Python's Unicode tables say of texts and characters. -/
class PyChars where
  lower : List Char → List Char
  isDigit : Char → Bool
  decimal : Char → Option Nat
  decimal_ascii : ∀ c : Char, c.toNat < 0x80 →
    decimal c = if c.isDigit then some (c.toNat - '0'.toNat) else none
  decimal_not_space : ∀ c, isWhitespace c = true → decimal c = none

@[reducible] def asciiChars : PyChars where
  lower text := text.map Char.toLower
  isDigit := Char.isDigit
  decimal c := if c.isDigit then some (c.toNat - '0'.toNat) else none
  decimal_ascii _ _ := rfl
  decimal_not_space c h := by
    refine if_neg ?_
    intro hdigit
    simp only [Char.isDigit, Bool.and_eq_true, decide_eq_true_eq, ge_iff_le,
      UInt32.le_iff_toNat_le, Char.toNat_val] at hdigit
    have hlow : '0'.toNat = 48 := rfl
    have hhigh : '9'.toNat = 57 := rfl
    simp only [isWhitespace, Bool.or_eq_true, Bool.and_eq_true, decide_eq_true_eq] at h
    omega

def versionParts (version : List Char) : List (List Char) := version.splitOn '.'

section
variable [chars : PyChars]

def pyIsDigit (text : List Char) : Bool := !text.isEmpty && text.all chars.isDigit

def splitSign : List Char → Bool × List Char
  | [] => (false, [])
  | c :: rest =>
    if c = '-' then (true, rest) else if c = '+' then (false, rest) else (false, c :: rest)

def digitsValue (digits : List Nat) : Nat := digits.foldl (fun n d => n * 10 + d) 0

/-- `int` of a text; none for a `ValueError`. -/
def pyInt (text : List Char) : Option Int :=
  let (negative, unsigned) := splitSign (trim text)
  let groups := unsigned.splitOn '_'
  if groups.any List.isEmpty then none
  else
    (groups.flatten.mapM chars.decimal).bind fun digits =>
      if digits.length > maxIntDigits then none
      else if negative then some (-digitsValue digits) else some (digitsValue digits)

/-- `[int(x) for x in version.split(".")]`; none for a `ValueError`. -/
def versionNumbers (version : List Char) : Option (List Int) := (versionParts version).mapM pyInt

end

end VectorVrl
