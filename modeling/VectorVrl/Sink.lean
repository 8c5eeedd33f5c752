import VectorVrl.Runner

namespace VectorVrl
open Lib.OrderedMap Lib.Lines

/-- The digits of a number: a zero, or a run that does not start with one. -/
def DigitRun (digits : List Char) : Prop :=
  digits = ['0'] ∨ ∃ c rest, digits = c :: rest ∧ c ≠ '0' ∧ ∀ d ∈ digits, d.isDigit = true

/-- Nothing, or a mark and digits after it. -/
def MarkedDigits (marks : List (List Char)) (text : List Char) : Prop :=
  text = [] ∨ ∃ mark ∈ marks, ∃ digits, digits ≠ [] ∧ (∀ d ∈ digits, d.isDigit = true) ∧
    text = mark ++ digits

/-- The parts make a JSON number. -/
structure NumberParts.WellFormed (parts : NumberParts) : Prop where
  minus : parts.minus = [] ∨ parts.minus = ['-']
  digits : DigitRun parts.digits
  fraction : MarkedDigits [['.']] parts.fraction
  exponent : MarkedDigits [['e'], ['e', '-'], ['e', '+']] parts.exponent

/-- The texts the sink writes finite floats as: JSON numbers with a fraction or
an exponent, which Python reads back as the floats they were written from. -/
class FloatTexts extends PyFloat where
  write : F64 → NumberParts
  wellFormed : ∀ f, f.isFinite = true → (write f).WellFormed
  marked : ∀ f, f.isFinite = true → (write f).fraction ≠ [] ∨ (write f).exponent ≠ []
  parse_write : ∀ f, f.isFinite = true → parse (write f).text = f

/-- A character of a string: escaped if it is the quote, the backslash or below
U+0020, else as it is. -/
def sinkEscape (c : Char) : List Char :=
  if c = '"' || c = '\\' then ['\\', c]
  else if c = '\x08' then ['\\', 'b']
  else if c = '\t' then ['\\', 't']
  else if c = '\n' then ['\\', 'n']
  else if c = '\x0c' then ['\\', 'f']
  else if c = '\r' then ['\\', 'r']
  else if c.toNat < 0x20 then '\\' :: 'u' :: hexPadded 4 c.toNat
  else [c]

def sinkString (s : String) : List Char := '"' :: (s.toList.flatMap sinkEscape ++ ['"'])

def commas (parts : List (List Char)) : List Char := [','].intercalate parts

section
variable [floats : FloatTexts]

def sinkNumber : Number → NumberParts
  | .posInt n => ⟨[], Nat.toDigits 10 n.toNat, [], []⟩
  | .negInt i _ => ⟨['-'], Nat.toDigits 10 i.toInt.natAbs, [], []⟩
  | .float f _ => floats.write f

/-- The JSON text of a value, without spaces. -/
def sinkJson : JsonValue → List Char
  | .null => "null".toList
  | .bool b => if b then "true".toList else "false".toList
  | .number n => (sinkNumber n).text
  | .string s => sinkString s
  | .array items => '[' :: (commas (List.ofFn fun i => sinkJson (items i)) ++ [']'])
  | .object keys field =>
    '\x7b' :: (commas (List.ofFn fun i =>
      sinkString (keys.name i) ++ ':' :: sinkJson (field i)) ++ ['\x7d'])

end

/-- A JSON object. -/
structure JsonObject where
  keys : Keys String
  field : Fin keys.size → JsonValue

def JsonObject.value (object : JsonObject) : JsonValue := .object object.keys object.field

/-- What the file sink writes: each object as one line. -/
def sinkText [FloatTexts] (objects : List JsonObject) : List Char :=
  objects.flatMap fun object => sinkJson object.value ++ ['\n']

/-- A JSON value as Python has it. -/
def pyValue : JsonValue → PyVal
  | .null => .none
  | .bool b => .bool b
  | .number (.posInt n) => .int n.toNat
  | .number (.negInt i _) => .int i.toInt
  | .number (.float f _) => .float f
  | .string s => .str s
  | .array items => .list fun i => pyValue (items i)
  | .object keys field => .dict keys.names keys.nodup fun i => pyValue (field i)

/-- Every string in a value, at any depth, the names of its fields included. -/
def JsonValue.strings : JsonValue → List String
  | .string s => [s]
  | .array items => (List.ofFn fun i => (items i).strings).flatten
  | .object keys field => keys.names ++ (List.ofFn fun i => (field i).strings).flatten
  | _ => []

/-- A character that ends a line for `str.splitlines` and that the sink does not escape. -/
def isRawBreak (c : Char) : Bool := c = '\u0085' || c = '\u2028' || c = '\u2029'

/-- No string of the object holds a break that stays raw. -/
def JsonObject.Unbroken (object : JsonObject) : Prop :=
  ∀ s ∈ object.value.strings, ∀ c ∈ s.toList, isRawBreak c = false

end VectorVrl
