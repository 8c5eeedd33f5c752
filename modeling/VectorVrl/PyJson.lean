import VectorVrl.RemapChain

namespace VectorVrl
open Lib.OrderedDict

/-- Why `json.loads` gives no value. `surrogate` is not one of its errors but the end of what is
said of a text: it escapes a lone surrogate, which a Python string can hold and a `String`
cannot. -/
inductive LoadError where
  | jsonDecodeError
  | tooManyDigits
  | surrogate
  | outOfFuel
deriving DecidableEq, Repr

/-- `float` of the text of a JSON number. -/
class PyFloat where
  parse : List Char → F64

def isJsonSpace (c : Char) : Bool := c = ' ' || c = '\t' || c = '\n' || c = '\r'

def skipSpace (text : List Char) : List Char := text.dropWhile isJsonSpace

def hexDigit (c : Char) : Option Nat :=
  if '0' ≤ c && c ≤ '9' then some (c.toNat - '0'.toNat)
  else if 'a' ≤ c && c ≤ 'f' then some (c.toNat - 'a'.toNat + 10)
  else if 'A' ≤ c && c ≤ 'F' then some (c.toNat - 'A'.toNat + 10)
  else none

/-- The number four hexadecimal digits write, and what is after them. -/
def hexFour : List Char → Option (Nat × List Char)
  | a :: b :: c :: d :: rest => do
    let a ← hexDigit a
    let b ← hexDigit b
    let c ← hexDigit c
    let d ← hexDigit d
    return (((a * 16 + b) * 16 + c) * 16 + d, rest)
  | _ => none

/-- The character of an escape other than `\u`. -/
def shortEscape (c : Char) : Option Char :=
  if c = '"' || c = '\\' || c = '/' then some c
  else if c = 'b' then some '\x08'
  else if c = 'f' then some '\x0c'
  else if c = 'n' then some '\n'
  else if c = 'r' then some '\r'
  else if c = 't' then some '\t'
  else none

def isHighSurrogate (n : Nat) : Bool := 0xd800 ≤ n && n ≤ 0xdbff

def isLowSurrogate (n : Nat) : Bool := 0xdc00 ≤ n && n ≤ 0xdfff

/-- The character of a `\u` escape whose number is `n`, which may take a second
escape after it, and what is after them. -/
def unicodeEscape (n : Nat) (rest : List Char) : Except LoadError (Char × List Char) :=
  if isLowSurrogate n then .error .surrogate
  else if isHighSurrogate n then
    match rest with
    | s :: u :: more =>
      if s = '\\' && u = 'u' then
        match hexFour more with
        | none => .error .jsonDecodeError
        | some (low, rest) =>
          if isLowSurrogate low then
            .ok (Char.ofNat (0x10000 + (n - 0xd800) * 0x400 + (low - 0xdc00)), rest)
          else .error .surrogate
      else .error .surrogate
    | _ => .error .surrogate
  else .ok (Char.ofNat n, rest)

/-- An escape after its backslash. -/
def readEscape : List Char → Except LoadError (Char × List Char)
  | [] => .error .jsonDecodeError
  | c :: rest =>
    if c = 'u' then
      match hexFour rest with
      | none => .error .jsonDecodeError
      | some (n, rest) => unicodeEscape n rest
    else
      match shortEscape c with
      | none => .error .jsonDecodeError
      | some char => .ok (char, rest)

/-- A string after its opening quote: what it holds after `read`, and what is
after its closing quote. -/
def scanString : Nat → List Char → List Char → Except LoadError (List Char × List Char)
  | 0, _, _ => .error .outOfFuel
  | _ + 1, _, [] => .error .jsonDecodeError
  | fuel + 1, read, c :: rest =>
    if c = '"' then .ok (read, rest)
    else if c = '\\' then
      match readEscape rest with
      | .error e => .error e
      | .ok (char, rest) => scanString fuel (read ++ [char]) rest
    else if c.toNat < 0x20 then .error .jsonDecodeError
    else scanString fuel (read ++ [c]) rest

/-- A number's parts: its sign, the digits before the point, and the texts of
its fraction and its exponent. -/
structure NumberParts where
  minus : List Char
  digits : List Char
  fraction : List Char
  exponent : List Char

def NumberParts.text (parts : NumberParts) : List Char :=
  parts.minus ++ parts.digits ++ parts.fraction ++ parts.exponent

def matchMinus : List Char → List Char × List Char
  | [] => ([], [])
  | c :: rest => if c = '-' then (['-'], rest) else ([], c :: rest)

/-- A zero, or digits that do not start with one. -/
def matchDigits : List Char → Option (List Char × List Char)
  | [] => none
  | c :: rest =>
    if c = '0' then some (['0'], rest)
    else if c.isDigit then some ((c :: rest).span Char.isDigit) else none

def matchFraction : List Char → List Char × List Char
  | [] => ([], [])
  | c :: rest =>
    let (digits, after) := rest.span Char.isDigit
    if c = '.' && !digits.isEmpty then (c :: digits, after) else ([], c :: rest)

def matchSign : List Char → List Char × List Char
  | [] => ([], [])
  | c :: rest => if c = '+' || c = '-' then ([c], rest) else ([], c :: rest)

def matchExponent : List Char → List Char × List Char
  | [] => ([], [])
  | c :: rest =>
    let (sign, unsigned) := matchSign rest
    let (digits, after) := unsigned.span Char.isDigit
    if (c = 'e' || c = 'E') && !digits.isEmpty then (c :: (sign ++ digits), after)
    else ([], c :: rest)

def matchNumber (text : List Char) : Option (NumberParts × List Char) :=
  let (minus, rest) := matchMinus text
  (matchDigits rest).map fun (digits, rest) =>
    let (fraction, rest) := matchFraction rest
    let (exponent, rest) := matchExponent rest
    (⟨minus, digits, fraction, exponent⟩, rest)

/-- The longest integer `int` takes. -/
def maxIntDigits : Nat := 4300

def numberValue [float : PyFloat] (parts : NumberParts) : Except LoadError PyVal :=
  if parts.fraction = [] ∧ parts.exponent = [] then
    if parts.digits.length > maxIntDigits then .error .tooManyDigits
    else
      let n : Int := Nat.ofDigitChars 10 parts.digits 0
      .ok (.int (if parts.minus = [] then n else -n))
  else .ok (.float (float.parse parts.text))

/-- The names a text can give a value by. -/
def constants : List (String × PyVal) :=
  [("null", .none), ("true", .bool true), ("false", .bool false),
    ("NaN", .float ⟨0x7ff8000000000000⟩), ("Infinity", .float ⟨0x7ff0000000000000⟩),
    ("-Infinity", .float ⟨0xfff0000000000000⟩)]

/-- A value that is not a container or a string. -/
def scanAtom [PyFloat] (text : List Char) : Except LoadError (PyVal × List Char) :=
  match constants.find? fun entry => entry.1.toList <+: text with
  | some entry => .ok (entry.2, text.drop entry.1.length)
  | none =>
    match matchNumber text with
    | none => .error .jsonDecodeError
    | some (parts, rest) => (numberValue parts).map fun v => (v, rest)

namespace PyVal

def ofList (items : List PyVal) : PyVal := .list items.get

/-- A dict as a value. -/
def ofDict (d : Dict String PyVal) : PyVal :=
  .dict (d.items.map Prod.fst) d.distinct fun i =>
    (d.items.get (i.cast (by simp))).2

end PyVal

section
variable [PyFloat]

mutual

/-- The value a text starts with, and what is after it. -/
def scanOnce : Nat → List Char → Except LoadError (PyVal × List Char)
  | 0, _ => .error .outOfFuel
  | _ + 1, [] => .error .jsonDecodeError
  | fuel + 1, c :: rest =>
    if c = '"' then
      (scanString fuel [] rest).map fun (s, rest) => (.str (String.ofList s), rest)
    else if c = '\x7b' then
      match skipSpace rest with
      | [] => .error .jsonDecodeError
      | d :: after =>
        if d = '\x7d' then .ok (.ofDict .empty, after)
        else scanMembers fuel .empty (d :: after)
    else if c = '[' then
      match skipSpace rest with
      | [] => .error .jsonDecodeError
      | d :: after =>
        if d = ']' then .ok (.ofList [], after) else scanItems fuel [] (d :: after)
    else scanAtom (c :: rest)

/-- The items of an array after those `read`. -/
def scanItems : Nat → List PyVal → List Char → Except LoadError (PyVal × List Char)
  | 0, _, _ => .error .outOfFuel
  | fuel + 1, read, text =>
    match scanOnce fuel text with
    | .error e => .error e
    | .ok (item, rest) =>
      match skipSpace rest with
      | [] => .error .jsonDecodeError
      | c :: after =>
        if c = ']' then .ok (.ofList (read ++ [item]), after)
        else if c = ',' then scanItems fuel (read ++ [item]) (skipSpace after)
        else .error .jsonDecodeError

/-- The members of an object after those `read`; a name's last value is kept. -/
def scanMembers : Nat → Dict String PyVal → List Char → Except LoadError (PyVal × List Char)
  | 0, _, _ => .error .outOfFuel
  | _ + 1, _, [] => .error .jsonDecodeError
  | fuel + 1, read, quote :: text =>
    if quote ≠ '"' then .error .jsonDecodeError
    else
      match scanString fuel [] text with
      | .error e => .error e
      | .ok (name, rest) =>
        match skipSpace rest with
        | [] => .error .jsonDecodeError
        | colon :: rest =>
          if colon ≠ ':' then .error .jsonDecodeError
          else
            match scanOnce fuel (skipSpace rest) with
            | .error e => .error e
            | .ok (value, rest) =>
              let read := read.set (String.ofList name) value
              match skipSpace rest with
              | [] => .error .jsonDecodeError
              | c :: after =>
                if c = '\x7d' then .ok (.ofDict read, after)
                else if c = ',' then scanMembers fuel read (skipSpace after)
                else .error .jsonDecodeError

end

/-- `json.loads` of a text, the limit of the interpreter's stack left out. -/
def loads (text : List Char) : Except LoadError PyVal :=
  if text.head? = some '\uFEFF' then .error .jsonDecodeError
  else
    match scanOnce (2 * text.length + 1) (skipSpace text) with
    | .error e => .error e
    | .ok (value, rest) => if skipSpace rest = [] then .ok value else .error .jsonDecodeError

end

end VectorVrl
