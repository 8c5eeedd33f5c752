import Mathlib.Data.List.Basic
import VectorVrl.Lib.OrderedMap

namespace VectorVrl
open Lib.OrderedMap

abbrev BTreeMap (α : Type) := Std.ExtTreeMap String α compare

/-- A 64-bit float by its IEEE 754 bits. -/
structure F64 where
  bits : BitVec 64
deriving DecidableEq, Repr

namespace F64

def exponent (f : F64) : BitVec 11 := f.bits.extractLsb' 52 11

def mantissa (f : F64) : BitVec 52 := f.bits.extractLsb' 0 52

def isNan (f : F64) : Bool := f.exponent = BitVec.allOnes 11 && f.mantissa ≠ 0

def isInfinite (f : F64) : Bool := f.exponent = BitVec.allOnes 11 && f.mantissa = 0

def isFinite (f : F64) : Bool := f.exponent ≠ BitVec.allOnes 11

/-- `n` rounded to the nearest float, ties to even; `n` is below 2^1023. -/
def ofNat (n : Nat) : F64 :=
  if n = 0 then ⟨0⟩
  else
    let e := n.log2
    let significand :=
      if e ≤ 52 then n <<< (52 - e)
      else
        let kept := n >>> (e - 52)
        let half := 1 <<< (e - 53)
        let dropped := n - kept <<< (e - 52)
        if dropped > half || (dropped = half && kept % 2 = 1) then kept + 1 else kept
    -- a carry out of the significand moves into the exponent
    ⟨BitVec.ofNat 64 ((e + 1022) <<< 52 + significand)⟩

def ofInt (i : Int) : F64 :=
  if i < 0 then ⟨(ofNat i.natAbs).bits ||| (1 <<< 63)⟩ else ofNat i.natAbs

end F64

/-- A float that is never NaN. -/
structure NotNan where
  val : F64
  notNan : val.isNan = false
deriving DecidableEq

/-- `NotNan::new`, with 0.0 for NaN. -/
def NotNan.newOrDefault (f : F64) : NotNan :=
  if h : f.isNan = false then ⟨f, h⟩ else ⟨⟨0⟩, by decide⟩

/-- An instant in nanoseconds since the epoch. -/
structure Timestamp where
  nanos : Int
deriving DecidableEq, Repr

/-- A VRL value. An array is its length and items, an object its keys in order
and a value for each. -/
inductive Value where
  | null
  | boolean (b : Bool)
  | integer (i : Int64)
  | float (f : NotNan)
  | bytes (b : ByteArray)
  | string (s : String)
  | array {n : Nat} (items : Fin n → Value)
  | object (keys : Keys String) (field : Fin keys.size → Value)
  | timestamp (ts : Timestamp)
  | regex (pattern : String)

abbrev ObjectMap := BTreeMap Value

def Value.ofMap (m : ObjectMap) : Value := .object (Keys.ofMap m) (fieldOf m)

/-- `Value::from` on text, which stores its UTF-8 bytes. -/
def Value.ofStr (s : String) : Value := .bytes s.toUTF8

/-- What the crate takes from other libraries as it finds it: Unicode tables, what a value's kind
is called, and the text forms of floats, times and IP addresses. -/
class Libraries where
  isPrintable : Char → Bool
  toLowercase : String → String
  replaceInvalidUtf8 : ByteArray → String
  floatText : F64 → String
  timestampText : Timestamp → String
  parseIp : String → Option (BitVec 32 ⊕ BitVec 128)
  kindStr : Value → String
  kindText : Value → String

/-- The libraries on ASCII text without floats, times or addresses. -/
@[reducible] def asciiLibraries : Libraries where
  isPrintable c := 0x20 ≤ c.toNat && c.toNat < 0x7f
  toLowercase s := String.ofList (s.toList.map Char.toLower)
  replaceInvalidUtf8 _ := "\uFFFD"
  floatText _ := ""
  timestampText _ := ""
  parseIp _ := none
  kindStr
    | .null => "null"
    | .boolean _ => "boolean"
    | .integer _ => "integer"
    | .float _ => "float"
    | .bytes _ | .string _ | .regex _ => "string"
    | .array _ => "array"
    | .object _ _ => "map"
    | .timestamp _ => "timestamp"
  kindText _ := "any"

section
variable [lib : Libraries]

/-- `String::from_utf8_lossy`, which leaves valid UTF-8 as it is. -/
def fromUtf8Lossy (b : ByteArray) : String :=
  match String.fromUTF8? b with
  | some s => s
  | none => lib.replaceInvalidUtf8 b

/-- `Value::try_bytes_utf8_lossy`. -/
def Value.tryBytesUtf8Lossy : Value → Except String String
  | .bytes b => .ok (fromUtf8Lossy b)
  | .string s => .ok s
  | v => .error s!"expected string, got {lib.kindText v}"

end

/-- Control characters and the two line separators, which no font prints. -/
def isControl (c : Char) : Bool :=
  c.toNat < 0x20 || (0x7f ≤ c.toNat && c.toNat < 0xa0) || c.toNat = 0x2028 || c.toNat = 0x2029

/-- A character inside the `{:?}` form of a string. -/
def escapeDebug [lib : Libraries] (c : Char) : List Char :=
  if c = '\x00' then ['\\', '0']
  else if c = '\t' then ['\\', 't']
  else if c = '\r' then ['\\', 'r']
  else if c = '\n' then ['\\', 'n']
  else if c = '"' || c = '\\' then ['\\', c]
  else if !isControl c && lib.isPrintable c then [c]
  else '\\' :: 'u' :: '\x7b' :: (Nat.toDigits 16 c.toNat ++ ['\x7d'])

/-- The `{:?}` form of a string. -/
def debugStr [Libraries] (s : String) : String :=
  String.ofList ('"' :: (s.toList.flatMap escapeDebug ++ ['"']))

/-- Unicode white space. -/
def isWhitespace (c : Char) : Bool :=
  (0x9 ≤ c.toNat && c.toNat ≤ 0xd) || c.toNat = 0x20 || c.toNat = 0x85 || c.toNat = 0xa0 ||
  c.toNat = 0x1680 || (0x2000 ≤ c.toNat && c.toNat ≤ 0x200a) || c.toNat = 0x2028 ||
  c.toNat = 0x2029 || c.toNat = 0x202f || c.toNat = 0x205f || c.toNat = 0x3000

def trim (cs : List Char) : List Char :=
  ((cs.dropWhile isWhitespace).reverse.dropWhile isWhitespace).reverse

end VectorVrl
