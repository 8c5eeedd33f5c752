import Mathlib.Algebra.Ring.Int.Defs
import Mathlib.Algebra.Ring.Nat
import Mathlib.Data.Fin.VecNotation
import VectorVrl.Lib.Collect
import VectorVrl.Value

namespace VectorVrl
open Lib.OrderedMap Lib.Collect

/-- A number as serde_json keeps it: no float is infinite or NaN. -/
inductive Number where
  | posInt (n : UInt64)
  | negInt (i : Int64) (neg : i < 0)
  | float (f : F64) (finite : f.isFinite = true)

def i64Max : Nat := 2 ^ 63 - 1

namespace Number

def ofI64 (i : Int64) : Number :=
  if h : i < 0 then .negInt i h else .posInt i.toUInt64

/-- `Number::from_f64`, which takes finite floats only. -/
def fromF64 (f : F64) : Option Number :=
  if h : f.isFinite = true then some (.float f h) else none

def asI64 : Number → Option Int64
  | .posInt n => if n.toNat ≤ i64Max then some n.toInt64 else none
  | .negInt i _ => some i
  | .float _ _ => none

def asU64 : Number → Option UInt64
  | .posInt n => some n
  | .negInt _ _ => none
  | .float _ _ => none

def asF64 : Number → Option F64
  | .posInt n => some (F64.ofNat n.toNat)
  | .negInt i _ => some (F64.ofInt i.toInt)
  | .float f _ => some f

end Number

/-- A parsed JSON value. -/
inductive JsonValue where
  | null
  | bool (b : Bool)
  | number (n : Number)
  | string (s : String)
  | array {n : Nat} (items : Fin n → JsonValue)
  | object (keys : Keys String) (field : Fin keys.size → JsonValue)

def JsonValue.ofMap (m : BTreeMap JsonValue) : JsonValue := .object (Keys.ofMap m) (fieldOf m)

/-- The syntax of a JSON text: integer literals by their value, the members of
an object as they are written. `-0`, which is read as a float, is a decimal. -/
inductive JsonText where
  | null
  | bool (b : Bool)
  | integer (z : Int)
  | decimal (f : F64) (finite : f.isFinite = true)
  | string (s : String)
  | array {n : Nat} (items : Fin n → JsonText)
  | object {n : Nat} (names : Fin n → String) (members : Fin n → JsonText)

/-- serde_json as the crate uses it. `literalFloat` is the float an integer
literal outside the 64-bit ranges is read as. -/
class SerdeJson where
  read : String → Option JsonText
  literalFloat : Int → {f : F64 // f.isFinite = true}
  toText : JsonValue → String

/-- A parser of one document. -/
@[reducible] def readsOnly (text : String) (doc : JsonText) : SerdeJson where
  read s := if s = text then some doc else none
  literalFloat z :=
    if h : (F64.ofInt z).isFinite = true then ⟨F64.ofInt z, h⟩ else ⟨⟨0⟩, rfl⟩
  toText _ := ""

section
variable [serde : SerdeJson]

/-- An integer literal is exact in either 64-bit range and a float beyond both. -/
def Number.ofLiteral (z : Int) : Number :=
  if 0 ≤ z ∧ z < 2 ^ 64 then .posInt (UInt64.ofNat z.toNat)
  else if h : -2 ^ 63 ≤ z ∧ z < 0 then
    .negInt (Int64.ofInt z) (by
      rw [Int64.lt_iff_toInt_lt, Int64.toInt_ofInt_of_le (by omega) (by omega)]
      exact h.2)
  else .float (serde.literalFloat z).val (serde.literalFloat z).property

/-- The value a text stands for. Of several members with one name the last is kept. -/
def JsonText.value : JsonText → JsonValue
  | .null => .null
  | .bool b => .bool b
  | .integer z => .number (Number.ofLiteral z)
  | .decimal f finite => .number (.float f finite)
  | .string s => .string s
  | .array items => .array fun i => (items i).value
  | .object names members =>
    .ofMap (Std.ExtTreeMap.ofList (List.ofFn fun i => (names i, (members i).value)) compare)

def fromStr (text : String) : Option JsonValue := (serde.read text).map JsonText.value

end

/-- A JSON integer above `i64::MAX`, which VRL's signed 64-bit integer cannot hold. -/
structure IntegerOutOfRange where
  path : String
  value : UInt64

def IntegerOutOfRange.display (e : IntegerOutOfRange) : String :=
  s!"field `{e.path}` holds {e.value}, outside VRL's 64-bit signed integer range"

/-- `path` with `segment` in front. -/
def under (segment path : String) : String := segment ++ path

def underIndex {n : Nat} (i : Fin n) : String := s!"[{i.val}]"

def underKey (key : String) : String := s!".{key}"

/-- Convert a JSON value to a VRL value. -/
def jsonToVrlValue : JsonValue → Except IntegerOutOfRange Value
  | .null => .ok .null
  | .bool b => .ok (.boolean b)
  | .number n =>
    match n.asI64, n.asU64, n.asF64 with
    | some i, _, _ => .ok (.integer i)
    | none, some value, _ => .error ⟨"", value⟩
    | none, none, some f => .ok (.float (NotNan.newOrDefault f))
    | none, none, none => .ok .null
  | .string s => .ok (.bytes s.toUTF8)
  | .array items =>
    (collect fun i => (jsonToVrlValue (items i)).mapError fun e =>
      { e with path := under (underIndex i) e.path }).map .array
  | .object keys field =>
    (collect fun i => (jsonToVrlValue (field i)).mapError fun e =>
      { e with path := under (underKey (keys.name i)) e.path }).map
      fun values => .ofMap (toMap keys values)

/-- Convert a VRL value to a JSON value. Infinity has no JSON form, so Null is
a floor that an event never reaches. -/
def vrlValueToJson [lib : Libraries] : Value → JsonValue
  | .null => .null
  | .boolean b => .bool b
  | .integer i => .number (Number.ofI64 i)
  | .float f => ((Number.fromF64 f.val).map JsonValue.number).getD .null
  | .bytes b => .string (fromUtf8Lossy b)
  | .string s => .string s
  | .array items => .array fun i => vrlValueToJson (items i)
  | .object keys field => .ofMap (toMap keys fun i => vrlValueToJson (field i))
  | .timestamp ts => .string (lib.timestampText ts)
  | .regex pattern => .string pattern

/-- Path of the first infinite float in a value, or none when every float is finite. -/
def firstInfiniteFloat : Value → Option String
  | .float f => if f.val.isInfinite then some "" else none
  | .array items =>
    findMap fun i => (firstInfiniteFloat (items i)).map (under (underIndex i))
  | .object keys field =>
    findMap fun i => (firstInfiniteFloat (field i)).map (under (underKey (keys.name i)))
  | _ => none

@[simp] theorem of_map_to_map (keys : Keys String) (field : Fin keys.size → Value) :
    Value.ofMap (toMap keys field) = .object keys field :=
  congrArg (fun p : (ks : Keys String) × (Fin ks.size → Value) => Value.object p.1 p.2)
    (read_back keys field)

@[simp] theorem json_of_map_to_map (keys : Keys String) (field : Fin keys.size → JsonValue) :
    JsonValue.ofMap (toMap keys field) = .object keys field :=
  congrArg (fun p : (ks : Keys String) × (Fin ks.size → JsonValue) => JsonValue.object p.1 p.2)
    (read_back keys field)

end VectorVrl
