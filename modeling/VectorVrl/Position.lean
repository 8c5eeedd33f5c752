import VectorVrl.Engine

namespace VectorVrl

inductive Step where
  | key (k : String)
  | index (i : Nat)
deriving DecidableEq, Repr

def Value.at : Value → List Step → Option Value
  | v, [] => some v
  | .array (n := n) items, .index i :: rest =>
    if h : i < n then (items ⟨i, h⟩).at rest else none
  | .object keys field, .key k :: rest =>
    match keys.find? k with
    | some i => (field i).at rest
    | none => none
  | _, _ :: _ => none

def JsonValue.at : JsonValue → List Step → Option JsonValue
  | j, [] => some j
  | .array (n := n) items, .index i :: rest =>
    if h : i < n then (items ⟨i, h⟩).at rest else none
  | .object keys field, .key k :: rest =>
    match keys.find? k with
    | some i => (field i).at rest
    | none => none
  | _, _ :: _ => none

def Step.segment : Step → String
  | .key k => s!".{k}"
  | .index i => s!"[{i}]"

def pathText : List Step → String
  | [] => ""
  | s :: rest => s.segment ++ pathText rest

/-- The order a container's parts are visited in. -/
def Step.Before : Step → Step → Prop
  | .index i, .index j => i < j
  | .key k, .key l => k < l
  | _, _ => False

/-- An integer above `i64::MAX` at a position, and no such integer at a
position that comes before it depth first. -/
structure JsonValue.FirstOutOfRange (j : JsonValue) (path : List Step) (n : UInt64) : Prop where
  held : j.at path = some (.number (.posInt n))
  above : i64Max < n.toNat
  first : ∀ other m, j.at other = some (.number (.posInt m)) → i64Max < m.toNat →
    other = path ∨ List.Lex Step.Before path other

/-- The last member written under `k`, which is the one a parser keeps. -/
def lastNamed {n : Nat} (names : Fin n → String) (k : String) : Option (Fin n) :=
  (List.finRange n).reverse.find? fun i => names i = k

/-- What a JSON text holds at a position once later members have replaced
earlier ones of the same name. -/
def JsonText.held : JsonText → List Step → Option JsonText
  | t, [] => some t
  | .array (n := n) items, .index i :: rest =>
    if h : i < n then (items ⟨i, h⟩).held rest else none
  | .object names members, .key k :: rest =>
    match lastNamed names k with
    | some i => (members i).held rest
    | none => none
  | _, _ :: _ => none

/-- The integer literal `z` is written at a position, replaced or not. -/
inductive JsonText.Writes : JsonText → List Step → Int → Prop where
  | here (z : Int) : Writes (.integer z) [] z
  | item {n : Nat} {items : Fin n → JsonText} {rest : List Step} {z : Int} (i : Fin n)
      (inner : Writes (items i) rest z) : Writes (.array items) (.index i.val :: rest) z
  | member {n : Nat} {names : Fin n → String} {members : Fin n → JsonText}
      {rest : List Step} {z : Int} (i : Fin n) (inner : Writes (members i) rest z) :
      Writes (.object names members) (.key (names i) :: rest) z

def Value.isObject : Value → Bool
  | .object _ _ => true
  | _ => false

def Value.HoldsInfinity (v : Value) : Prop :=
  ∃ path f, v.at path = some (.float f) ∧ f.val.isInfinite = true

/-- An infinite float at a position, and none at a position that comes before it
depth first. -/
structure Value.FirstInfinite (v : Value) (path : List Step) : Prop where
  held : ∃ f, v.at path = some (.float f) ∧ f.val.isInfinite = true
  first : ∀ other f, v.at other = some (.float f) → f.val.isInfinite = true →
    other = path ∨ List.Lex Step.Before path other

/-- Wherever a path turns into a container's part, the parts before that one
hold no infinite float at any depth. -/
def Value.EarlierFinite (v : Value) (path : List Step) : Prop :=
  ∀ above s rest t part, path = above ++ s :: rest → t.Before s →
    v.at (above ++ [t]) = some part → ¬part.HoldsInfinity

section
variable [lib : Libraries] [serde : SerdeJson]

def finalValue (run : Resolve) (eventData : String) (secrets : SecretMap) : Option Value :=
  match eventValue eventData with
  | .error _ => none
  | .ok value =>
    match run (EventTarget.new value secrets) with
    | (.ok _, target) => some target.value
    | (.error _, _) => none

/-- The event's outcome is one and the same error whatever program it is given. -/
def FailsBeforeRunning (eventData : String) : Prop :=
  ∃ e, ∀ run secrets, executeVrlOnEvent run eventData secrets = ⟨.error e, secrets⟩

/-- The program ends normally and leaves an object, free of infinity, with a
field of its own named `error`. -/
def LeavesErrorField (run : Resolve) (eventData : String) (secrets : SecretMap) : Prop :=
  ∃ keys field, finalValue run eventData secrets = some (.object keys field) ∧
    "error" ∈ keys.names ∧ ¬(Value.object keys field).HoldsInfinity

def eventDict (run : Resolve) (eventData : String) (secrets : SecretMap) : PyDict :=
  vrlOutcomeToPyDict (executeVrlOnEvent run eventData secrets).result eventData

/-- The JSON image of a value has null exactly where the value does. -/
def SameNulls (v : Value) : Prop :=
  ∀ path, (vrlValueToJson v).at path = some .null ↔ v.at path = some .null

/-- A field as Python is promised it: scalars by their own value, containers by
the text of a JSON image with no null of its own. -/
def ShowsAs : Value → PyObject → Prop
  | .null, o => o = .none
  | .boolean b, o => o = .bool b
  | .integer i, o => o = .int i.toInt
  | .float f, o => o = .float f.val
  | .bytes b, o => o = .str (fromUtf8Lossy b)
  | .string s, o => o = .str s
  | .timestamp ts, o => o = .str (lib.timestampText ts)
  | .regex pattern, o => o = .str pattern
  | .array items, o =>
    o = .str (serde.toText (vrlValueToJson (.array items))) ∧ SameNulls (.array items)
  | .object keys field, o =>
    o = .str (serde.toText (vrlValueToJson (.object keys field))) ∧ SameNulls (.object keys field)

end

end VectorVrl
