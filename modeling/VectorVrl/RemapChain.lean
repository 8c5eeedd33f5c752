import VectorVrl.Lib.Chain
import VectorVrl.Lib.OrderedDict
import VectorVrl.Value
import Mathlib.Data.Fin.VecNotation

namespace VectorVrl
open Lib.Chain Lib.OrderedDict

/-- A Python value as a config file can hold it. Keys that are no texts are left out, and so are
the dates, sets and bytes that YAML has besides. -/
inductive PyVal where
  | none
  | bool (b : Bool)
  | int (i : Int)
  | float (f : F64)
  | str (s : String)
  | list {n : Nat} (items : Fin n → PyVal)
  | dict (keys : List String) (distinct : keys.Nodup) (value : Fin keys.length → PyVal)

/-- The exceptions `remap_chain` can end in, a `TypeError` without the interpreter's text. -/
inductive PyException where
  | valueError (text : String)
  | typeError
deriving DecidableEq, Repr

/-- What `str.isprintable` says of the characters beyond ASCII. -/
class PyUnicode where
  isPrintable : Char → Bool

def hexPadded (width n : Nat) : List Char :=
  let digits := Nat.toDigits 16 n
  List.replicate (width - digits.length) '0' ++ digits

/-- A character inside the `repr` of a string. -/
def reprChar [unicode : PyUnicode] (quote c : Char) : List Char :=
  if c = quote || c = '\\' then ['\\', c]
  else if c = '\n' then ['\\', 'n']
  else if c = '\r' then ['\\', 'r']
  else if c = '\t' then ['\\', 't']
  else if c.toNat < 0x20 || c.toNat = 0x7f then '\\' :: 'x' :: hexPadded 2 c.toNat
  else if c.toNat < 0x7f || unicode.isPrintable c then [c]
  else if c.toNat < 0x100 then '\\' :: 'x' :: hexPadded 2 c.toNat
  else if c.toNat < 0x10000 then '\\' :: 'u' :: hexPadded 4 c.toNat
  else '\\' :: 'U' :: hexPadded 8 c.toNat

/-- `repr` of a string: in single quotes, unless only these occur in it. -/
def pyRepr [PyUnicode] (s : String) : String :=
  let quote := if '\'' ∈ s.toList ∧ '"' ∉ s.toList then '"' else '\''
  String.ofList (quote :: (s.toList.flatMap (reprChar quote) ++ [quote]))

namespace PyVal

theorem entries_distinct {keys : List String} (distinct : keys.Nodup)
    (value : Fin keys.length → PyVal) :
    ((List.ofFn fun i => (keys.get i, value i)).map Prod.fst).Nodup := by
  rw [List.map_ofFn]
  have hkeys : List.ofFn (Prod.fst ∘ fun i => (keys.get i, value i)) = keys := List.ofFn_get keys
  rw [hkeys]
  exact distinct

/-- The value as a dict, if it is one. -/
def asDict : PyVal → Option (Dict String PyVal)
  | .dict keys distinct value =>
    some ⟨List.ofFn fun i => (keys.get i, value i), entries_distinct distinct value⟩
  | _ => Option.none

def asStr : PyVal → Option String
  | .str s => some s
  | _ => Option.none

def truthy : PyVal → Bool
  | .none => false
  | .bool b => b
  | .int i => i ≠ 0
  | .float f => f.bits.extractLsb' 0 63 ≠ 0
  | .str s => s ≠ ""
  | .list (n := n) _ => n ≠ 0
  | .dict keys _ _ => keys ≠ []

/-- What a `for` loop goes through. -/
def iterate : PyVal → Except PyException (List PyVal)
  | .str s => .ok (s.toList.map fun c => .str (String.singleton c))
  | .list items => .ok (List.ofFn items)
  | .dict keys _ _ => .ok (keys.map .str)
  | _ => .error .typeError

/-- `i in transforms` with the name it is; a list or a dict has no hash. -/
def amongNames (names : List String) : PyVal → Except PyException (Option String)
  | .str s => .ok (if s ∈ names then some s else Option.none)
  | .list _ | .dict _ _ _ => .error .typeError
  | _ => .ok Option.none

end PyVal

/-- A transform's options. -/
abbrev Transform := Dict String PyVal

def isRemap (transform : Transform) : Bool :=
  match transform.get? "type" with
  | some (.str kind) => kind = "remap"
  | _ => false

def checkRemap [PyUnicode] (name : String) (transform : PyVal) : Except PyException Transform :=
  match transform.asDict with
  | none => .error (.valueError s!"transform {pyRepr name} is not a remap")
  | some transform =>
    if !isRemap transform then .error (.valueError s!"transform {pyRepr name} is not a remap")
    else
      match transform.get? "source" with
      | some (.str _) => .ok transform
      | _ => .error (.valueError s!"remap {pyRepr name} has no inline source")

/-- The loop that refuses every transform that is not an inline remap. -/
def inlineRemaps [PyUnicode] (found : Dict String PyVal) :
    Except PyException (List (String × Transform)) :=
  found.items.mapM fun entry =>
    (checkRemap entry.1 entry.2).map fun transform => (entry.1, transform)

/-- The transforms among a transform's inputs. -/
def transformInputs (names : List String) (transform : Transform) :
    Except PyException (List String) :=
  let inputs := (transform.get? "inputs").getD .none
  if !inputs.truthy then .ok []
  else do
    let items ← inputs.iterate
    let found ← items.mapM (PyVal.amongNames names)
    return found.reduceOption

/-- The dict `upstream`, of the transforms before each. -/
def upstreams (transforms : List (String × Transform)) :
    Except PyException (List (String × List String)) :=
  transforms.mapM fun entry =>
    (transformInputs (transforms.map Prod.fst) entry.2).map fun before => (entry.1, before)

def notOneChain : PyException :=
  .valueError "the remap transforms must form one chain through `inputs`"

/-- The checks on `upstream` and the walk through it. -/
def chainOrder (fuel : Nat) (upstream : List (String × List String)) :
    Option (Except PyException (List String)) :=
  let heads := (upstream.filter fun entry => entry.2.isEmpty).map Prod.fst
  let following := fun name => (upstream.filter fun entry => name ∈ entry.2).map Prod.fst
  match heads with
  | [head] =>
    if upstream.any (fun entry => entry.2.length > 1) ||
        upstream.any (fun entry => (following entry.1).length > 1) then
      some (.error notOneChain)
    else
      (follow following fuel [head]).map fun order =>
        if order.length ≠ upstream.length then .error notOneChain else .ok order
  | _ => some (.error notOneChain)

/-- Each name of the order with its transform. -/
def inOrder (transforms : List (String × Transform)) (order : List String) :
    List (String × Transform) :=
  order.filterMap fun name => (transforms.lookup name).map fun transform => (name, transform)

/-- The remap transforms of a Vector config whose keys are texts, in the order events pass them;
`none` when the walk has not ended after `fuel` rounds. -/
def remapChain [PyUnicode] (fuel : Nat) (config : Dict String PyVal) :
    Option (Except PyException (List (String × Transform))) :=
  match (config.get? "transforms").bind PyVal.asDict with
  | none | some ⟨[], _⟩ => some (.error (.valueError "the config has no transforms to run"))
  | some found =>
    match inlineRemaps found with
    | .error e => some (.error e)
    | .ok transforms =>
      match upstreams transforms with
      | .error e => some (.error e)
      | .ok upstream =>
        (chainOrder fuel upstream).map fun order => order.map (inOrder transforms)

/-- The texts a component takes its events from, when its inputs are missing or texts alone. -/
def inputTexts (options : Transform) : Option (List String) :=
  match options.get? "inputs" with
  | none | some .none => some []
  | some (.list items) => (List.ofFn items).mapM PyVal.asStr
  | _ => none

/-- The entry is this transform, a remap with its program inline. -/
def InlineRemap (entry : String × PyVal) (given : String × Transform) : Prop :=
  entry.1 = given.1 ∧ entry.2.asDict = some given.2 ∧ isRemap given.2 ∧
    ∃ source, given.2.get? "source" = some (.str source)

/-- The config's transforms are these, inline remaps each, and one at least. -/
def InlineRemaps (config : Dict String PyVal) (transforms : Dict String Transform) : Prop :=
  ∃ found, (config.get? "transforms").bind PyVal.asDict = some found ∧ found.items ≠ [] ∧
    List.Forall₂ InlineRemap found.items transforms.items

/-- What each transform lists as its inputs. -/
def TextInputs (transforms : Dict String Transform) (inputs : String → List String) : Prop :=
  ∀ name transform, (name, transform) ∈ transforms.items →
    inputTexts transform = some (inputs name)

/-- The transforms among a transform's inputs. -/
def transformsAmong (transforms : Dict String Transform) (inputs : String → List String)
    (name : String) : List String :=
  (inputs name).filter fun text => text ∈ transforms.keys

end VectorVrl
