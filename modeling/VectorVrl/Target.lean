import VectorVrl.Lib.Effects
import VectorVrl.Engine
import VectorVrl.Registry

namespace VectorVrl
open Lib.Effects

inductive PathPrefix where
  | event
  | metadata
deriving DecidableEq, Repr

/-- Paths into a VRL value as the engine resolves them. `getMut` is the value a
path leads to and the whole after `write` has been used on it. -/
class ValuePaths where
  Path : Type
  insert : Value → Path → Value → Value
  get : Value → Path → Option Value
  getMut : Value → Path → (Value → Value) → Option Value × Value
  remove : Value → Path → Bool → Option Value × Value

structure OwnedTargetPath [paths : ValuePaths] where
  pathPrefix : PathPrefix
  path : paths.Path

section
variable [paths : ValuePaths]

namespace EventTarget

def targetInsert (self : EventTarget) (targetPath : OwnedTargetPath) (value : Value) :
    Except String Unit × EventTarget :=
  match targetPath.pathPrefix with
  | .event => (.ok (), { self with value := paths.insert self.value targetPath.path value })
  | .metadata => (.ok (), { self with metadata := paths.insert self.metadata targetPath.path value })

def targetGet (self : EventTarget) (targetPath : OwnedTargetPath) : Except String (Option Value) :=
  match targetPath.pathPrefix with
  | .event => .ok (paths.get self.value targetPath.path)
  | .metadata => .ok (paths.get self.metadata targetPath.path)

def targetGetMut (self : EventTarget) (targetPath : OwnedTargetPath) (write : Value → Value) :
    Except String (Option Value) × EventTarget :=
  match targetPath.pathPrefix with
  | .event =>
    let (found, value) := paths.getMut self.value targetPath.path write
    (.ok found, { self with value })
  | .metadata =>
    let (found, metadata) := paths.getMut self.metadata targetPath.path write
    (.ok found, { self with metadata })

def targetRemove (self : EventTarget) (targetPath : OwnedTargetPath) (compact : Bool) :
    Except String (Option Value) × EventTarget :=
  match targetPath.pathPrefix with
  | .event =>
    let (removed, value) := paths.remove self.value targetPath.path compact
    (.ok removed, { self with value })
  | .metadata =>
    let (removed, metadata) := paths.remove self.metadata targetPath.path compact
    (.ok removed, { self with metadata })

def getSecret (self : EventTarget) (key : String) : Option String := self.secrets[key]?

def insertSecret (self : EventTarget) (key value : String) : EventTarget :=
  { self with secrets := self.secrets.insert key value }

def removeSecret (self : EventTarget) (key : String) : EventTarget :=
  { self with secrets := self.secrets.erase key }

end EventTarget

/-- What a program can do to its target. -/
inductive TargetOp where
  | insert (targetPath : OwnedTargetPath) (value : Value)
  | get (targetPath : OwnedTargetPath)
  | getMut (targetPath : OwnedTargetPath) (write : Value → Value)
  | remove (targetPath : OwnedTargetPath) (compact : Bool)
  | getSecret (key : String)
  | insertSecret (key value : String)
  | removeSecret (key : String)

def TargetOp.Answer : TargetOp → Type
  | .insert _ _ => Except String Unit
  | .get _ | .getMut _ _ | .remove _ _ => Except String (Option Value)
  | .getSecret _ => Option String
  | .insertSecret _ _ | .removeSecret _ => Unit

def EventTarget.perform : (op : TargetOp) → EventTarget → op.Answer × EventTarget
  | .insert targetPath value, self => self.targetInsert targetPath value
  | .get targetPath, self => (self.targetGet targetPath, self)
  | .getMut targetPath write, self => self.targetGetMut targetPath write
  | .remove targetPath compact, self => self.targetRemove targetPath compact
  | .getSecret key, self => (self.getSecret key, self)
  | .insertSecret key value, self => ((), self.insertSecret key value)
  | .removeSecret key, self => ((), self.removeSecret key)

/-- A program, or a part of one that ends in `ρ`, by the operations it performs on its target. -/
abbrev Script (ρ : Type) := Prog TargetOp TargetOp.Answer ρ

/-- An expression of a program. -/
abbrev TargetExpr := Script (Except ExpressionError Value)

/-- The run of a whole program on one event. -/
def runScript (script : Script (Except Terminate Value)) : Resolve := fun target =>
  let ran := script.run EventTarget.perform target
  (ran.result, ran.state)

section
variable [Libraries]

/-- The text of an argument. -/
def resolveText (argument : TargetExpr) (next : String → TargetExpr) : TargetExpr :=
  argument.bind fun
    | .error e => .stop (.error e)
    | .ok value =>
      match value.tryBytesUtf8Lossy with
      | .error e => .stop (.error (.error e))
      | .ok text => next text

/-- A secret as VRL sees it. -/
def secretValue : Option String → Value
  | some secret => .ofStr secret
  | none => .null

/-- `get_secret(key)`. -/
def getSecretFn (key : TargetExpr) : TargetExpr :=
  resolveText key fun key => .perform (.getSecret key) fun secret => .stop (.ok (secretValue secret))

/-- `set_secret(key, secret)`. -/
def setSecretFn (key secret : TargetExpr) : TargetExpr :=
  resolveText key fun key => resolveText secret fun secret =>
    .perform (.insertSecret key secret) fun _ => .stop (.ok .null)

/-- `remove_secret(key)`. -/
def removeSecretFn (key : TargetExpr) : TargetExpr :=
  resolveText key fun key => .perform (.removeSecret key) fun _ => .stop (.ok .null)

end

/-- An operation on one of the two values of a target. -/
inductive ValueOp where
  | insert (path : paths.Path) (value : Value)
  | get (path : paths.Path)
  | getMut (path : paths.Path) (write : Value → Value)
  | remove (path : paths.Path) (compact : Bool)

def ValueOp.apply (v : Value) : ValueOp → Value
  | .insert path value => paths.insert v path value
  | .get _ => v
  | .getMut path write => (paths.getMut v path write).2
  | .remove path compact => (paths.remove v path compact).2

/-- The operation as one on the value under a prefix, if its path has that prefix. -/
def TargetOp.under (pathPrefix : PathPrefix) : TargetOp → Option ValueOp
  | .insert p value => if p.pathPrefix = pathPrefix then some (.insert p.path value) else none
  | .get p => if p.pathPrefix = pathPrefix then some (.get p.path) else none
  | .getMut p write => if p.pathPrefix = pathPrefix then some (.getMut p.path write) else none
  | .remove p compact => if p.pathPrefix = pathPrefix then some (.remove p.path compact) else none
  | .getSecret _ | .insertSecret _ _ | .removeSecret _ => none

/-- What a target holds under a prefix. -/
def EventTarget.under (self : EventTarget) : PathPrefix → Value
  | .event => self.value
  | .metadata => self.metadata

inductive SecretOp where
  | set (key value : String)
  | remove (key : String)
deriving DecidableEq, Repr

def SecretOp.apply (secrets : SecretMap) : SecretOp → SecretMap
  | .set key value => secrets.insert key value
  | .remove key => secrets.erase key

def SecretOp.key : SecretOp → String
  | .set key _ | .remove key => key

def TargetOp.onSecrets : TargetOp → Option SecretOp
  | .insertSecret key value => some (.set key value)
  | .removeSecret key => some (.remove key)
  | _ => none

end

/-- The latest value set for a key and not removed since, or what it held before. -/
def latestSecret (key : String) (seed : Option String) (ops : List SecretOp) : Option String :=
  ops.foldl (fun held op =>
    match op with
    | .set other value => if other = key then some value else held
    | .remove other => if other = key then none else held) seed

end VectorVrl
