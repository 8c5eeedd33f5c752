import VectorVrl.Lib.LineEdits
import VectorVrl.Lib.OrderedDict
import VectorVrl.Runner

namespace VectorVrl
open Lib.OrderedDict Lib.LineEdits

/-- A version requirement, which has no character that a replacement text would read. -/
structure Requirement where
  text : List Char
  plain : ∀ c ∈ text, c ≠ '\\' ∧ c ≠ '\n' ∧ c ≠ '\r'

/-- A dependency in Vector's workspace: its version, or a table that may hold one. -/
inductive VectorDep where
  | text (version : Requirement)
  | table (version : Option Requirement)

def VectorDep.version : VectorDep → Option Requirement
  | .text version => some version
  | .table version => version

def keyDeps : List String :=
  ["tokio", "serde", "serde_json", "toml", "uuid", "anyhow", "futures", "indexmap"]

def necessaryFeatures (dep : String) : String :=
  if dep = "serde_json" then ", features = [\"std\"]"
  else if dep = "serde" then ", features = [\"derive\", \"std\"]"
  else if dep = "indexmap" then ", features = [\"std\"]"
  else if dep = "futures" then ", features = [\"std\"]"
  else if dep = "tokio" then ", features = [\"full\"]"
  else if dep = "toml" then ", features = [\"parse\", \"serde\"]"
  else ""

def replacementValue (dep : String) (version : Requirement) : List Char :=
  " \x7b version = \"".toList ++ version.text ++ "\", default-features = false".toList ++
    (necessaryFeatures dep).toList ++ " \x7d".toList

def replacement (dep : String) (version : Requirement) : List Char :=
  dep.toList ++ " =".toList ++ replacementValue dep version

/-- `re.sub` of `^dep\s*=.*$` line by line; the blanks of `\s*` may go over line ends. -/
def subDep (dep : String) (new content : List Char) : List Char :=
  ['\n'].intercalate (passFrom
    (fun lines => (sets pyIsSpace '=' dep.toList lines).map fun more => (new, more)) 0
    (content.splitOn '\n'))

def updatedContent (workspaceDeps : Dict String VectorDep) (content : List Char) : List Char :=
  keyDeps.foldl (fun content dep =>
    match (workspaceDeps.get? dep).bind VectorDep.version with
    | none => content
    | some version => subDep dep (replacement dep version) content) content

/-- Vector's `Cargo.toml`: not there, not to be read or parsed, or with these workspace
dependencies. -/
inductive VectorCargo where
  | missing
  | invalid
  | workspace (dependencies : Dict String VectorDep)

/-- Sync vector-bindings dependencies to match Vector's: what is in the bindings' `Cargo.toml`
after it, if there is one. -/
def syncVectorDependencies (vectorCargo : VectorCargo) (bindingsCargo : Option (List Char)) :
    Option (List Char) :=
  match vectorCargo with
  | .missing | .invalid => bindingsCargo
  | .workspace dependencies =>
    if dependencies.items = [] then bindingsCargo
    else bindingsCargo.map fun content => updatedContent dependencies (universalNewlines content)

def vectorVersion (vectorCargo : VectorCargo) (dep : String) : Option Requirement :=
  match vectorCargo with
  | .missing | .invalid => none
  | .workspace dependencies =>
    if dep ∈ keyDeps then (dependencies.get? dep).bind VectorDep.version else none

def manifestLines (content : List Char) : List (List Char) :=
  (universalNewlines content).splitOn '\n'

/-- Lines that set a dependency: the name, blanks and an `=`. The blanks may go over line ends,
and then more lines go with the first. -/
def SetsDep (dep : String) (lines : List (List Char)) (more : Nat) : Prop :=
  ∃ gap value, ['\n'].intercalate lines = dep.toList ++ (gap ++ '=' :: value) ∧
    (∀ c ∈ gap, pyIsSpace c = true) ∧ gap.count '\n' = more

/-- Lines and what they are after a sync, one by one: those that set a dependency of Vector's
become its replacement, the others are kept. -/
inductive Revised (vectorCargo : VectorCargo) : List (List Char) → List (List Char) → Prop
  | nil : Revised vectorCargo [] []
  | kept {line : List Char} {rest after : List (List Char)} :
      (∀ dep version more, vectorVersion vectorCargo dep = some version →
        ¬SetsDep dep (line :: rest) more) →
      Revised vectorCargo rest after → Revised vectorCargo (line :: rest) (line :: after)
  | set {dep : String} {version : Requirement} {line : List Char} {rest after : List (List Char)}
      {more : Nat} :
      vectorVersion vectorCargo dep = some version → SetsDep dep (line :: rest) more →
      Revised vectorCargo (rest.drop more) after →
      Revised vectorCargo (line :: rest) (replacement dep version :: after)

/-- What a sync makes of a manifest: its lines are revised, those that set a dependency of
Vector's say its version, and there is nothing more to do. -/
structure Synced (vectorCargo : VectorCargo) (content after : List Char) : Prop where
  revised : Revised vectorCargo (manifestLines content) (manifestLines after)
  named : ∀ dep version, vectorVersion vectorCargo dep = some version →
    ∀ before line rest more, manifestLines after = before ++ line :: rest →
      SetsDep dep (line :: rest) more → line = replacement dep version
  settled : syncVectorDependencies vectorCargo (some after) = some after

end VectorVrl
