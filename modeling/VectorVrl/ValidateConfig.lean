import VectorVrl.ConfigCheck
import VectorVrl.RemapChain

namespace VectorVrl
open Lib.OrderedDict Lib.Lines

/-- `str` of a Python value, which is the value itself for a text. -/
class PyText where
  str : PyVal → String
  str_text : ∀ s, str (.str s) = s

/-- What compiled, what did not, and what could not be checked. -/
structure ConfigCheck where
  ok : Bool
  checked : List TransformCheck
  skipped : List String
deriving DecidableEq, Repr

/-- Transforms whose VRL failed to compile. -/
def ConfigCheck.failures (report : ConfigCheck) : List TransformCheck :=
  report.checked.filter fun check => !check.ok

/-- Transforms whose VRL this build cannot compile, so cannot judge. -/
def ConfigCheck.unchecked (report : ConfigCheck) : List TransformCheck :=
  report.checked.filter fun check => check.uncheckedReason.isSome

section
variable [text : PyText] (validate : String → Except String Unit)

/-- The loop's body: the lists `checked` and `skipped` after one more transform. -/
def checkEntry (report : List TransformCheck × List String) (entry : String × PyVal) :
    List TransformCheck × List String :=
  match entry.2.asDict with
  | none => report
  | some transform =>
    if !isRemap transform then report
    else
      match (transform.get? "source").getD .none with
      | .none => (report.1, report.2 ++ [entry.1])
      | vrl =>
        let sourceText := text.str vrl
        (report.1 ++ [checkTransform entry.1 sourceText (validate sourceText)], report.2)

/-- Compile every remap transform's VRL in a Vector config, where `validate` says whether a source
compiles and with which error it does not. The config's keys are texts: others, and what YAML has
besides the types of `PyVal`, are left out. -/
def validateConfig (config : Dict String PyVal) : Except PyException ConfigCheck :=
  let found := (config.get? "transforms").getD .none
  let transforms := if found.truthy then found.asDict else some .empty
  match transforms with
  | none => .error (.valueError "'transforms' is present but is not a mapping")
  | some transforms =>
    let (checked, skipped) := transforms.items.foldl (checkEntry validate) ([], [])
    .ok ⟨checked.all (·.ok), checked, skipped⟩

/-- A remap transform by its name and the text of its source, if it has one. -/
structure Remap where
  name : String
  source : Option String

/-- The text of a transform's source. -/
def sourceOf (transform : Transform) : Option String :=
  match (transform.get? "source").getD .none with
  | .none => none
  | vrl => some (text.str vrl)

def remapOf (entry : String × PyVal) : Option Remap :=
  (entry.2.asDict.filter isRemap).map fun transform => ⟨entry.1, sourceOf transform⟩

/-- The remap transforms of a config, in its order. -/
def remaps (config : Dict String PyVal) : List Remap :=
  match (config.get? "transforms").bind PyVal.asDict with
  | none => []
  | some found => found.items.filterMap remapOf

end

namespace TransformCheck

def Passed (check : TransformCheck) : Prop :=
  check.ok = true ∧ check.error = none ∧ check.uncheckedReason = none

def Failed (check : TransformCheck) (error : String) : Prop :=
  check.ok = false ∧ check.error = some error ∧ check.uncheckedReason = none

def Unchecked (check : TransformCheck) (reason : String) : Prop :=
  check.ok = true ∧ check.error = none ∧ check.uncheckedReason = some reason

/-- The check has one of the three shapes and neither of the others. -/
def OneShape (check : TransformCheck) : Prop :=
  (check.Passed ∧ (∀ error, ¬check.Failed error) ∧ ∀ reason, ¬check.Unchecked reason) ∨
  (¬check.Passed ∧ (∃ error, check.Failed error) ∧ ∀ reason, ¬check.Unchecked reason) ∨
  (¬check.Passed ∧ (∀ error, ¬check.Failed error) ∧ ∃ reason, check.Unchecked reason)

end TransformCheck

/-- The left-out functions that an error's lines name, each once. -/
def LeftOut (error : String) (names : List String) : Prop :=
  names.Nodup ∧ ∀ name, name ∈ names ↔
    name ∈ sandboxed ∧ ∃ line ∈ splitLines error.toList, undefinedFunction line = some name

/-- The enrichment functions that a source names, or both where it names neither. -/
def NamesUsed (vrl : String) (used : List String) : Prop :=
  used.Sublist enrichmentFunctions ∧ ∀ fn ∈ enrichmentFunctions, fn ∈ used ↔
    fn.toList <:+: vrl.toList ∨ ∀ other ∈ enrichmentFunctions, ¬other.toList <:+: vrl.toList

/-- The reason in its own words: the functions used on tables that its lines miss, then the
functions left out, joined by a comma and a blank. -/
def Reason (vrl error reason : String) : Prop :=
  ∃ used names, NamesUsed vrl used ∧ LeftOut error names ∧
    reason = "; ".intercalate
      ((if (splitLines error.toList).any unknownTable then
          ["uses " ++ ", ".intercalate used ++ " against an enrichment table this process has not registered - Vector declares its tables in its own config; call register_enrichment_table to have this checked"]
        else []) ++
        if names = [] then []
        else
          ["uses " ++ ", ".intercalate names ++ ", which is deliberately not compiled in so caller-supplied VRL cannot reach the host or network"])

/-- A check says of a remap with a source what compiling the source gave. -/
def Verdict (validate : String → Except String Unit) (remap : Remap) (check : TransformCheck) :
    Prop :=
  check.name = remap.name ∧ ∃ vrl, remap.source = some vrl ∧
    ((validate vrl = .ok () ∧ check.Passed) ∨
      ∃ error, validate vrl = .error error ∧
        (check.Failed error ∨ ∃ reason, check.Unchecked reason ∧ Reason vrl error reason))

/-- A report accounts for each of the remaps once. -/
structure Accounts (validate : String → Except String Unit) (remaps : List Remap)
    (report : ConfigCheck) : Prop where
  skipped : report.skipped = (remaps.filter (·.source.isNone)).map Remap.name
  checked : List.Forall₂ (Verdict validate) (remaps.filter (·.source.isSome)) report.checked
  covered : (report.skipped ++ report.checked.map TransformCheck.name).Perm
    (remaps.map Remap.name)
  separate : (report.skipped ++ report.checked.map TransformCheck.name).Nodup
  shape : ∀ check ∈ report.checked, check.OneShape
  failures : report.failures.Sublist report.checked
  unchecked : report.unchecked.Sublist report.checked
  disjoint : report.failures.Disjoint report.unchecked
  ok_iff : report.ok = true ↔ report.failures = []

end VectorVrl
