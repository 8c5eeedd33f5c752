import Mathlib.Data.List.Infix
import VectorVrl.Engine
import VectorVrl.Lib.Lines
import VectorVrl.Registry

namespace VectorVrl
open Lib.Lines

/-- The functions that need tables registered in this process. -/
def enrichmentFunctions : List String :=
  ["get_enrichment_table_record", "find_enrichment_table_records"]

/-- The functions left out so that VRL cannot read the host or reach the network. -/
def sandboxed : List String :=
  ["get_env_var", "encode_proto", "parse_proto", "parse_etld", "validate_json_schema",
    "get_hostname", "get_timezone_name", "http_request", "dns_lookup", "reverse_dns"]

def undefinedPrefix : String := "call to undefined function `"

/-- `fullmatch` of the undefined-function pattern: the name between the backticks. -/
def undefinedFunction (line : List Char) : Option String :=
  if undefinedPrefix.toList <+: line then
    let (name, rest) := (line.drop undefinedPrefix.length).span (· ≠ '\u0060')
    if name ≠ [] ∧ rest = ['\u0060'] then some (String.ofList name) else none
  else none

def unknownTablePrefix : String :=
  "function compilation error: error[E111] unknown enrichment table "

/-- `match` of the unknown-table pattern. -/
def unknownTable (line : List Char) : Bool := unknownTablePrefix.toList <+: line

/-- The loop over the lines of an error: what was left out, and whether a table
was missing, or none at the first line that is a real error. -/
def excuse : List (List Char) → List String → Bool → Option (List String × Bool)
  | [], leftOut, unregistered => some (leftOut, unregistered)
  | line :: rest, leftOut, unregistered =>
    match (undefinedFunction line).filter (· ∈ sandboxed) with
    | some name => excuse rest (if name ∈ leftOut then leftOut else leftOut ++ [name]) unregistered
    | none => if unknownTable line then excuse rest leftOut true else none

def unregisteredReason (vrl : String) : String :=
  let named := enrichmentFunctions.filter fun fn => fn.toList <:+: vrl.toList
  let used := ", ".intercalate (if named = [] then enrichmentFunctions else named)
  s!"uses {used} against an enrichment table this process has not registered - Vector declares its tables in its own config; call register_enrichment_table to have this checked"

def leftOutReason (leftOut : List String) : String :=
  let used := ", ".intercalate leftOut
  s!"uses {used}, which is deliberately not compiled in so caller-supplied VRL cannot reach the host or network"

/-- Name why this build cannot check `vrl`, or none if it is a real error. -/
def uncompilableReason (vrl : String) (error : Option String) : Option String :=
  match error with
  | none => none
  | some error =>
    if error = "" then none
    else
      match excuse (splitLines error.toList) [] false with
      | none => none
      | some (leftOut, unregistered) =>
        let reasons := (if unregistered then [unregisteredReason vrl] else []) ++
          (if leftOut = [] then [] else [leftOutReason leftOut])
        let text := "; ".intercalate reasons
        if text = "" then none else some text

/-- One remap transform's compile result. -/
structure TransformCheck where
  name : String
  ok : Bool
  error : Option String
  uncheckedReason : Option String
deriving DecidableEq, Repr

/-- What `validate_config` reports for one transform, from the error its VRL compiles with. -/
def checkTransform (name vrl : String) (result : Except String Unit) : TransformCheck :=
  match result with
  | .ok _ => ⟨name, true, none, none⟩
  | .error error =>
    let reason := uncompilableReason vrl (some error)
    ⟨name, reason.isSome, if reason.isSome then none else some error, reason⟩

/-- The text VRL's compiler puts before the message of a failed function compilation. -/
def compilationPrefix (code : Nat) : String := s!"function compilation error: error[E{code}] "

/-- Where a compiler diagnostic comes from. -/
inductive Report where
  | undefinedFunction (labels : List Label)
  | unknownTable (e : UnknownTable)
  | other (message : String) (labels : List Label)

/-- The function an undefined-function diagnostic points at. -/
def calledName (labels : List Label) (vrlCode : String) : Option String :=
  (labels.find? (·.primary)).bind fun label => getSpan vrlCode label.span

def Unbroken (text : List Char) : Prop := ∀ c ∈ text, isLineBreak c = false

instance (text : List Char) : Decidable (Unbroken text) :=
  List.decidableBAll (fun c => isLineBreak c = false) text

/-- A line that excuses its source from checking. -/
def ExcusableLine (line : List Char) : Prop :=
  (∃ name ∈ sandboxed, undefinedFunction line = some name) ∨ unknownTable line = true

instance (line : List Char) : Decidable (ExcusableLine line) :=
  inferInstanceAs (Decidable (_ ∨ _))

namespace Report

def diagnostic [Libraries] : Report → Diagnostic
  | .undefinedFunction labels => ⟨"call to undefined function", labels⟩
  | .unknownTable e => ⟨compilationPrefix e.code ++ e.display, [⟨true, ⟨0, 0⟩⟩]⟩
  | .other message labels => ⟨message, labels⟩

/-- The diagnostic is one this build cannot judge: a function left out, or a
table nothing registered. -/
def Excusable (vrlCode : String) : Report → Prop
  | .undefinedFunction labels => ∃ name ∈ sandboxed, calledName labels vrlCode = some name
  | .unknownTable _ => True
  | .other _ _ => False

/-- What VRL's compiler promises of its diagnostics: the function it points at
is an identifier, and its other messages are single lines that read like
neither of the two excuses. -/
def AsDocumented (vrlCode : String) : Report → Prop
  | .undefinedFunction labels =>
    ∀ name, calledName labels vrlCode = some name → Unbroken name.toList
  | .unknownTable _ => True
  | .other message _ =>
    message ≠ "" ∧ message ≠ "call to undefined function" ∧ Unbroken message.toList ∧
      ¬ExcusableLine message.toList

/-- The lines a diagnostic takes up in an error text. -/
def lines [Libraries] (r : Report) (vrlCode : String) (last : Bool) : List (List Char) :=
  splitLines ((diagnosticText r.diagnostic vrlCode).toList ++ if last then [] else ['\n'])

end Report

/-- The lines that the registered names, as listed at the end of a message,
break off it; a newline follows unless the message is the last. -/
def furtherLines (e : UnknownTable) (last : Bool) : List (List Char) :=
  (splitLines ((", ".intercalate e.registered).toList ++ if last then [] else ['\n'])).tail

/-- All that the listed names break off reads as an excuse too. -/
def NamesHarmless (reports : List Report) : Prop :=
  ∀ before e after, reports = before ++ .unknownTable e :: after →
    ∀ line ∈ furtherLines e after.isEmpty, ExcusableLine line

end VectorVrl
