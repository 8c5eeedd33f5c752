import VectorVrl.Json
import VectorVrl.Nesting

namespace VectorVrl
open Lib.OrderedMap Nesting

abbrev SecretMap := BTreeMap String

/-- One event's mutable state for the duration of a VRL program. -/
structure EventTarget where
  value : Value
  metadata : Value
  secrets : SecretMap

/-- A target holding `value`, empty metadata and the given initial secrets. -/
def EventTarget.new (value : Value) (secrets : SecretMap) : EventTarget :=
  ⟨value, .ofMap ∅, secrets⟩

/-- Why a run stopped before the end of its program, by the engine's own text. -/
inductive Terminate where
  | abort (msg : String)
  | error (err : String)
  | interrupted
deriving DecidableEq, Repr

def Terminate.message : Terminate → String
  | .abort msg => s!"VRL aborted: {msg}"
  | .error err => s!"VRL error: {err}"
  | .interrupted => "VRL interrupted"

/-- One run of a compiled program: its own return value or why it stopped, and
the target it leaves either way. -/
abbrev Resolve := EventTarget → Except Terminate Value × EventTarget

/-- A compiled program, by its run on each event of a batch: what the clock and
the random functions return differs from event to event. -/
structure Program where
  resolve : Nat → Resolve

structure Span where
  start : Nat
  stop : Nat
deriving DecidableEq, Repr

structure Label where
  primary : Bool
  span : Span
deriving DecidableEq, Repr

structure Diagnostic where
  message : String
  labels : List Label
deriving DecidableEq, Repr

/-- The characters before byte `n` and those from it on; none inside a character. -/
def splitAtByte : List Char → Nat → Option (List Char × List Char)
  | cs, 0 => some ([], cs)
  | [], _ + 1 => none
  | c :: cs, n + 1 =>
    if c.utf8Size ≤ n + 1 then
      (splitAtByte cs (n + 1 - c.utf8Size)).map fun (before, after) => (c :: before, after)
    else none

/-- `str::get` on a byte range. -/
def getSpan (s : String) (span : Span) : Option String :=
  if span.start ≤ span.stop then do
    let (_, rest) ← splitAtByte s.toList span.start
    let (found, _) ← splitAtByte rest (span.stop - span.start)
    return String.ofList found
  else none

/-- A diagnostic's message, with the function name added to "call to undefined
function". -/
def diagnosticText (diagnostic : Diagnostic) (vrlCode : String) : String :=
  let message := diagnostic.message
  if message ≠ "call to undefined function" then message
  else
    let name := (diagnostic.labels.find? (·.primary)).bind fun label => getSpan vrlCode label.span
    match name with
    | some name => s!"{message} `{name}`"
    | none => message

/-- VRL's compiler, with the registry as it stands when it is called. -/
abbrev Compiler := String → Except (List Diagnostic) Program

def compileErrors (diagnostics : List Diagnostic) (vrlCode : String) : String :=
  "\n".intercalate (diagnostics.map fun diagnostic => diagnosticText diagnostic vrlCode)

def compileVrlProgram (compile : Compiler) (vrlCode : String) : Except String Program := do
  checkNestingDepth vrlCode
  (compile vrlCode).mapError fun diagnostics => compileErrors diagnostics vrlCode

/-- VRL execution result with error details. -/
structure VrlResult where
  success : Bool
  output : Option String
  error : Option String
  errorType : Option String
deriving DecidableEq, Repr

/-- Validate VRL syntax with the compiler that the runs use. -/
def validateVrl (compile : Compiler) (vrlCode : String) : VrlResult :=
  match compileVrlProgram compile vrlCode with
  | .ok _ => ⟨true, some "VRL syntax valid", none, none⟩
  | .error e => ⟨false, none, some e, some "compilation_error"⟩

/-- One event's VRL run: what the program produced, and the secrets it left. -/
structure EventOutcome where
  result : Except String Value
  secrets : SecretMap

section
variable [lib : Libraries] [SerdeJson]

/-- The event a text stands for: a string starting with an opening brace that
parses, else the text itself as `message`. -/
def eventValue (eventData : String) : Except IntegerOutOfRange Value :=
  let parsed := if (trim eventData.toList).head? = some '\x7b' then fromStr eventData else none
  match parsed.map jsonToVrlValue with
  | some (.ok value) => .ok value
  | some (.error outOfRange) => .error outOfRange
  | none => .ok (.ofMap ((∅ : ObjectMap).insert "message" (.ofStr eventData)))

/-- What a run that ended by itself yields for its event. -/
def finishEvent (value : Value) : Except String Value :=
  match value, firstInfiniteFloat value with
  | .object keys field, none => .ok (.object keys field)
  | .object _ _, some path =>
    .error s!"VRL error: field `{path}` is an infinite float, which has no JSON form"
  | other, _ =>
    .error s!"VRL error: the program replaced the event with a value of type {lib.kindStr other}, and an event must be an object"

/-- Execute one run of a program on a single event. -/
def executeVrlOnEvent (run : Resolve) (eventData : String) (secrets : SecretMap) : EventOutcome :=
  match eventValue eventData with
  | .error outOfRange => ⟨.error s!"VRL error: input {outOfRange.display}", secrets⟩
  | .ok value =>
    let (resolved, target) := run (EventTarget.new value secrets)
    -- the program's own return value is discarded
    let result := match resolved with
      | .ok _ => finishEvent target.value
      | .error terminate => .error terminate.message
    ⟨result, target.secrets⟩

/-- Compile `vrlCode` and run it over each event, each from a copy of `secrets`. -/
def runEvents (compile : Compiler) (vrlCode : String) (events : List String)
    (secrets : SecretMap) : Except String (List EventOutcome) := do
  let program ← compileVrlProgram compile vrlCode
  return events.mapIdx fun i event => executeVrlOnEvent (program.resolve i) event secrets

end

/-- A Python object that a result dict holds. -/
inductive PyObject where
  | none
  | bool (b : Bool)
  | int (i : Int)
  | float (f : F64)
  | str (s : String)
deriving DecidableEq

/-- A Python dict with string keys, its insertion order left out. -/
abbrev PyDict := BTreeMap PyObject

section
variable [Libraries] [serde : SerdeJson]

/-- A top-level field as Python gets it: scalars native, containers as JSON text. -/
def fieldToPy : JsonValue → PyObject
  | .string s => .str s
  | .number n =>
    match n.asI64 with
    | some i => .int i.toInt
    | none =>
      match n.asF64 with
      | some f => .float f
      | none => .none
  | .bool b => .bool b
  | .null => .none
  | .array items => .str (serde.toText (.array items))
  | .object keys field => .str (serde.toText (.object keys field))

/-- Convert one event's outcome into the dict the Python caller gets back. -/
def vrlOutcomeToPyDict (outcome : Except String Value) (original : String) : PyDict :=
  match outcome with
  | .ok vrlResult =>
    match vrlValueToJson vrlResult with
    | .object keys field => toMap keys fun i => fieldToPy (field i)
    | _ => ∅
  | .error e => ((∅ : PyDict).insert "error" (.str e)).insert "original" (.str original)

/-- The exceptions the Python entry points raise. -/
inductive PyErr where
  | valueError (text : String)
  | runtimeError (text : String)
deriving DecidableEq, Repr

def compileError (error : String) : PyErr := .valueError s!"VRL compilation failed: {error}"

def runEventsPy (compile : Compiler) (vrlCode : String) (events : List String)
    (secrets : SecretMap) : Except PyErr (List EventOutcome) :=
  (runEvents compile vrlCode events secrets).mapError compileError

def executeVrl (compile : Compiler) (vrlCode : String) (inputData : List String)
    (secrets : Option SecretMap) : Except PyErr (List PyDict) := do
  let outcomes ← runEventsPy compile vrlCode inputData (secrets.getD ∅)
  return (inputData.zip outcomes).map fun (input, outcome) =>
    vrlOutcomeToPyDict outcome.result input

/-- The two entries of each dict `execute_vrl_with_secrets` returns. -/
structure EventWithSecrets where
  event : PyDict
  secrets : SecretMap

def executeVrlWithSecrets (compile : Compiler) (vrlCode : String) (inputData : List String)
    (secrets : Option SecretMap) : Except PyErr (List EventWithSecrets) := do
  let outcomes ← runEventsPy compile vrlCode inputData (secrets.getD ∅)
  return (inputData.zip outcomes).map fun (input, outcome) =>
    ⟨vrlOutcomeToPyDict outcome.result input, outcome.secrets⟩

end

end VectorVrl
