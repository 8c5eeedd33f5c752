import VectorVrl.Lib.Linearize
import VectorVrl.Vector

namespace VectorVrl

/-- What threads call on a pipeline they share. -/
inductive VectorCall where
  | initializePipeline
  | getStats
  | processLogs (call : Call)

inductive VectorAnswer where
  | initialized
  | stats (stats : Stats)
  | processed (result : Except PyErr (List PyDict))

/-- A shared pipeline with what the calls other than `process_logs` returned. -/
structure CalledVector where
  shared : Shared
  answer : Nat → Option VectorAnswer

/-- The next step of a call, with the clock as it is then. -/
structure VectorAct where
  call : Nat
  now : Instant

/-- The step that comes next in a `process_logs` call. -/
def Phase.next (phase : Phase) (c : Nat) : Option Act :=
  match phase with
  | .waiting => some (.check c)
  | .checked => some (.run c)
  | .ran _ => some (.add c)
  | .returned _ => none

/-- The `process_logs` call of a number; the others have none to speak of. -/
def VectorCall.batch : VectorCall → Call
  | .processLogs call => call
  | .initializePipeline | .getStats => ⟨[], "", fun _ => .error []⟩

section
variable [Libraries] [SerdeJson]

/-- A call made alone, at a reading of the clock. -/
def Vector.perform (self : Vector) (now : Instant) : VectorCall → VectorAnswer × Vector
  | .initializePipeline => (.initialized, self.initializePipeline now)
  | .getStats => (.stats (self.getStats now), self)
  | .processLogs call =>
    let (result, after) := self.processLogs call.compile call.logs call.vrlCode
    (.processed result, after)

namespace CalledVector

def start : CalledVector := ⟨.start, fun _ => none⟩

omit [Libraries] [SerdeJson] in
/-- What a call is bound to return. -/
def bound (calls : Nat → VectorCall) (s : CalledVector) (c : Nat) : Option VectorAnswer :=
  match calls c with
  | .processLogs _ =>
    match s.shared.phase c with
    | .returned result => some (.processed result)
    | _ => none
  | .initializePipeline | .getStats => s.answer c

def step (calls : Nat → VectorCall) (s : CalledVector) (act : VectorAct) : Option CalledVector :=
  let c := act.call
  let answered := fun act answer =>
    if (s.answer c).isNone then
      (s.shared.step (fun c => (calls c).batch) act).map fun shared =>
        ⟨shared, fun other => if other = c then some answer else s.answer other⟩
    else none
  match calls c with
  | .initializePipeline => answered (.initializePipeline act.now) .initialized
  | .getStats => answered (.getStats act.now) (.stats (s.shared.vector.getStats act.now))
  | .processLogs _ =>
    ((s.shared.phase c).next c).bind fun next =>
      (s.shared.step (fun c => (calls c).batch) next).map fun shared => { s with shared }

/-- A call takes effect with the step that fixes what it returns. -/
def effect (calls : Nat → VectorCall) (s : CalledVector) (act : VectorAct) :
    Option (Nat × Instant) :=
  if (s.bound calls act.call).isNone then
    ((s.step calls act).bind fun t => t.bound calls act.call).map fun _ => (act.call, act.now)
  else none

def called (calls : Nat → VectorCall) :
    Lib.Linearize.Shared CalledVector VectorAct Instant VectorAnswer where
  step := step calls
  effect := effect calls
  started s c := (s.bound calls c).isSome ∨ s.shared.phase c ≠ .waiting
  bound := bound calls

end CalledVector

end

end VectorVrl
