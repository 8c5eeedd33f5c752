import VectorVrl.Vector

namespace VectorVrl
open Lib.Runs

def Act.isInitialize : Act → Bool
  | .initializePipeline _ => true
  | _ => false

/-- The steps after the most recent initialize, or all of them if there was none. -/
def sinceInitialize (trace : List Act) : List Act :=
  (trace.reverse.takeWhile fun act => !act.isInitialize).reverse

/-- The calls whose add step is among these steps. -/
def added (trace : List Act) : List Nat :=
  trace.filterMap fun act =>
    match act with
    | .add c => some c
    | _ => none

/-- The calls whose reading of the initialized flag is among these steps. -/
def started (trace : List Act) : List Nat :=
  trace.filterMap fun act =>
    match act with
    | .check c => some c
    | _ => none

section
variable [Libraries] [SerdeJson]

def okCount (call : Call) : Nat :=
  match Shared.outcomesOf call with
  | .ok outcomes => outcomes.countP (·.result.isOk)
  | .error _ => 0

def errorCount (call : Call) : Nat :=
  match Shared.outcomesOf call with
  | .ok outcomes => outcomes.countP (!·.result.isOk)
  | .error _ => 0

def byteCount (call : Call) : Nat := (call.logs.map String.utf8ByteSize).sum

/-- The counters read as the exact sums over `adding`, cut off at the counters' maximum. -/
structure Totalled (calls : Nat → Call) (adding : List Nat) (stats : Stats) : Prop where
  processed : stats.eventsProcessed = min (adding.map fun c => okCount (calls c)).sum u64Max
  errors : stats.errors = min (adding.map fun c => errorCount (calls c)).sum u64Max
  bytes : stats.bytesProcessed = min (adding.map fun c => byteCount (calls c)).sum u64Max

/-- The counters cover only calls that started in the run they describe. -/
structure Unmixed (calls : Nat → Call) (trace : List Act) (s : Shared) : Prop where
  startedSince : ∀ c ∈ added (sinceInitialize trace), c ∈ started (sinceInitialize trace)
  totalled : ∀ now, Totalled calls
    ((added (sinceInitialize trace)).filter (· ∈ started (sinceInitialize trace)))
    (s.vector.getStats now)

/-- A call that passed the check and will still add to the counters. -/
def Shared.Pending (calls : Nat → Call) (s : Shared) (c : Nat) : Prop :=
  (s.phase c = .checked ∧ ∃ outcomes, Shared.outcomesOf (calls c) = .ok outcomes) ∨
  ∃ outcomes, s.phase c = .ran outcomes

/-- Every initialize of a history is taken while no call is pending. -/
def InitializesIdle (calls : Nat → Call) (trace : List Act) : Prop :=
  ∀ before now after s, trace = before ++ .initializePipeline now :: after →
    exec (Shared.step calls) .start before = some s → ∀ c, ¬s.Pending calls c

end

end VectorVrl
