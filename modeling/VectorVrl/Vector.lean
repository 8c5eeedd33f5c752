import VectorVrl.Engine
import VectorVrl.Lib.Runs
import VectorVrl.Lib.Saturating

namespace VectorVrl
open Lib.Saturating Lib.Runs

def u64Max : Nat := 2 ^ 64 - 1

/-- `Saturating<u64>`. -/
abbrev Counter := Sat u64Max

/-- A reading of the process clock, in nanoseconds. -/
abbrev Instant := Nat

structure Vector where
  initialized : Bool
  eventsProcessed : Counter
  errors : Counter
  bytesProcessed : Counter
  startedAt : Option Instant

/-- What `get_stats` returns, with the uptime in nanoseconds. -/
structure Stats where
  eventsProcessed : Nat
  bytesProcessed : Nat
  errors : Nat
  uptime : Nat
deriving DecidableEq, Repr

/-- The batch totals a `process_logs` call keeps to itself until its batch is done. -/
structure Totals where
  processed : Counter
  errors : Counter
  bytes : Counter

/-- Count one event, whose length always fits 64 bits. -/
def Totals.count (totals : Totals) (log : String) (outcome : EventOutcome) : Totals :=
  let bytes := totals.bytes + .of log.utf8ByteSize
  match outcome.result with
  | .ok _ => { totals with processed := totals.processed + .of 1, bytes }
  | .error _ => { totals with errors := totals.errors + .of 1, bytes }

namespace Vector

def new : Vector := ⟨false, 0, 0, 0, none⟩

/-- The `initialize` method: starts the uptime clock and zeroes the counters. -/
def initializePipeline (_self : Vector) (now : Instant) : Vector := ⟨true, 0, 0, 0, some now⟩

def getStats (self : Vector) (now : Instant) : Stats :=
  ⟨self.eventsProcessed.val, self.bytesProcessed.val, self.errors.val,
    match self.startedAt with
    | some started => now - started
    | none => 0⟩

def checkInitialized (self : Vector) : Except PyErr Unit :=
  if self.initialized then .ok () else .error (.runtimeError "Vector not initialized")

section
variable [Libraries] [SerdeJson]

/-- Convert a batch's outcomes, counting as it goes. -/
def convertBatch (logs : List String) (outcomes : List EventOutcome) : Totals × List PyDict :=
  (logs.zip outcomes).foldl (fun (totals, results) (log, outcome) =>
    (totals.count log outcome, results ++ [vrlOutcomeToPyDict outcome.result log]))
    (⟨0, 0, 0⟩, [])

/-- Convert a batch and add its totals to the counters. -/
def finishBatch (self : Vector) (logs : List String) (outcomes : List EventOutcome) :
    List PyDict × Vector :=
  let (totals, results) := convertBatch logs outcomes
  (results, { self with
    eventsProcessed := self.eventsProcessed + totals.processed
    errors := self.errors + totals.errors
    bytesProcessed := self.bytesProcessed + totals.bytes })

/-- `process_logs` when nothing else runs meanwhile. -/
def processLogs (self : Vector) (compile : Compiler) (logs : List String) (vrlCode : String) :
    Except PyErr (List PyDict) × Vector :=
  match self.checkInitialized, runEventsPy compile vrlCode logs ∅ with
  | .error e, _ | .ok _, .error e => (.error e, self)
  | .ok _, .ok outcomes =>
    let (results, after) := self.finishBatch logs outcomes
    (.ok results, after)

end

end Vector

/-- One `process_logs` call: its arguments, and the compiler with the registry
as it stands when the call compiles. -/
structure Call where
  logs : List String
  vrlCode : String
  compile : Compiler

/-- How far a `process_logs` call has come. -/
inductive Phase where
  | waiting
  | checked
  | ran (outcomes : List EventOutcome)
  | returned (result : Except PyErr (List PyDict))

/-- A pipeline shared between threads, with every call ever made on it. -/
structure Shared where
  vector : Vector
  phase : Nat → Phase

/-- The steps threads take. Calls are numbered across all threads. -/
inductive Act where
  | initializePipeline (now : Instant)
  | getStats (now : Instant)
  | check (call : Nat)
  | run (call : Nat)
  | add (call : Nat)
deriving DecidableEq

namespace Shared

def start : Shared := ⟨.new, fun _ => .waiting⟩

def setPhase (s : Shared) (call : Nat) (phase : Phase) : Shared :=
  { s with phase := fun other => if other = call then phase else s.phase other }

variable [Libraries] [SerdeJson]

/-- The VRL of a call, run with the pipeline not borrowed. -/
def outcomesOf (call : Call) : Except PyErr (List EventOutcome) :=
  runEventsPy call.compile call.vrlCode call.logs ∅

/-- One step of one thread; none where the step is not its next. -/
def step (calls : Nat → Call) (s : Shared) : Act → Option Shared
  | .initializePipeline now => some { s with vector := s.vector.initializePipeline now }
  | .getStats _ => some s
  | .check c =>
    match s.phase c with
    | .waiting =>
      match s.vector.checkInitialized with
      | .ok _ => some (s.setPhase c .checked)
      | .error e => some (s.setPhase c (.returned (.error e)))
    | _ => none
  | .run c =>
    match s.phase c with
    | .checked =>
      match outcomesOf (calls c) with
      | .ok outcomes => some (s.setPhase c (.ran outcomes))
      | .error e => some (s.setPhase c (.returned (.error e)))
    | _ => none
  | .add c =>
    match s.phase c with
    | .ran outcomes =>
      let (results, vector) := s.vector.finishBatch (calls c).logs outcomes
      some ({ s with vector }.setPhase c (.returned (.ok results)))
    | _ => none

end Shared

end VectorVrl
