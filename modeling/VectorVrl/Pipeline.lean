import VectorVrl.Benchmark
import VectorVrl.Lib.Dataflow
import VectorVrl.Sink

namespace VectorVrl
open Lib.Dataflow Lib.OrderedDict

/-- What `execute_vector_pipeline` returns, in exact arithmetic. -/
structure PipelineReport where
  success : Bool
  eventsProcessed : Nat
  processingTimeSeconds : ℚ
  throughputEps : ℚ
  results : List PyVal
  errorMessage : Option String
  grade : String
  thgEstimated : ℚ

inductive PipelineError where
  | importError (text : String)
  | chain (e : PyException)
  | runtimeError (text : String)
  | load (e : LoadError)

structure Installed where
  performanceAvailable : Bool
  vectorBinary : String
  found : Bool

def pipelineGrade (throughput : ℚ) : String :=
  if throughput ≥ 1000 then "A+"
  else if throughput ≥ 500 then "A"
  else if throughput ≥ 250 then "B"
  else if throughput ≥ 100 then "C"
  else if throughput ≥ 50 then "D"
  else "F"

def pipelineReport (processingTime : ℚ) (run : Bool × List PyVal × String) : PipelineReport :=
  let (success, results, errorMsg) := run
  let eventsProcessed := if success then results.length else 0
  let throughput := if processingTime > 0 then eventsProcessed / processingTime else 0
  { success := success
    eventsProcessed := eventsProcessed
    processingTimeSeconds := processingTime
    throughputEps := throughput
    results := if success then results else []
    errorMessage := if !success then some errorMsg else none
    grade := pipelineGrade throughput
    thgEstimated := min 1000 (throughput * (4 / 5) + 100) }

/-- Run a config's remap transforms over the input in a real Vector; the run takes
`processingTime` seconds on the clock, and `none` is a walk longer than `fuel`. -/
def executeVectorPipeline [PyUnicode] [PyFloat] (installed : Installed)
    (vector : VectorConfig → List Char → VectorRun) (fuel : Nat) (config : Dict String PyVal)
    (inputData : List String) (dataDir outputFile timeout : String) (processingTime : ℚ) :
    Option (Except PipelineError PipelineReport) :=
  if !installed.performanceAvailable then
    some (.error (.importError "Vector pipeline execution not available"))
  else
    (remapChain fuel config).map fun chain =>
      match chain with
      | .error e => .error (.chain e)
      | .ok transforms =>
        if !installed.found then
          .error (.runtimeError s!"Vector binary not found: {installed.vectorBinary}")
        else
          match runRemapChain vector transforms inputData dataDir outputFile timeout with
          | .error e => .error (.load e)
          | .ok run => .ok (pipelineReport processingTime run)

/-- A remap's outputs: its own, and the one that `reroute_dropped` puts dropped events on. -/
inductive RemapOutput where
  | main
  | dropped
deriving DecidableEq, Repr

/-- What a remap may make of an event, at each output; its program may ask for the time or a
random number. -/
abbrev RemapEvents := Transform → JsonObject → (RemapOutput → List JsonObject) → Prop

/-- The output that an input names. -/
def outputNamed (ids : List String) (text : String) : Option (String × RemapOutput) :=
  if text ∈ ids then some (text, .main)
  else (ids.find? fun id => id ++ ".dropped" = text).map fun id => (id, .dropped)

def passedOn (event : JsonObject) : RemapOutput → List JsonObject
  | .main => [event]
  | .dropped => []

def VectorConfig.options (config : VectorConfig) (id : String) : Option (Dict String PyVal) :=
  ((config.sources.items ++ config.transforms.items ++ config.sinks.items).find?
    (·.1 = id)).map Prod.snd

/-- The network a config makes: sources and sinks pass their events on as they are. -/
def VectorConfig.network (config : VectorConfig) (remap : RemapEvents) :
    Network String RemapOutput JsonObject where
  inputs id := (((config.options id).bind inputTexts).getD []).filterMap (outputNamed config.ids)
  emits id event out :=
    match config.transforms.get? id with
    | some transform => remap transform event out
    | none => out = passedOn event

/-- The network that transforms make among themselves; an input that none of them has as its
output is a source outside it. -/
def transformNetwork (transforms : Dict String Transform) (remap : RemapEvents) :
    Network String RemapOutput JsonObject where
  inputs id :=
    (((transforms.get? id).bind inputTexts).getD []).filterMap (outputNamed transforms.keys)
  emits id event out := ∃ transform, transforms.get? id = some transform ∧ remap transform event out

def NoDroppedInputs (transforms : Dict String Transform) (inputs : String → List String) : Prop :=
  ∀ name ∈ transforms.keys, ∀ text ∈ inputs name, text ∉ transforms.keys →
    ∀ id ∈ transforms.keys, text ≠ id ++ ".dropped"

def feedTo (id : String) (events : List JsonObject) (other : String) : List JsonObject :=
  if other = id then events else []

/-- What is relied on of Vector: a remap does not depend on its `inputs`, and a run
that exits 0 has read its stdin, passed every event on to the end and written them. -/
structure VectorRuns [FloatTexts] (vector : VectorConfig → List Char → VectorRun) (remap : RemapEvents)
    (reads : String → JsonObject → Prop) : Prop where
  wiring : ∀ given wired : Transform,
    (∀ option, option ≠ "inputs" → wired.get? option = given.get? option) →
      remap wired = remap given
  drained : ∀ config stdin stderr source sink options, config.ids.Nodup →
    config.sources = .single source (.single "type" (.str "stdin")) →
    config.sinks.items = [(sink, options)] → options.get? "type" = some (.str "file") →
    options.get? "encoding" =
      some (.dict ["codec"] (List.nodup_singleton _) ![.str "json"]) →
    (vector config stdin).completed = .exited 0 stderr →
    ∃ events s, List.Forall₂ reads (linesRead stdin) events ∧
      (config.network remap).Steps (start (feedTo source events)) s ∧
      (config.network remap).Drained s ∧
      (vector config stdin).outputFile.getD [] = sinkText (s.given (sink, .main))

end VectorVrl
