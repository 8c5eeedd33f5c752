import Mathlib.Data.Rat.Floor
import VectorVrl.Lib.Matches
import VectorVrl.Lib.Rounding
import VectorVrl.Runner
import VectorVrl.ValidateConfig

namespace VectorVrl
open Lib.Matches Lib.OrderedDict Lib.Rounding

/-- Throughput metrics of a run, in exact arithmetic. -/
structure THGMetrics where
  eventsPerSecond : ℚ
  bytesPerSecond : ℚ
  latencyP50 : ℚ
  latencyP95 : ℚ
  latencyP99 : ℚ
  memoryUsageMb : ℚ
  cpuUsagePercent : ℚ
  totalEventsProcessed : Nat
  totalBytesProcessed : Nat
  processingTimeSeconds : ℚ
  errorRatePercent : ℚ

structure THGResult where
  patternName : String
  vrlCode : String
  metrics : THGMetrics
  thgScore : ℚ
  performanceGrade : String
  recommendations : List String
  rawOutput : List PyVal

/-- `test_vrl_with_vector`: the program as one remap transform over the logs. -/
def testVrlWithVector [PyFloat] (vector : VectorConfig → List Char → VectorRun) (vrlCode : String)
    (inputLogs : List String) (dataDir outputFile : String) :
    Except LoadError (Bool × List PyVal × String) :=
  runRemapChain vector
    [("vrl_test", ⟨[("type", .str "remap"), ("source", .str vrlCode)], by simp⟩)]
    inputLogs dataDir outputFile "60.0"

/-- `needle in text`. -/
def pyIn (needle text : String) : Bool := needle.toList <:+: text.toList

/-- `text.count(needle)`. -/
def pyCount (needle text : String) : Nat :=
  if h : needle.toList = [] then text.length + 1
  else ((literal needle.toList h).found text.toList).length

/-- The metrics of a run that gave `results` for its input. -/
def thgMetrics (totalEvents totalBytes : Nat) (processingTime : ℚ) (results : List PyVal) :
    THGMetrics :=
  let eventsPerSecond := if processingTime > 0 then totalEvents / processingTime else 0
  let bytesPerSecond := if processingTime > 0 then totalBytes / processingTime else 0
  let estimatedLatency := if totalEvents > 0 then processingTime / totalEvents * 1000 else 0
  let successfulEvents := results.countP PyVal.truthy
  { eventsPerSecond := eventsPerSecond
    bytesPerSecond := bytesPerSecond
    latencyP50 := estimatedLatency
    latencyP95 := estimatedLatency * (3 / 2)
    latencyP99 := estimatedLatency * 2
    memoryUsageMb := min 100 (totalBytes / (1024 * 1024) * (1 / 10))
    cpuUsagePercent := min 100 (eventsPerSecond / 10)
    totalEventsProcessed := successfulEvents
    totalBytesProcessed := totalBytes
    processingTimeSeconds := processingTime
    errorRatePercent :=
      if totalEvents > 0 then (totalEvents - successfulEvents) / totalEvents * 100 else 0 }

def throughputScore (metrics : THGMetrics) : ℚ := min 800 (metrics.eventsPerSecond * (4 / 5))

def latencyScore (metrics : THGMetrics) : ℚ := max 0 (100 - min 100 (metrics.latencyP95 / 10))

def reliabilityScore (metrics : THGMetrics) : ℚ := max 0 (100 - metrics.errorRatePercent)

def efficiencyScore (metrics : THGMetrics) : ℚ :=
  max 0 (100 - min 50 (metrics.memoryUsageMb / 10) - min 50 (metrics.cpuUsagePercent / 2))

def calculateThgScore (metrics : THGMetrics) : ℚ :=
  roundTo 1 (throughputScore metrics + latencyScore metrics + reliabilityScore metrics +
    efficiencyScore metrics)

/-- The grades by the events a second they take, best first. -/
def thgGrades : List (ℚ × String) :=
  [(1000, "A+"), (500, "A"), (250, "B"), (100, "C"), (50, "D"), (0, "F")]

def getPerformanceGrade (eventsPerSecond : ℚ) : String :=
  ((thgGrades.find? fun entry => eventsPerSecond ≥ entry.1).map Prod.snd).getD "F"

def generateRecommendations (metrics : THGMetrics) (vrlCode : String) : List String :=
  let recommendations :=
    (if metrics.eventsPerSecond < 100 then
      ["Low throughput - consider using built-in parsers instead of string operations"] else []) ++
    (if metrics.errorRatePercent > 10 then
      ["High error rate - review VRL null handling and error cases"] else []) ++
    (if metrics.latencyP95 > 100 then
      ["High latency - optimize VRL for sequential processing"] else []) ++
    (if pyIn "split(" vrlCode && pyCount "split(" vrlCode > 3 then
      ["Multiple splits detected - consider parse_key_value() or parse_json()"] else []) ++
    (if pyIn "to_string(" vrlCode && pyCount "to_string(" vrlCode > 5 then
      ["Excessive string conversions - cache converted values"] else []) ++
    if metrics.memoryUsageMb > 50 then
      ["High memory usage - review intermediate variable creation"] else []
  if recommendations ≠ [] then recommendations
  else if metrics.eventsPerSecond ≥ 350 then
    ["Excellent performance - THG target achieved!"]
  else ["Good performance - consider minor optimizations"]

/-- The input of a run: the logs, `iterations` times. -/
def allTestLogs (testLogs : List String) (iterations : Int) : List String :=
  (List.replicate iterations.toNat testLogs).flatten

/-- The assessment of a run from what `test_vrl_with_vector` returned. -/
def assessRun (patternName vrlCode : String) (testLogs : List String) (processingTime : ℚ)
    (run : Bool × List PyVal × String) : THGResult :=
  let (success, results, errorMsg) := run
  let totalEvents := testLogs.length
  let totalBytes := (testLogs.map String.utf8ByteSize).sum
  if !success then
    { patternName := patternName
      vrlCode := vrlCode
      metrics := ⟨0, 0, 0, 0, 0, 0, 0, 0, 0, processingTime, 100⟩
      thgScore := 0
      performanceGrade := "F"
      recommendations := [s!"Vector run failed: {errorMsg}"]
      rawOutput := [] }
  else
    let metrics := thgMetrics totalEvents totalBytes processingTime results
    let successfulEvents := metrics.totalEventsProcessed
    let recommendations := generateRecommendations metrics vrlCode
    { patternName := patternName
      vrlCode := vrlCode
      metrics := metrics
      thgScore := calculateThgScore metrics
      performanceGrade := getPerformanceGrade metrics.eventsPerSecond
      recommendations :=
        if successfulEvents < totalEvents then
          s!"{totalEvents - successfulEvents} of {totalEvents} events did not come back - the program aborted or dropped them" ::
            recommendations
        else recommendations
      rawOutput := results }

/-- `assess_pattern_performance`, whose run takes `processingTime` seconds on the clock. -/
def assessPatternPerformance [PyFloat] (vector : VectorConfig → List Char → VectorRun)
    (patternName vrlCode : String) (testLogs : List String) (iterations : Int)
    (dataDir outputFile : String) (processingTime : ℚ) : Except LoadError THGResult :=
  (testVrlWithVector vector vrlCode (allTestLogs testLogs iterations) dataDir outputFile).map
    (assessRun patternName vrlCode (allTestLogs testLogs iterations) processingTime)

/-- Every score of an assessment stays in its range. -/
structure THGResult.InRange (result : THGResult) : Prop where
  errorRate : 0 ≤ result.metrics.errorRatePercent ∧ result.metrics.errorRatePercent ≤ 100
  reliability : 0 ≤ reliabilityScore result.metrics ∧ reliabilityScore result.metrics ≤ 100
  score : 0 ≤ result.thgScore ∧ result.thgScore ≤ 1100

end VectorVrl
