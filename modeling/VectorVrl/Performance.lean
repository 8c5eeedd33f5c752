import VectorVrl.Engine
import VectorVrl.Lib.Repeat
import VectorVrl.Lib.Saturating

namespace VectorVrl
open Lib.Repeat Lib.Saturating

/-- A machine word that a 32-bit count fits in. -/
structure Word where
  bits : Nat
  wide : 32 ≤ bits

/-- `usize`. -/
abbrev Usize (w : Word) := Sat (2 ^ w.bits - 1)

/-- A vector, whose length is a machine word. -/
structure Vec (w : Word) (α : Type) where
  items : List α
  fits : items.length ≤ 2 ^ w.bits - 1

def Vec.len {w : Word} {α : Type} (v : Vec w α) : Usize w := ⟨v.items.length, v.fits⟩

theorem word_max_ge (w : Word) : 2 ^ 32 - 1 ≤ 2 ^ w.bits - 1 :=
  Nat.sub_le_sub_right (Nat.pow_le_pow_right (by decide) w.wide) 1

/-- `u32 as usize`. -/
def Usize.ofU32 {w : Word} (n : UInt32) : Usize w :=
  ⟨n.toNat, Nat.le_trans (Nat.le_sub_one_of_lt n.toNat_lt) (word_max_ge w)⟩

/-- The arithmetic on floats that the metrics take. -/
class FloatArith where
  asSecsF64 : (nanos : Nat) → F64
  gt : F64 → F64 → Bool
  div : F64 → F64 → F64
  min : F64 → F64 → F64

/-- What `get_vrl_performance` returns. -/
structure PerformanceMetrics where
  eventsPerSecond : F64
  processingTimeSeconds : F64
  totalEvents : Nat
  thgScore : F64

/-- One event the loop has run, by its position in the test data. -/
structure EventRun where
  position : Nat
  event : String
  outcome : EventOutcome

/-- What a call did and what it ends in. -/
structure PerformanceRun where
  compiled : Bool
  runs : List EventRun
  result : Except PyErr PerformanceMetrics

def maxTotalEvents : Nat := 1000000

/-- The text a request above the cap is refused with. -/
def overLimit (totalEvents : Nat) : PyErr :=
  .valueError s!"requested {totalEvents} events (test_data.len() * iterations) exceeds the {maxTotalEvents} limit"

def performanceMetrics [float : FloatArith] (totalEvents nanos : Nat) : PerformanceMetrics :=
  let secs := float.asSecsF64 nanos
  let eventsPerSecond := if float.gt secs ⟨0⟩ then float.div (F64.ofNat totalEvents) secs else ⟨0⟩
  ⟨eventsPerSecond, secs, totalEvents, float.min eventsPerSecond (F64.ofNat 1000)⟩

section
variable [Libraries] [SerdeJson]

/-- The body of the loop: run one event and drop what it gives. -/
def runOne (program : Program) (runs : List EventRun) (item : String × Nat) : List EventRun :=
  runs ++ [⟨item.2, item.1, executeVrlOnEvent (program.resolve runs.length) item.1 ∅⟩]

/-- `get_vrl_performance`, whose run takes `nanos` on the clock; none when its
loop has not ended after `fuel` rounds. -/
def getVrlPerformance [FloatArith] {w : Word} (fuel : Nat) (compile : Compiler)
    (vrlCode : String) (testData : Vec w String) (iterations : Option UInt32) (nanos : Nat) :
    Option PerformanceRun :=
  let iterCount := iterations.getD 100
  let totalEvents := testData.len * Usize.ofU32 iterCount
  if totalEvents.val > maxTotalEvents then
    some ⟨false, [], .error (overLimit totalEvents.val)⟩
  else
    match compileVrlProgram compile vrlCode with
    | .error e => some ⟨true, [], .error (compileError e)⟩
    | .ok program =>
      (forEach (runOne program) fuel ⟨.of testData.items.zipIdx, totalEvents.val⟩ []).map
        fun runs => ⟨true, runs, .ok (performanceMetrics totalEvents.val nanos)⟩

/-- `k` passes over the events, one after the other. -/
def passes (k : Nat) (events : List String) : List (String × Nat) :=
  (List.replicate k events.zipIdx).flatten

/-- Every event of the passes is run, each from no secrets. -/
def runsOf (program : Program) (k : Nat) (events : List String) : List EventRun :=
  (passes k events).mapIdx fun i item =>
    ⟨item.2, item.1, executeVrlOnEvent (program.resolve i) item.1 ∅⟩

end

end VectorVrl
