import Mathlib.Tactic.FieldSimp
import Mathlib.Tactic.Positivity
import VectorVrl.Benchmark

namespace VectorVrl.Proofs.Benchmark
open Lib.Rounding

section
variable {metrics : THGMetrics}

theorem throughput_between (h : 0 ≤ metrics.eventsPerSecond) :
    0 ≤ throughputScore metrics ∧ throughputScore metrics ≤ 800 := by
  refine ⟨le_min (by norm_num) ?_, min_le_left _ _⟩
  exact mul_nonneg h (by norm_num)

theorem latency_between (h : 0 ≤ metrics.latencyP95) :
    0 ≤ latencyScore metrics ∧ latencyScore metrics ≤ 100 := by
  have hpenalty : 0 ≤ min 100 (metrics.latencyP95 / 10) :=
    le_min (by norm_num) (div_nonneg h (by norm_num))
  exact ⟨le_max_left _ _, max_le (by norm_num) (sub_le_self 100 hpenalty)⟩

theorem efficiency_between (hmemory : 0 ≤ metrics.memoryUsageMb)
    (hcpu : 0 ≤ metrics.cpuUsagePercent) :
    0 ≤ efficiencyScore metrics ∧ efficiencyScore metrics ≤ 100 := by
  have hm : 0 ≤ min 50 (metrics.memoryUsageMb / 10) :=
    le_min (by norm_num) (div_nonneg hmemory (by norm_num))
  have hc : 0 ≤ min 50 (metrics.cpuUsagePercent / 2) :=
    le_min (by norm_num) (div_nonneg hcpu (by norm_num))
  refine ⟨le_max_left _ _, max_le (by norm_num) ?_⟩
  linarith

/-- The reliability keeps to its range exactly when the error rate is not negative. -/
theorem reliability_between_iff :
    (0 ≤ reliabilityScore metrics ∧ reliabilityScore metrics ≤ 100) ↔
      0 ≤ metrics.errorRatePercent := by
  constructor
  · intro h
    have hle := (le_max_right 0 (100 - metrics.errorRatePercent)).trans h.2
    linarith
  · intro h
    exact ⟨le_max_left _ _, max_le (by norm_num) (sub_le_self 100 h)⟩

/-- Scores of plausible metrics add up to a total in its range. -/
theorem score_between (heps : 0 ≤ metrics.eventsPerSecond) (hlatency : 0 ≤ metrics.latencyP95)
    (hmemory : 0 ≤ metrics.memoryUsageMb) (hcpu : 0 ≤ metrics.cpuUsagePercent)
    (herror : 0 ≤ metrics.errorRatePercent) :
    0 ≤ calculateThgScore metrics ∧ calculateThgScore metrics ≤ 1100 := by
  obtain ⟨ht, ht'⟩ := throughput_between heps
  obtain ⟨hl, hl'⟩ := latency_between hlatency
  obtain ⟨hr, hr'⟩ := reliability_between_iff.mpr herror
  obtain ⟨he, he'⟩ := efficiency_between hmemory hcpu
  have hlow : ((0 : ℤ) : ℚ) ≤ throughputScore metrics + latencyScore metrics +
      reliabilityScore metrics + efficiencyScore metrics := by
    push_cast
    linarith
  have hhigh : throughputScore metrics + latencyScore metrics + reliabilityScore metrics +
      efficiencyScore metrics ≤ ((1100 : ℤ) : ℚ) := by
    push_cast
    linarith
  have hround := round_to_between 1 hlow hhigh
  push_cast at hround
  exact hround

end

section
variable {totalEvents totalBytes : Nat} {processingTime : ℚ} {results : List PyVal}

theorem metrics_nonneg (hevents : 0 < totalEvents) (htime : 0 < processingTime) :
    0 ≤ (thgMetrics totalEvents totalBytes processingTime results).eventsPerSecond ∧
    0 ≤ (thgMetrics totalEvents totalBytes processingTime results).latencyP95 ∧
    0 ≤ (thgMetrics totalEvents totalBytes processingTime results).memoryUsageMb ∧
    0 ≤ (thgMetrics totalEvents totalBytes processingTime results).cpuUsagePercent := by
  have heps : (0 : ℚ) ≤ totalEvents / processingTime := div_nonneg (Nat.cast_nonneg _) htime.le
  simp only [thgMetrics, if_pos hevents, gt_iff_lt, if_pos htime]
  refine ⟨heps, ?_, ?_, ?_⟩
  · positivity
  · exact le_min (by norm_num) (by positivity)
  · exact le_min (by norm_num) (div_nonneg heps (by norm_num))

theorem error_rate_eq (hevents : 0 < totalEvents) :
    (thgMetrics totalEvents totalBytes processingTime results).errorRatePercent =
      (totalEvents - results.countP PyVal.truthy) / totalEvents * 100 := if_pos hevents

/-- The error rate keeps to its range exactly when no more events come back than went in. -/
theorem error_rate_nonneg_iff (hevents : 0 < totalEvents) :
    0 ≤ (thgMetrics totalEvents totalBytes processingTime results).errorRatePercent ↔
      results.countP PyVal.truthy ≤ totalEvents := by
  have hpos : (0 : ℚ) < totalEvents := Nat.cast_pos.mpr hevents
  rw [error_rate_eq hevents, mul_nonneg_iff_of_pos_right (by norm_num), le_div_iff₀ hpos,
    zero_mul, sub_nonneg, Nat.cast_le]

theorem error_rate_le (hevents : 0 < totalEvents) :
    (thgMetrics totalEvents totalBytes processingTime results).errorRatePercent ≤ 100 := by
  have hpos : (0 : ℚ) < totalEvents := Nat.cast_pos.mpr hevents
  have hcount : (0 : ℚ) ≤ results.countP PyVal.truthy := Nat.cast_nonneg _
  have hshare : ((totalEvents : ℚ) - results.countP PyVal.truthy) / totalEvents ≤ 1 := by
    rw [div_le_one hpos]
    linarith
  rw [error_rate_eq hevents]
  linarith

/-- The scores of a run that succeeds keep to their ranges exactly when no more
events come back than went in. -/
theorem run_in_range_iff (patternName vrlCode errorMsg : String) {testLogs : List String}
    (hlogs : testLogs ≠ []) (htime : 0 < processingTime) :
    (assessRun patternName vrlCode testLogs processingTime (true, results, errorMsg)).InRange ↔
      results.countP PyVal.truthy ≤ testLogs.length := by
  have hevents : 0 < testLogs.length := List.length_pos_iff.mpr hlogs
  constructor
  · intro h
    exact (error_rate_nonneg_iff hevents).mp h.errorRate.1
  · intro h
    have herror : 0 ≤ (assessRun patternName vrlCode testLogs processingTime
        (true, results, errorMsg)).metrics.errorRatePercent :=
      (error_rate_nonneg_iff hevents).mpr h
    refine ⟨⟨herror, error_rate_le hevents⟩, reliability_between_iff.mpr herror, ?_⟩
    apply score_between
    · exact (metrics_nonneg hevents htime).1
    · exact (metrics_nonneg hevents htime).2.1
    · exact (metrics_nonneg hevents htime).2.2.1
    · exact (metrics_nonneg hevents htime).2.2.2
    · exact herror

/-- The scores of an assessment keep to their ranges exactly when the run gives
back no more events than it was given. -/
theorem assessment_in_range_iff [PyFloat] {vector : VectorConfig → List Char → VectorRun}
    {vrlCode dataDir outputFile errorMsg : String} {testLogs : List String} {iterations : Int}
    (patternName : String)
    (hrun : testVrlWithVector vector vrlCode (allTestLogs testLogs iterations) dataDir outputFile =
      .ok (true, results, errorMsg))
    (hlogs : allTestLogs testLogs iterations ≠ []) (htime : 0 < processingTime) :
    (∃ result, assessPatternPerformance vector patternName vrlCode testLogs iterations dataDir
      outputFile processingTime = .ok result ∧ result.InRange) ↔
      results.countP PyVal.truthy ≤ (allTestLogs testLogs iterations).length := by
  rw [← run_in_range_iff patternName vrlCode errorMsg hlogs htime, assessPatternPerformance, hrun]
  simp [Except.map]

end

/-- Numbers with a fraction all read as zero, for runs that give none. -/
local instance noFractions : PyFloat := ⟨fun _ => ⟨0⟩⟩

/-- A Vector whose output file holds this text. -/
def writes (output : String) : VectorConfig → List Char → VectorRun :=
  fun _ _ => ⟨.exited 0 [], some output.toList⟩

/-- The assessment of a program that splits its one event in two. -/
def splitAssessment : Except LoadError THGResult :=
  assessPatternPerformance
    (writes "\x7b\"a\":\"x\"\x7d\n\x7b\"a\":\"y\"\x7d\n") "split" ". = parse_json!(.message)"
    ["[\x7b\"a\":\"x\"\x7d,\x7b\"a\":\"y\"\x7d]"] 1 "" "" 1

/-- Two events back from one score 200 of 100 for reliability. -/
theorem split_event_overscored :
    splitAssessment.map (fun result => (result.rawOutput.length, result.metrics.errorRatePercent,
      reliabilityScore result.metrics, result.thgScore)) = .ok (2, -100, 200, 3007 / 10) ∧
    ¬∃ result, splitAssessment = .ok result ∧ result.InRange := by
  have hscores : splitAssessment.map (fun result => (result.rawOutput.length,
      result.metrics.errorRatePercent, reliabilityScore result.metrics, result.thgScore)) =
        .ok (2, -100, 200, 3007 / 10) := by
    decide +kernel
  refine ⟨hscores, ?_⟩
  rintro ⟨result, hresult, hrange⟩
  rw [hresult] at hscores
  have herror := congrArg (fun scores => scores.2.1) (Except.ok.inj hscores)
  have hnonneg := hrange.errorRate.1
  simp only at herror
  rw [herror] at hnonneg
  norm_num at hnonneg

/-- A program that drops its one event keeps to the ranges. -/
theorem dropped_event_in_range :
    ∃ result, assessPatternPerformance (writes "") "drop" "abort" ["a"] 1 "" "" 1 = .ok result ∧
      result.InRange :=
  (assessment_in_range_iff "drop" rfl (by decide) (by norm_num)).mpr (Nat.zero_le _)

end VectorVrl.Proofs.Benchmark
