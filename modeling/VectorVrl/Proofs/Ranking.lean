import VectorVrl.Proofs.Pipeline

namespace VectorVrl.Proofs.Ranking
open Lib.Rounding Proofs.Benchmark

/-- The place of a grade among the grades, best first. -/
def gradeRank (grade : String) : Nat := (thgGrades.map Prod.snd).idxOf grade

theorem rank_of_rate (eps : ℚ) :
    gradeRank (getPerformanceGrade eps) =
      if 1000 ≤ eps then 0 else if 500 ≤ eps then 1 else if 250 ≤ eps then 2
      else if 100 ≤ eps then 3 else if 50 ≤ eps then 4 else 5 := by
  rw [← Proofs.Pipeline.pipeline_grade, pipelineGrade]
  split_ifs <;> rfl

theorem rank_antitone {eps eps' : ℚ} (h : eps' ≤ eps) :
    gradeRank (getPerformanceGrade eps) ≤ gradeRank (getPerformanceGrade eps') := by
  rw [rank_of_rate, rank_of_rate]
  split_ifs <;> first | omega | (exfalso; linarith)

/-- What throughput adds to a score, less what its share of the processor takes off. -/
theorem throughput_net {eps eps' : ℚ} (h : eps' ≤ eps) :
    min 800 (eps' * (4 / 5)) - min 50 (min 100 (eps' / 10) / 2) ≤
      min 800 (eps * (4 / 5)) - min 50 (min 100 (eps / 10) / 2) := by
  have hnet : ∀ rate : ℚ, min 800 (rate * (4 / 5)) - min 50 (min 100 (rate / 10) / 2) =
      min 750 (rate * (3 / 4)) := by
    intro rate
    rcases le_total rate 1000 with hle | hge
    · rw [min_eq_right (by linarith), min_eq_right (by linarith : rate / 10 ≤ 100),
        min_eq_right (by linarith), min_eq_right (by linarith)]
      ring
    · rw [min_eq_left (by linarith), min_eq_left (by linarith : 100 ≤ rate / 10),
        min_eq_left (by norm_num), min_eq_left (by linarith)]
      norm_num
  rw [hnet, hnet]
  exact min_le_min_left 750 (by linarith)

/-- Nothing a run uses costs it more than it has for efficiency. -/
theorem efficiency_unclamped {totalEvents totalBytes : Nat} {time : ℚ} {results : List PyVal} :
    efficiencyScore (thgMetrics totalEvents totalBytes time results) =
      100 - (thgMetrics totalEvents totalBytes time results).memoryUsageMb / 10 -
        min 50 ((thgMetrics totalEvents totalBytes time results).cpuUsagePercent / 2) := by
  have hmemory : (thgMetrics totalEvents totalBytes time results).memoryUsageMb ≤ 100 :=
    min_le_left _ _
  have hcpu := min_le_left (50 : ℚ)
    ((thgMetrics totalEvents totalBytes time results).cpuUsagePercent / 2)
  rw [efficiencyScore, min_eq_right (by linarith), max_eq_right (by linarith)]

section
variable {totalEvents totalBytes : Nat} {fast slow : ℚ} {more fewer : List PyVal}

theorem rate_antitone (hfast : 0 < fast) (htime : fast ≤ slow) :
    (thgMetrics totalEvents totalBytes slow fewer).eventsPerSecond ≤
      (thgMetrics totalEvents totalBytes fast more).eventsPerSecond := by
  simp only [thgMetrics, gt_iff_lt, if_pos hfast, if_pos (hfast.trans_le htime)]
  exact div_le_div_of_nonneg_left (Nat.cast_nonneg _) hfast htime

theorem latency_monotone (hevents : 0 < totalEvents) (htime : fast ≤ slow) :
    (thgMetrics totalEvents totalBytes fast more).latencyP95 ≤
      (thgMetrics totalEvents totalBytes slow fewer).latencyP95 := by
  have hpos : (0 : ℚ) < totalEvents := Nat.cast_pos.mpr hevents
  have hper : fast / totalEvents ≤ slow / totalEvents := div_le_div_of_nonneg_right htime hpos.le
  simp only [thgMetrics, if_pos hevents]
  linarith

theorem errors_antitone (hevents : 0 < totalEvents)
    (hback : fewer.countP PyVal.truthy ≤ more.countP PyVal.truthy) :
    (thgMetrics totalEvents totalBytes fast more).errorRatePercent ≤
      (thgMetrics totalEvents totalBytes slow fewer).errorRatePercent := by
  have hpos : (0 : ℚ) < totalEvents := Nat.cast_pos.mpr hevents
  have hcount : (fewer.countP PyVal.truthy : ℚ) ≤ more.countP PyVal.truthy := Nat.cast_le.mpr hback
  rw [error_rate_eq hevents, error_rate_eq hevents]
  have hshare := div_le_div_of_nonneg_right
    (show (totalEvents : ℚ) - more.countP PyVal.truthy ≤ totalEvents - fewer.countP PyVal.truthy by
      linarith) hpos.le
  linarith

/-- The score of a run that is no slower and gives no less back. -/
theorem score_monotone (hevents : 0 < totalEvents) (hfast : 0 < fast) (htime : fast ≤ slow)
    (hback : fewer.countP PyVal.truthy ≤ more.countP PyVal.truthy) :
    calculateThgScore (thgMetrics totalEvents totalBytes slow fewer) ≤
      calculateThgScore (thgMetrics totalEvents totalBytes fast more) := by
  apply round_to_mono
  have hrate : (thgMetrics totalEvents totalBytes slow fewer).eventsPerSecond ≤
      (thgMetrics totalEvents totalBytes fast more).eventsPerSecond := rate_antitone hfast htime
  have hnet := throughput_net hrate
  have hlatency : latencyScore (thgMetrics totalEvents totalBytes slow fewer) ≤
      latencyScore (thgMetrics totalEvents totalBytes fast more) := by
    have hp95 : (thgMetrics totalEvents totalBytes fast more).latencyP95 ≤
        (thgMetrics totalEvents totalBytes slow fewer).latencyP95 := latency_monotone hevents htime
    unfold latencyScore
    gcongr
  have hreliability : reliabilityScore (thgMetrics totalEvents totalBytes slow fewer) ≤
      reliabilityScore (thgMetrics totalEvents totalBytes fast more) := by
    have herrors : (thgMetrics totalEvents totalBytes fast more).errorRatePercent ≤
        (thgMetrics totalEvents totalBytes slow fewer).errorRatePercent :=
      errors_antitone hevents hback
    unfold reliabilityScore
    gcongr
  have hmemory : (thgMetrics totalEvents totalBytes slow fewer).memoryUsageMb =
      (thgMetrics totalEvents totalBytes fast more).memoryUsageMb := rfl
  have hcpu : ∀ time results, (thgMetrics totalEvents totalBytes time results).cpuUsagePercent =
      min 100 ((thgMetrics totalEvents totalBytes time results).eventsPerSecond / 10) :=
    fun _ _ => rfl
  rw [efficiency_unclamped, efficiency_unclamped, hmemory, hcpu, hcpu, throughputScore,
    throughputScore]
  linarith

end

theorem score_nonneg {metrics : THGMetrics} (h : 0 ≤ metrics.eventsPerSecond) :
    0 ≤ calculateThgScore metrics := by
  have hthroughput := (throughput_between h).1
  have hlatency : 0 ≤ latencyScore metrics := le_max_left _ _
  have hreliability : 0 ≤ reliabilityScore metrics := le_max_left _ _
  have hefficiency : 0 ≤ efficiencyScore metrics := le_max_left _ _
  have hround := round_to_mono 1
    (add_nonneg (add_nonneg (add_nonneg hthroughput hlatency) hreliability) hefficiency)
  have hzero := round_to_int (K := ℚ) 1 0
  rw [Int.cast_zero] at hzero
  rw [hzero] at hround
  exact hround

/-- Of two runs over the same logs, the one that is no slower and gives no less back neither
scores nor grades lower, and both score at least what a failed run does. -/
theorem better_run_ranks (patternName vrlCode : String) {testLogs : List String}
    (hlogs : testLogs ≠ []) {fast slow : ℚ} (hfast : 0 < fast) (htime : fast ≤ slow)
    {more fewer : List PyVal} (hback : fewer.countP PyVal.truthy ≤ more.countP PyVal.truthy)
    (errorMsg errorMsg' : String) :
    let better := assessRun patternName vrlCode testLogs fast (true, more, errorMsg)
    let worse := assessRun patternName vrlCode testLogs slow (true, fewer, errorMsg')
    worse.thgScore ≤ better.thgScore ∧
      gradeRank better.performanceGrade ≤ gradeRank worse.performanceGrade ∧
      ∀ time results text,
        (assessRun patternName vrlCode testLogs time (false, results, text)).thgScore ≤
            worse.thgScore ∧
          gradeRank worse.performanceGrade ≤ gradeRank
            (assessRun patternName vrlCode testLogs time (false, results, text)).performanceGrade := by
  intro better worse
  have hevents : 0 < testLogs.length := List.length_pos_iff.mpr hlogs
  refine ⟨score_monotone hevents hfast htime hback, ?_, ?_⟩
  · exact rank_antitone (rate_antitone hfast htime)
  · intro time results text
    refine ⟨score_nonneg (metrics_nonneg hevents (hfast.trans_le htime)).1, ?_⟩
    change gradeRank (getPerformanceGrade _) ≤ 5
    rw [rank_of_rate]
    split_ifs <;> omega

/-- One event back in one second, against none in two. -/
theorem kept_event_ranks :
    let better := assessRun "keep" "." ["a"] 1 (true, [.bool true], "")
    let worse := assessRun "keep" "." ["a"] 2 (true, [], "")
    worse.thgScore ≤ better.thgScore ∧
      gradeRank better.performanceGrade ≤ gradeRank worse.performanceGrade ∧
      ∀ time results text,
        (assessRun "keep" "." ["a"] time (false, results, text)).thgScore ≤ worse.thgScore ∧
          gradeRank worse.performanceGrade ≤
            gradeRank (assessRun "keep" "." ["a"] time (false, results, text)).performanceGrade :=
  better_run_ranks "keep" "." (by simp) (by norm_num) (by norm_num) (Nat.zero_le _) "" ""

end VectorVrl.Proofs.Ranking
