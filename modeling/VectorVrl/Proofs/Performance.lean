import VectorVrl.Performance

namespace VectorVrl.Proofs.Performance
open Lib.Repeat Lib.Saturating

theorem passes_positions (k : Nat) (events : List String) :
    (passes k events).map Prod.snd = (List.replicate k (List.range events.length)).flatten := by
  rw [passes, List.map_flatten, List.map_replicate, List.zipIdx_map_snd, List.range_eq_range']

/-- Each position comes up once in every pass. -/
theorem passes_count (k : Nat) (events : List String) {position : Nat}
    (h : position < events.length) : ((passes k events).map Prod.snd).count position = k := by
  have hone : (List.range events.length).count position = 1 :=
    List.count_eq_one_of_mem List.nodup_range (List.mem_range.mpr h)
  rw [passes_positions]
  induction k with
  | zero => rfl
  | succ k ih =>
    rw [List.replicate_succ, List.flatten_cons, List.count_append, ih, hone, Nat.add_comm]

theorem passes_length (k : Nat) (events : List String) :
    (passes k events).length = events.length * k := by
  rw [passes, List.length_flatten, List.map_replicate, List.length_zipIdx,
    List.sum_replicate_nat, Nat.mul_comm]

/-- The machine's saturated product is above the limit where the exact one is. -/
theorem saturated_above {w : Word} (v : Vec w String) (count : UInt32) :
    maxTotalEvents < (v.len * Usize.ofU32 count).val ↔
      maxTotalEvents < v.items.length * count.toNat :=
  Sat.limit_lt_iff (Nat.lt_of_lt_of_le (by decide) (word_max_ge w))

/-- Up to the limit nothing is lost to saturation. -/
theorem product_exact {w : Word} (v : Vec w String) (count : UInt32)
    (h : v.items.length * count.toNat ≤ maxTotalEvents) :
    (v.len * Usize.ofU32 count).val = v.items.length * count.toNat := by
  have hmax := word_max_ge w
  rw [Sat.val_mul]
  apply Nat.min_eq_left
  apply Nat.le_trans h
  exact Nat.le_trans (by decide) hmax

section
variable [Libraries] [SerdeJson]

/-- The loop body run over a list leaves one run for each entry. -/
theorem fold_run_one (program : Program) (items : List (String × Nat)) (before : List EventRun) :
    items.foldl (runOne program) before =
      before ++ items.mapIdx fun i item =>
        ⟨item.2, item.1, executeVrlOnEvent (program.resolve (before.length + i)) item.1 ∅⟩ := by
  induction items generalizing before with
  | nil => simp
  | cons item rest ih =>
    rw [List.foldl_cons, ih, List.mapIdx_cons, runOne, List.append_assoc]
    simp [Nat.add_assoc, Nat.add_comm 1]

/-- The loop ends, having run all passes. -/
theorem loop_runs (program : Program) (events : List String) {k fuel : Nat}
    (h : events.length * k < fuel) :
    forEach (runOne program) fuel ⟨.of events.zipIdx, events.length * k⟩ [] =
      some (runsOf program k events) := by
  have hlen : events.zipIdx.length * k < fuel := by rwa [List.length_zipIdx]
  have hloop := for_each_of (runOne program) events.zipIdx [] hlen
  rw [List.length_zipIdx] at hloop
  rw [hloop, fold_run_one]
  simp [runsOf, passes]

theorem runs_positions (program : Program) (k : Nat) (events : List String) :
    (runsOf program k events).map EventRun.position = (passes k events).map Prod.snd := by
  apply List.ext_getElem
  · simp [runsOf]
  · intro i hi hj
    simp [runsOf]

theorem runs_length (program : Program) (k : Nat) (events : List String) :
    (runsOf program k events).length = events.length * k := by
  rw [runsOf, List.length_mapIdx, passes_length]

variable [FloatArith] {w : Word} {compile : Compiler} {vrlCode : String}
  {testData : Vec w String} {iterations : Option UInt32}

theorem above_limit_refused (nanos fuel : Nat)
    (h : maxTotalEvents < testData.items.length * (iterations.getD 100).toNat) :
    getVrlPerformance fuel compile vrlCode testData iterations nanos =
      some ⟨false, [], .error (overLimit (testData.len * Usize.ofU32 (iterations.getD 100)).val)⟩ :=
  if_pos ((saturated_above testData _).mpr h)

theorem within_limit_fails {e : String} (nanos fuel : Nat)
    (h : testData.items.length * (iterations.getD 100).toNat ≤ maxTotalEvents)
    (hc : compileVrlProgram compile vrlCode = .error e) :
    getVrlPerformance fuel compile vrlCode testData iterations nanos =
      some ⟨true, [], .error (compileError e)⟩ := by
  have hbelow := mt (saturated_above testData (iterations.getD 100)).mp (Nat.not_lt.mpr h)
  simp only [getVrlPerformance, if_neg hbelow, hc]

theorem within_limit_runs {program : Program} {fuel : Nat} (nanos : Nat)
    (h : testData.items.length * (iterations.getD 100).toNat ≤ maxTotalEvents)
    (hc : compileVrlProgram compile vrlCode = .ok program) (hfuel : maxTotalEvents < fuel) :
    getVrlPerformance fuel compile vrlCode testData iterations nanos =
      some ⟨true, runsOf program (iterations.getD 100).toNat testData.items,
        .ok (performanceMetrics (testData.items.length * (iterations.getD 100).toNat) nanos)⟩ := by
  have hloop := loop_runs program testData.items (Nat.lt_of_le_of_lt h hfuel)
  simp only [getVrlPerformance, hc, product_exact testData _ h, hloop, Option.map_some]
  exact if_neg (Nat.not_lt.mpr h)

/-- A request above the limit does no work; any other compiles, and then runs
each position `k` times, pass after pass. -/
theorem performance_exact (compile : Compiler) (vrlCode : String) (testData : Vec w String)
    (iterations : Option UInt32) (nanos : Nat) :
    let n := testData.items.length
    let k := (iterations.getD 100).toNat
    ∃ run : PerformanceRun,
      (∀ fuel > maxTotalEvents,
        getVrlPerformance fuel compile vrlCode testData iterations nanos = some run) ∧
      (run.compiled = false ∧ run.runs = [] ∧ (∃ text, run.result = .error (.valueError text)) ↔
        maxTotalEvents < n * k) ∧
      (n * k ≤ maxTotalEvents → run.compiled = true ∧
        (∀ e, compileVrlProgram compile vrlCode = .error e →
          run.runs = [] ∧ run.result = .error (compileError e)) ∧
        ∀ program, compileVrlProgram compile vrlCode = .ok program →
          run.runs = runsOf program k testData.items ∧
          run.runs.map EventRun.position = (List.replicate k (List.range n)).flatten ∧
          (∀ position < n, (run.runs.map EventRun.position).count position = k) ∧
          ∃ metrics, run.result = .ok metrics ∧ metrics.totalEvents = n * k ∧
            run.runs.length = metrics.totalEvents) := by
  intro n k
  rcases Nat.lt_or_ge maxTotalEvents (n * k) with habove | hwithin
  · refine ⟨_, fun fuel _ => above_limit_refused nanos fuel habove, ?_, ?_⟩
    · exact ⟨fun _ => habove, fun _ => ⟨rfl, rfl, _, rfl⟩⟩
    · intro hwithin
      exact absurd habove (Nat.not_lt.mpr hwithin)
  · have hnot : ¬maxTotalEvents < n * k := Nat.not_lt.mpr hwithin
    cases hc : compileVrlProgram compile vrlCode with
    | error e =>
      refine ⟨_, fun fuel _ => within_limit_fails nanos fuel hwithin hc, ?_, ?_⟩
      · exact ⟨fun h => Bool.noConfusion h.1, fun h => absurd h hnot⟩
      · intro _
        refine ⟨rfl, ?_, fun _ h => (nomatch h)⟩
        intro e' h
        cases h
        exact ⟨rfl, rfl⟩
    | ok program =>
      refine ⟨_, fun fuel hfuel => within_limit_runs nanos hwithin hc hfuel, ?_, ?_⟩
      · exact ⟨fun h => Bool.noConfusion h.1, fun h => absurd h hnot⟩
      · intro _
        refine ⟨rfl, fun _ h => (nomatch h), ?_⟩
        intro program' h
        cases h
        have hpositions := runs_positions program k testData.items
        refine ⟨rfl, hpositions.trans (passes_positions k _), ?_, _, rfl, rfl,
          runs_length program k _⟩
        intro position hposition
        rw [hpositions]
        exact passes_count k _ hposition

end

end VectorVrl.Proofs.Performance
