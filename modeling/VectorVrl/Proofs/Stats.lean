import VectorVrl.History
import VectorVrl.Proofs.Outcome

namespace VectorVrl.Proofs.Stats
open Lib.Runs Lib.Saturating Outcome

theorem since_snoc (trace : List Act) (act : Act) :
    sinceInitialize (trace ++ [act]) =
      if act.isInitialize then [] else sinceInitialize trace ++ [act] := by
  unfold sinceInitialize
  cases h : act.isInitialize <;> simp [h]

theorem added_append (before after : List Act) :
    added (before ++ after) = added before ++ added after := List.filterMap_append

theorem started_append (before after : List Act) :
    started (before ++ after) = started before ++ started after := List.filterMap_append

theorem started_mono {trace : List Act} {act : Act} (hinit : act.isInitialize = false) {c : Nat}
    (h : c ∈ started (sinceInitialize trace)) :
    c ∈ started (sinceInitialize (trace ++ [act])) := by
  rw [since_snoc, hinit, if_neg (by simp), started_append]
  exact List.mem_append_left _ h

theorem added_snoc {trace : List Act} {act : Act} (hinit : act.isInitialize = false) {c : Nat}
    (h : c ∈ added (sinceInitialize (trace ++ [act]))) :
    c ∈ added (sinceInitialize trace) ∨ act = .add c := by
  rw [since_snoc, hinit, if_neg (by simp), added_append] at h
  rcases List.mem_append.mp h with hold | hnew
  · exact Or.inl hold
  · cases act <;> simp_all [added]

theorem since_after {before after : List Act} {now : Instant}
    (h : ∀ act ∈ after, act.isInitialize = false) :
    sinceInitialize (before ++ .initializePipeline now :: after) = after := by
  induction after using List.reverseRecOn with
  | nil => exact since_snoc before _
  | append_singleton rest act ih =>
    have hlast := h act (List.mem_append_right rest (List.mem_singleton_self act))
    rw [← List.cons_append, ← List.append_assoc, since_snoc, hlast, if_neg (by simp),
      ih fun a ha => h a (List.mem_append_left [act] ha)]

theorem zip_counts {logs : List String} {outcomes : List EventOutcome}
    (h : outcomes.length = logs.length) (p : EventOutcome → Bool) :
    (logs.zip outcomes).countP (fun pair => p pair.2) = outcomes.countP p ∧
      (logs.zip outcomes).map (·.1.utf8ByteSize) = logs.map String.utf8ByteSize := by
  refine ⟨?_, ?_⟩
  · have houtcomes : (logs.zip outcomes).map Prod.snd = outcomes :=
      List.map_snd_zip (Nat.le_of_eq h)
    rw [← houtcomes, List.countP_map, houtcomes]
    rfl
  · have hlogs : (logs.zip outcomes).map Prod.fst = logs :=
      List.map_fst_zip (Nat.le_of_eq h.symm)
    rw [← hlogs, List.map_map, hlogs]
    rfl

theorem total_snoc (added : List Nat) (c : Nat) (count : Nat → Nat) :
    (.of ((added ++ [c]).map count).sum : Counter) =
      .of (added.map count).sum + .of (count c) := by
  rw [List.map_append, List.sum_append, Sat.of_add, List.map_singleton, List.sum_singleton]

theorem phase_set (s : Shared) (c other : Nat) (phase : Phase) :
    (s.setPhase c phase).phase other = if other = c then phase else s.phase other := rfl

section
variable [Libraries] [SerdeJson]

theorem outcomes_length {call : Call} {outcomes : List EventOutcome}
    (h : Shared.outcomesOf call = .ok outcomes) : outcomes.length = call.logs.length := by
  unfold Shared.outcomesOf runEventsPy runEvents at h
  cases hc : compileVrlProgram call.compile call.vrlCode with
  | error e => simp [hc, Except.mapError, bind, Except.bind] at h
  | ok program =>
    simp only [hc, Except.mapError, bind, Except.bind, pure, Except.pure, Except.ok.injEq] at h
    rw [← h, List.length_mapIdx]

/-- Every event of a finished batch is counted once, as processed or as an error. -/
theorem counts_add_up {call : Call} {outcomes : List EventOutcome}
    (h : Shared.outcomesOf call = .ok outcomes) :
    okCount call + errorCount call = call.logs.length := by
  rw [← outcomes_length h, List.length_eq_countP_add_countP (p := (·.result.isOk))]
  simp only [okCount, errorCount, h]
  congr 1
  apply List.countP_congr
  intro outcome _
  simp

/-- What a history leaves: each counter is the sum over the calls added since
the last initialize, and a call is added exactly when it returns normally. -/
structure Recorded (calls : Nat → Call) (trace : List Act) (s : Shared) : Prop where
  ran : ∀ c outcomes, s.phase c = .ran outcomes → Shared.outcomesOf (calls c) = .ok outcomes
  once : (added trace).Nodup
  returned : ∀ c, c ∈ added trace ↔ ∃ results, s.phase c = .returned (.ok results)
  compiled : ∀ c ∈ added trace, ∃ outcomes, Shared.outcomesOf (calls c) = .ok outcomes
  processed : s.vector.eventsProcessed =
    .of ((added (sinceInitialize trace)).map fun c => okCount (calls c)).sum
  errors : s.vector.errors =
    .of ((added (sinceInitialize trace)).map fun c => errorCount (calls c)).sum
  bytes : s.vector.bytesProcessed =
    .of ((added (sinceInitialize trace)).map fun c => byteCount (calls c)).sum

theorem recorded_start (calls : Nat → Call) : Recorded calls [] .start := by
  refine ⟨?_, List.nodup_nil, ?_, ?_, rfl, rfl, rfl⟩
  · intro c outcomes h
    cases h
  · intro c
    simp [added, Shared.start]
  · intro c h
    cases h

theorem recorded_initialize {calls : Nat → Call} {trace : List Act} {s : Shared}
    (h : Recorded calls trace s) (now : Instant) :
    Recorded calls (trace ++ [.initializePipeline now])
      { s with vector := s.vector.initializePipeline now } := by
  have hsame : added (trace ++ [.initializePipeline now]) = added trace := by
    rw [added_append]
    exact List.append_nil (added trace)
  have hsince : sinceInitialize (trace ++ [.initializePipeline now]) = [] := since_snoc trace _
  exact ⟨h.ran, hsame ▸ h.once, hsame ▸ h.returned, hsame ▸ h.compiled, by rw [hsince]; rfl,
    by rw [hsince]; rfl, by rw [hsince]; rfl⟩

/-- A step that moves one call without returning it normally changes no counter. -/
theorem recorded_phase {calls : Nat → Call} {trace : List Act} {s : Shared} {act : Act} {c : Nat}
    {phase : Phase} (h : Recorded calls trace s) (hinit : act.isInitialize = false)
    (hadd : added [act] = []) (hold : ∀ results, s.phase c ≠ .returned (.ok results))
    (hnew : ∀ results, phase ≠ .returned (.ok results))
    (hran : ∀ outcomes, phase = .ran outcomes → Shared.outcomesOf (calls c) = .ok outcomes) :
    Recorded calls (trace ++ [act]) (s.setPhase c phase) := by
  have hsame : added (trace ++ [act]) = added trace := by
    rw [added_append, hadd, List.append_nil]
  have hsince : added (sinceInitialize (trace ++ [act])) = added (sinceInitialize trace) := by
    rw [since_snoc, hinit, if_neg (by simp), added_append, hadd, List.append_nil]
  refine ⟨?_, hsame ▸ h.once, ?_, hsame ▸ h.compiled, hsince ▸ h.processed, hsince ▸ h.errors,
    hsince ▸ h.bytes⟩
  · intro other outcomes hphase
    rw [phase_set] at hphase
    split at hphase
    · rename_i heq
      exact heq ▸ hran outcomes hphase
    · exact h.ran other outcomes hphase
  · intro other
    rw [hsame, h.returned, phase_set]
    split
    · rename_i heq
      subst heq
      exact ⟨fun ⟨results, hr⟩ => absurd hr (hold results),
        fun ⟨results, hr⟩ => absurd hr (hnew results)⟩
    · rfl

theorem totalled_of_recorded {calls : Nat → Call} {trace : List Act} {s : Shared}
    (h : Recorded calls trace s) (now : Instant) :
    Totalled calls (added (sinceInitialize trace)) (s.vector.getStats now) := by
  refine ⟨?_, ?_, ?_⟩
  · simp only [Vector.getStats, h.processed, Sat.val_of]
  · simp only [Vector.getStats, h.errors, Sat.val_of]
  · simp only [Vector.getStats, h.bytes, Sat.val_of]

/-- Every pending call started in the current run, while initializes wait for pending calls. -/
structure Own (calls : Nat → Call) (trace : List Act) (s : Shared) : Prop where
  pending : ∀ c, s.Pending calls c → c ∈ started (sinceInitialize trace)
  added : ∀ c ∈ added (sinceInitialize trace), c ∈ started (sinceInitialize trace)

theorem pending_set {calls : Nat → Call} {s : Shared} {c other : Nat} {phase : Phase}
    (h : (s.setPhase c phase).Pending calls other) :
    (other = c ∧ ((phase = .checked ∧ ∃ outcomes, Shared.outcomesOf (calls c) = .ok outcomes) ∨
      ∃ outcomes, phase = .ran outcomes)) ∨ s.Pending calls other := by
  unfold Shared.Pending at h ⊢
  rw [phase_set] at h
  by_cases heq : other = c
  · subst heq
    rw [if_pos rfl] at h
    exact Or.inl ⟨rfl, h⟩
  · rw [if_neg heq] at h
    exact Or.inr h

/-- A step on one call keeps every call to its run, if that call is in this run wherever it is
pending or added now. -/
theorem own_phase {calls : Nat → Call} {trace : List Act} {s : Shared} {act : Act} {c : Nat}
    {phase : Phase} {vector : Vector} (h : Own calls trace s) (hinit : act.isInitialize = false)
    (hnow : phase = .checked ∨ (∃ outcomes, phase = .ran outcomes) →
      c ∈ started (sinceInitialize (trace ++ [act])))
    (hadd : ∀ other, act = .add other → other ∈ started (sinceInitialize trace)) :
    Own calls (trace ++ [act]) ({ s with vector := vector }.setPhase c phase) := by
  refine ⟨?_, ?_⟩
  · intro other hp
    rcases pending_set hp with ⟨rfl, hphase⟩ | hold
    · exact hnow (hphase.imp_left And.left)
    · exact started_mono hinit (h.pending other hold)
  · intro other hc
    rcases added_snoc hinit hc with hold | hnew
    · exact started_mono hinit (h.added other hold)
    · exact started_mono hinit (hadd other hnew)

theorem unmixed_of_own {calls : Nat → Call} {trace : List Act} {s : Shared}
    (hrec : Recorded calls trace s) (hown : Own calls trace s) : Unmixed calls trace s := by
  refine ⟨hown.added, fun now => ?_⟩
  have hall : (added (sinceInitialize trace)).filter
      (· ∈ started (sinceInitialize trace)) = added (sinceInitialize trace) := by
    apply List.filter_eq_self.mpr
    intro c hc
    exact decide_eq_true (hown.added c hc)
  rw [hall]
  exact totalled_of_recorded hrec now

end

section
variable [Libraries] [SerdeJson]

/-- What a batch's totals come to, from whatever was counted before. -/
theorem convert_fold_totals (pairs : List (String × EventOutcome)) (totals : Totals)
    (results : List PyDict) :
    let after := (pairs.foldl (fun (totals, results) (log, outcome) =>
      (Totals.count totals log outcome, results ++ [vrlOutcomeToPyDict outcome.result log]))
      (totals, results)).1
    after.processed = totals.processed + .of (pairs.countP (·.2.result.isOk)) ∧
    after.errors = totals.errors + .of (pairs.countP (!·.2.result.isOk)) ∧
    after.bytes = totals.bytes + .of (pairs.map (·.1.utf8ByteSize)).sum := by
  induction pairs generalizing totals results with
  | nil =>
    have hzero : (Sat.of 0 : Counter) = 0 := rfl
    simp [hzero]
  | cons pair rest ih =>
    obtain ⟨log, outcome⟩ := pair
    obtain ⟨hp, he, hb⟩ := ih (totals.count log outcome)
      (results ++ [vrlOutcomeToPyDict outcome.result log])
    simp only [List.foldl_cons, hp, he, hb, List.countP_cons, List.map_cons, List.sum_cons]
    cases ho : outcome.result with
    | ok v =>
      simp only [Totals.count, ho, Except.isOk, Except.toBool, if_true, Bool.not_true,
        Bool.false_eq_true, if_false, Nat.add_zero, Sat.of_add]
      refine ⟨?_, trivial, ?_⟩
      · rw [add_assoc, add_comm (Sat.of 1)]
      · rw [add_assoc]
    | error e =>
      simp only [Totals.count, ho, Except.isOk, Except.toBool, if_true, Bool.not_false,
        Bool.false_eq_true, if_false, Nat.add_zero, Sat.of_add]
      refine ⟨trivial, ?_, ?_⟩
      · rw [add_assoc, add_comm (Sat.of 1)]
      · rw [add_assoc]

/-- A finished batch adds its own counts to the counters, and nothing else. -/
theorem finish_batch_counts {call : Call} {outcomes : List EventOutcome}
    (h : Shared.outcomesOf call = .ok outcomes) (v : Vector) :
    (v.finishBatch call.logs outcomes).2 = { v with
      eventsProcessed := v.eventsProcessed + .of (okCount call)
      errors := v.errors + .of (errorCount call)
      bytesProcessed := v.bytesProcessed + .of (byteCount call) } := by
  obtain ⟨hp, he, hb⟩ := convert_fold_totals (call.logs.zip outcomes) ⟨0, 0, 0⟩ []
  have hlen := outcomes_length h
  obtain ⟨hok, hbytes⟩ := zip_counts hlen (·.result.isOk)
  have herr := (zip_counts hlen (!·.result.isOk)).1
  rw [hok, zero_add] at hp
  rw [herr, zero_add] at he
  rw [hbytes, zero_add] at hb
  simp only [Vector.finishBatch, Vector.convertBatch, hp, he, hb, okCount, errorCount, byteCount, h]

/-- Everything a step can do. -/
theorem step_cases {calls : Nat → Call} {s s' : Shared} {act : Act}
    (h : Shared.step calls s act = some s') :
    (∃ now, act = .initializePipeline now ∧
      s' = { s with vector := s.vector.initializePipeline now }) ∨
    (∃ now, act = .getStats now ∧ s' = s) ∨
    (∃ c phase, act = .check c ∧ s.phase c = .waiting ∧ s' = s.setPhase c phase ∧
      (phase = .checked ∨ ∃ e, phase = .returned (.error e))) ∨
    (∃ c phase, act = .run c ∧ s.phase c = .checked ∧ s' = s.setPhase c phase ∧
      ((∃ outcomes, Shared.outcomesOf (calls c) = .ok outcomes ∧ phase = .ran outcomes) ∨
        ∃ e, phase = .returned (.error e))) ∨
    (∃ c outcomes results, act = .add c ∧ s.phase c = .ran outcomes ∧
      s' = { s with vector := (s.vector.finishBatch (calls c).logs outcomes).2 }.setPhase c
        (.returned (.ok results))) := by
  cases act with
  | initializePipeline now => exact Or.inl ⟨now, rfl, (Option.some.inj h).symm⟩
  | getStats now => exact Or.inr (Or.inl ⟨now, rfl, (Option.some.inj h).symm⟩)
  | check c =>
    simp only [Shared.step] at h
    split at h
    · rename_i hw
      split at h
      · exact Or.inr (Or.inr (Or.inl ⟨c, _, rfl, hw, (Option.some.inj h).symm, Or.inl rfl⟩))
      · rename_i e _
        exact Or.inr (Or.inr (Or.inl ⟨c, _, rfl, hw, (Option.some.inj h).symm, Or.inr ⟨e, rfl⟩⟩))
    · cases h
  | run c =>
    simp only [Shared.step] at h
    split at h
    · rename_i hc
      split at h
      · rename_i outcomes ho
        exact Or.inr (Or.inr (Or.inr (Or.inl ⟨c, _, rfl, hc, (Option.some.inj h).symm,
          Or.inl ⟨outcomes, ho, rfl⟩⟩)))
      · rename_i e _
        exact Or.inr (Or.inr (Or.inr (Or.inl ⟨c, _, rfl, hc, (Option.some.inj h).symm,
          Or.inr ⟨e, rfl⟩⟩)))
    · cases h
  | add c =>
    simp only [Shared.step] at h
    split at h
    · rename_i outcomes hr
      exact Or.inr (Or.inr (Or.inr (Or.inr ⟨c, outcomes, _, rfl, hr, (Option.some.inj h).symm⟩)))
    · cases h

theorem recorded_add {calls : Nat → Call} {trace : List Act} {s : Shared} {c : Nat}
    {outcomes : List EventOutcome} (h : Recorded calls trace s)
    (hphase : s.phase c = .ran outcomes) (results : List PyDict) :
    Recorded calls (trace ++ [.add c])
      ({ s with vector := (s.vector.finishBatch (calls c).logs outcomes).2 }.setPhase c
        (.returned (.ok results))) := by
  have hok := h.ran c outcomes hphase
  have hadd : added (trace ++ [.add c]) = added trace ++ [c] := added_append trace [.add c]
  have hsince : added (sinceInitialize (trace ++ [.add c])) =
      added (sinceInitialize trace) ++ [c] := by
    rw [since_snoc]
    exact added_append (sinceInitialize trace) [.add c]
  have hnew : c ∉ added trace := by
    intro hmem
    obtain ⟨r, hr⟩ := (h.returned c).mp hmem
    rw [hphase] at hr
    cases hr
  have hcounts := finish_batch_counts hok s.vector
  refine ⟨?_, ?_, ?_, ?_, ?_, ?_, ?_⟩
  · intro other outcomes' hran
    rw [phase_set] at hran
    split at hran
    · cases hran
    · exact h.ran other outcomes' hran
  · rw [hadd]
    exact List.Nodup.append h.once (List.nodup_singleton c)
      (List.disjoint_singleton.mpr hnew)
  · intro other
    rw [hadd, phase_set, List.mem_append, List.mem_singleton, h.returned]
    split
    · rename_i heq
      exact ⟨fun _ => ⟨results, rfl⟩, fun _ => Or.inr heq⟩
    · rename_i hne
      exact or_iff_left hne
  · intro other hmem
    rw [hadd, List.mem_append, List.mem_singleton] at hmem
    rcases hmem with hmem | rfl
    · exact h.compiled other hmem
    · exact ⟨outcomes, hok⟩
  · rw [hsince, total_snoc, ← h.processed]
    simp only [Shared.setPhase, hcounts]
  · rw [hsince, total_snoc, ← h.errors]
    simp only [Shared.setPhase, hcounts]
  · rw [hsince, total_snoc, ← h.bytes]
    simp only [Shared.setPhase, hcounts]

theorem recorded_step {calls : Nat → Call} {trace : List Act} {s s' : Shared} {act : Act}
    (h : Recorded calls trace s) (hs : Shared.step calls s act = some s') :
    Recorded calls (trace ++ [act]) s' := by
  rcases step_cases hs with ⟨now, rfl, rfl⟩ | ⟨now, rfl, rfl⟩ | ⟨c, phase, rfl, hw, rfl, hphase⟩ |
    ⟨c, phase, rfl, hc, rfl, hphase⟩ | ⟨c, outcomes, results, rfl, hr, rfl⟩
  · exact recorded_initialize h now
  · have hsame : ∀ steps, added (steps ++ [.getStats now]) = added steps := by
      intro steps
      rw [added_append]
      exact List.append_nil (added steps)
    have hsince : added (sinceInitialize (trace ++ [.getStats now])) =
        added (sinceInitialize trace) := by
      rw [since_snoc]
      exact hsame (sinceInitialize trace)
    exact ⟨h.ran, hsame trace ▸ h.once, hsame trace ▸ h.returned, hsame trace ▸ h.compiled,
      hsince ▸ h.processed, hsince ▸ h.errors, hsince ▸ h.bytes⟩
  · refine recorded_phase h rfl rfl (by simp [hw]) ?_ ?_ <;>
      rcases hphase with rfl | ⟨e, rfl⟩ <;> simp
  · refine recorded_phase h rfl rfl (by simp [hc]) ?_ ?_
    · rcases hphase with ⟨outcomes, _, rfl⟩ | ⟨e, rfl⟩ <;> simp
    · rcases hphase with ⟨outcomes, ho, rfl⟩ | ⟨e, rfl⟩
      · intro other heq
        cases heq
        exact ho
      · simp
  · exact recorded_add h hr results

theorem recorded_run {calls : Nat → Call} {trace : List Act} {s : Shared}
    (h : exec (Shared.step calls) .start trace = some s) : Recorded calls trace s :=
  exec_invariant (recorded_start calls) (fun _ _ _ _ _ hrec hs => recorded_step hrec hs) h

/-- No count is lost or duplicated: in every interleaving the counters are the
exact totals of the calls added since the last initialize, each of them once. -/
theorem counters_exact {calls : Nat → Call} {trace : List Act} {s : Shared}
    (h : exec (Shared.step calls) .start trace = some s) :
    (∀ now, Totalled calls (added (sinceInitialize trace)) (s.vector.getStats now)) ∧
    (added trace).Nodup ∧
    (∀ c ∈ added trace, okCount (calls c) + errorCount (calls c) = (calls c).logs.length) ∧
    (∀ c, c ∈ added trace ↔ ∃ results, s.phase c = .returned (.ok results)) := by
  have hrec := recorded_run h
  refine ⟨totalled_of_recorded hrec, hrec.once, ?_, hrec.returned⟩
  intro c hc
  obtain ⟨outcomes, ho⟩ := hrec.compiled c hc
  exact counts_add_up ho

theorem idle_before {calls : Nat → Call} {before after : List Act}
    (h : InitializesIdle calls (before ++ after)) : InitializesIdle calls before := by
  intro first now rest s heq hr
  exact h first now (rest ++ after) s (by rw [heq, List.append_assoc, List.cons_append]) hr

/-- One more initialize, taken while no call is pending. -/
theorem idle_append {calls : Nat → Call} {before rest : List Act} {now : Instant}
    (h : InitializesIdle calls before)
    (hbefore : ∀ s, exec (Shared.step calls) .start before = some s → ∀ c, ¬s.Pending calls c)
    (hrest : ∀ act ∈ rest, act.isInitialize = false) :
    InitializesIdle calls (before ++ .initializePipeline now :: rest) := by
  intro first now' after s heq hr
  rcases List.append_eq_append_iff.mp heq with ⟨between, rfl, hafter⟩ | ⟨between, rfl, hafter⟩
  · cases between with
    | nil =>
      rw [List.append_nil] at hr
      exact hbefore s hr
    | cons act between =>
      have hin := hrest (.initializePipeline now') (by rw [(List.cons.inj hafter).2]; simp)
      cases hin
  · cases between with
    | nil =>
      rw [List.append_nil] at hbefore
      exact hbefore s hr
    | cons act between =>
      obtain ⟨rfl, _⟩ := List.cons.inj hafter
      exact h first now' between s rfl hr

theorem own_step {calls : Nat → Call} {trace : List Act} {s s' : Shared} {act : Act}
    (hr : exec (Shared.step calls) .start trace = some s) (h : Own calls trace s)
    (hs : Shared.step calls s act = some s') (hidle : InitializesIdle calls (trace ++ [act])) :
    Own calls (trace ++ [act]) s' := by
  rcases step_cases hs with ⟨now, rfl, rfl⟩ | ⟨now, rfl, rfl⟩ | ⟨c, phase, rfl, hw, rfl, hphase⟩ |
    ⟨c, phase, rfl, hc, rfl, hphase⟩ | ⟨c, outcomes, results, rfl, hran, rfl⟩
  · refine ⟨fun c hp => absurd hp (hidle trace now [] s rfl hr c), fun c hc => ?_⟩
    rw [since_snoc] at hc
    cases hc
  · refine ⟨fun c hp => started_mono rfl (h.pending c hp), fun c hc => ?_⟩
    rcases added_snoc rfl hc with hold | hnew
    · exact started_mono rfl (h.added c hold)
    · cases hnew
  · apply own_phase h rfl
    · intro _
      rw [since_snoc, if_neg (by simp [Act.isInitialize]), started_append]
      exact List.mem_append_right _ (List.mem_singleton_self c)
    · intro other heq
      cases heq
  · apply own_phase h rfl
    · intro hnow
      rcases hphase with ⟨outcomes, ho, rfl⟩ | ⟨e, rfl⟩
      · exact started_mono rfl (h.pending c (Or.inl ⟨hc, outcomes, ho⟩))
      · rcases hnow with hx | ⟨_, hx⟩ <;> cases hx
    · intro other heq
      cases heq
  · apply own_phase h rfl
    · intro hnow
      rcases hnow with hx | ⟨_, hx⟩ <;> cases hx
    · intro other heq
      cases heq
      exact h.pending c (Or.inr ⟨outcomes, hran⟩)

theorem own_run {calls : Nat → Call} {trace : List Act} {s : Shared}
    (h : exec (Shared.step calls) .start trace = some s)
    (hidle : InitializesIdle calls trace) : Own calls trace s := by
  revert hidle
  refine exec_invariant (P := fun trace s => InitializesIdle calls trace → Own calls trace s)
    ?_ ?_ h
  · intro _
    refine ⟨fun c hp => ?_, fun c hc => ?_⟩
    · rcases hp with ⟨hc, _⟩ | ⟨_, hc⟩ <;> cases hc
    · cases hc
  · intro before s act t hr hown hs hidle
    exact own_step hr (hown (idle_before hidle)) hs hidle

/-- The add of a batch that ran before an initialize counts in the run after it. -/
theorem ran_mixes {calls : Nat → Call} {before between : List Act} {s t : Shared} {c : Nat}
    {outcomes : List EventOutcome} {now : Instant}
    (hr : exec (Shared.step calls) .start before = some s)
    (hb : exec (Shared.step calls) { s with vector := s.vector.initializePipeline now } between =
      some t)
    (hran : t.phase c = .ran outcomes) (hquiet : ∀ act ∈ between, act.isInitialize = false)
    (hstart : c ∉ started between) :
    ∃ s', exec (Shared.step calls) .start
        (before ++ .initializePipeline now :: (between ++ [.add c])) = some s' ∧
      ¬Unmixed calls (before ++ .initializePipeline now :: (between ++ [.add c])) s' := by
  have hsince : sinceInitialize
      (before ++ .initializePipeline now :: (between ++ [.add c])) = between ++ [.add c] := by
    apply since_after
    intro act hact
    rcases List.mem_append.mp hact with hin | hlast
    · exact hquiet act hin
    · rw [List.mem_singleton.mp hlast]
      rfl
  have hadd : ∃ s', Shared.step calls t (.add c) = some s' := by
    simp only [Shared.step, hran]
    exact ⟨_, rfl⟩
  have hinit : Shared.step calls s (.initializePipeline now) =
      some { s with vector := s.vector.initializePipeline now } := rfl
  obtain ⟨s', hs'⟩ := hadd
  refine ⟨s', ?_, ?_⟩
  · rw [exec_append, hr, Option.bind_some, exec, hinit, Option.bind_some, exec_snoc, hb,
      Option.bind_some, hs']
  · intro hun
    have hmem := hun.startedSince c
    rw [hsince, started_append, added_append] at hmem
    rcases List.mem_append.mp (hmem (List.mem_append_right _ (List.mem_singleton_self c))) with
      hin | hlast
    · exact hstart hin
    · cases hlast

/-- A pending call lets an initialize be followed by counts of the run before it. -/
theorem pending_mixes {calls : Nat → Call} {before : List Act} {s : Shared} {c : Nat}
    (hr : exec (Shared.step calls) .start before = some s) (hp : s.Pending calls c)
    (now : Instant) :
    ∃ after s', exec (Shared.step calls) .start (before ++ .initializePipeline now :: after) =
      some s' ∧ ¬Unmixed calls (before ++ .initializePipeline now :: after) s' := by
  rcases hp with ⟨hchecked, outcomes, ho⟩ | ⟨outcomes, hran⟩
  · -- the batch is yet to run
    have hrun : exec (Shared.step calls) { s with vector := s.vector.initializePipeline now }
        [.run c] = some ({ s with vector := s.vector.initializePipeline now }.setPhase c
          (.ran outcomes)) := by
      simp only [exec, Shared.step, hchecked, ho, Option.bind_some]
    refine ⟨[.run c] ++ [.add c], ran_mixes hr hrun (if_pos rfl) ?_ (fun h => by cases h)⟩
    intro act hact
    rw [List.mem_singleton.mp hact]
    rfl
  · have hnone : exec (Shared.step calls) { s with vector := s.vector.initializePipeline now }
        [] = some { s with vector := s.vector.initializePipeline now } := rfl
    exact ⟨[] ++ [.add c], ran_mixes hr hnone hran (fun _ h => by cases h) (fun h => by cases h)⟩

/-- Statistics stay with one run in every history that initializes only while no
call is pending, and any other initialize can be followed by a mixture. -/
theorem one_run_only (calls : Nat → Call) :
    (∀ trace s, exec (Shared.step calls) .start trace = some s → InitializesIdle calls trace →
      Unmixed calls trace s) ∧
    ∀ before s c, exec (Shared.step calls) .start before = some s → s.Pending calls c →
      ∀ now, ∃ after s',
        exec (Shared.step calls) .start (before ++ .initializePipeline now :: after) = some s' ∧
          ¬Unmixed calls (before ++ .initializePipeline now :: after) s' :=
  ⟨fun _ _ hr hidle => unmixed_of_own (recorded_run hr) (own_run hr hidle),
    fun _ _ _ hr hp now => pending_mixes hr hp now⟩

end

section
local instance : Libraries := asciiLibraries
local instance : SerdeJson := readsDiskFull

/-- Every call is the program `.` on one plain-text log. -/
def plainCalls : Nat → Call := fun _ => ⟨["ok"], ".", fun _ => .ok unchanged⟩

theorem plain_outcomes (c : Nat) : ∃ outcomes, Shared.outcomesOf (plainCalls c) = .ok outcomes :=
  ⟨_, run_events_py_ok (compile_dot unchanged) ["ok"] ∅⟩

theorem plain_checked : exec (Shared.step plainCalls) .start [.initializePipeline 0, .check 0] =
    some (Shared.setPhase { Shared.start with vector := Vector.new.initializePipeline 0 } 0
      .checked) := rfl

/-- A batch checked before an initialize adds to the counters after it. -/
theorem batch_across_initialize :
    ∃ s, exec (Shared.step plainCalls) .start
        [.initializePipeline 0, .check 0, .initializePipeline 1, .run 0, .add 0] = some s ∧
      ¬Unmixed plainCalls
        [.initializePipeline 0, .check 0, .initializePipeline 1, .run 0, .add 0] s := by
  obtain ⟨outcomes, ho⟩ := plain_outcomes 0
  have hrun : exec (Shared.step plainCalls) ⟨Vector.new.initializePipeline 1,
      fun other => if other = 0 then .checked else .waiting⟩ [.run 0] =
      some (Shared.setPhase ⟨Vector.new.initializePipeline 1,
        fun other => if other = 0 then .checked else .waiting⟩ 0 (.ran outcomes)) := by
    simp only [exec, Shared.step, if_true, ho, Option.bind_some]
  exact ran_mixes plain_checked hrun rfl (by decide) (by decide)

end

section
local instance : Libraries := asciiLibraries
local instance : SerdeJson := readsNested

/-- Every call has one log, and call 1 one more, on which its program fails. -/
def codedCalls : Nat → Call :=
  fun c => ⟨if c = 1 then ["up", nestedText] else ["up"], ".", fun _ => .ok abortsOnCode⟩

/-- Two calls that overlap; after a second initialize there are two more. -/
def firstRun : List Act :=
  [.initializePipeline 0, .check 0, .check 1, .run 1, .run 0, .add 1, .add 0]

def secondRun : List Act := [.check 2, .check 3, .run 3, .add 3, .run 2, .getStats 9, .add 2]

theorem coded_runs : ∃ s, exec (Shared.step codedCalls) .start
    (firstRun ++ .initializePipeline 8 :: secondRun) = some s :=
  Option.isSome_iff_exists.mp (by decide +kernel)

theorem overlapping_calls_counted :
    ∃ s, exec (Shared.step codedCalls) .start
        (firstRun ++ .initializePipeline 8 :: secondRun) = some s ∧
      added (sinceInitialize (firstRun ++ .initializePipeline 8 :: secondRun)) = [3, 2] ∧
      (∀ now, Totalled codedCalls (added (sinceInitialize
        (firstRun ++ .initializePipeline 8 :: secondRun))) (s.vector.getStats now)) ∧
      (∀ c, c ∈ [1, 0, 3, 2] ↔ ∃ results, s.phase c = .returned (.ok results)) := by
  obtain ⟨s, hr⟩ := coded_runs
  obtain ⟨htotal, _, _, hreturned⟩ := counters_exact hr
  exact ⟨s, hr, by decide, htotal, hreturned⟩

theorem first_run_idle : InitializesIdle codedCalls firstRun := by
  have hnone : InitializesIdle codedCalls [] := fun first _ _ _ heq =>
    absurd heq.symm (List.append_ne_nil_of_right_ne_nil first (List.cons_ne_nil _ _))
  refine idle_append hnone ?_ (by decide)
  intro s hr c hp
  cases hr
  rcases hp with ⟨hc, _⟩ | ⟨_, hc⟩ <;> cases hc

def isReturned : Phase → Bool
  | .returned _ => true
  | _ => false

/-- When the second initialize is taken both calls of the first run have returned. -/
theorem first_run_returned {s : Shared}
    (hr : exec (Shared.step codedCalls) .start firstRun = some s) (c : Nat) : ¬s.Pending codedCalls c := by
  intro hp
  have hcalls : c ∈ [0, 1] := (own_run hr first_run_idle).pending c hp
  have hboth : ∀ d ∈ [0, 1], ((exec (Shared.step codedCalls) .start firstRun).any fun s =>
      isReturned (s.phase d)) = true := by decide +kernel
  have hreturned := hboth c hcalls
  rw [hr, Option.any_some] at hreturned
  rcases hp with ⟨hc, _⟩ | ⟨_, hc⟩ <;> · rw [hc] at hreturned; cases hreturned

theorem overlapping_calls_unmixed :
    ∃ s, exec (Shared.step codedCalls) .start
        (firstRun ++ .initializePipeline 8 :: secondRun) = some s ∧
      Unmixed codedCalls (firstRun ++ .initializePipeline 8 :: secondRun) s := by
  obtain ⟨s, hr⟩ := coded_runs
  have hidle : InitializesIdle codedCalls (firstRun ++ .initializePipeline 8 :: secondRun) :=
    idle_append first_run_idle (fun s hr c => first_run_returned hr c) (by decide)
  exact ⟨s, hr, (one_run_only codedCalls).1 _ s hr hidle⟩

end

end VectorVrl.Proofs.Stats
