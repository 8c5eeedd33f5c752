import VectorVrl.Proofs.Stats
import VectorVrl.VectorCalls

namespace VectorVrl.Proofs.VectorCalls
open Lib.Runs Lib.Linearize Outcome Proofs.Stats

section
variable [Libraries] [SerdeJson] {calls : Nat → VectorCall}

/-- Everything a step can do. -/
inductive Moves (calls : Nat → VectorCall) (s : CalledVector) (c : Nat) (now : Instant) :
    CalledVector → Prop where
  | initializes (hc : calls c = .initializePipeline) (ha : s.answer c = none) :
      Moves calls s c now
        ⟨{ s.shared with vector := s.shared.vector.initializePipeline now },
          fun other => if other = c then some .initialized else s.answer other⟩
  | reads (hc : calls c = .getStats) (ha : s.answer c = none) :
      Moves calls s c now
        ⟨s.shared, fun other =>
          if other = c then some (.stats (s.shared.vector.getStats now)) else s.answer other⟩
  | checks {call : Call} (hc : calls c = .processLogs call) (hp : s.shared.phase c = .waiting)
      (hi : s.shared.vector.checkInitialized = .ok ()) :
      Moves calls s c now { s with shared := s.shared.setPhase c .checked }
  | refused {call : Call} {e : PyErr} (hc : calls c = .processLogs call)
      (hp : s.shared.phase c = .waiting) (hi : s.shared.vector.checkInitialized = .error e) :
      Moves calls s c now { s with shared := s.shared.setPhase c (.returned (.error e)) }
  | runs {call : Call} {outcomes : List EventOutcome} (hc : calls c = .processLogs call)
      (hp : s.shared.phase c = .checked) (ho : Shared.outcomesOf call = .ok outcomes) :
      Moves calls s c now { s with shared := s.shared.setPhase c (.ran outcomes) }
  | fails {call : Call} {e : PyErr} (hc : calls c = .processLogs call)
      (hp : s.shared.phase c = .checked) (ho : Shared.outcomesOf call = .error e) :
      Moves calls s c now { s with shared := s.shared.setPhase c (.returned (.error e)) }
  | adds {call : Call} {outcomes : List EventOutcome} (hc : calls c = .processLogs call)
      (hp : s.shared.phase c = .ran outcomes) :
      Moves calls s c now
        { s with
          shared := Shared.setPhase
            { s.shared with vector := (s.shared.vector.finishBatch call.logs outcomes).2 } c
            (.returned (.ok (s.shared.vector.finishBatch call.logs outcomes).1)) }

theorem step_moves {s t : CalledVector} {act : VectorAct} (h : s.step calls act = some t) :
    Moves calls s act.call act.now t := by
  obtain ⟨c, now⟩ := act
  unfold CalledVector.step at h
  dsimp only at h ⊢
  cases hc : calls c with
  | initializePipeline =>
    rw [hc] at h
    dsimp only at h
    split at h
    · rename_i ha
      cases h
      exact .initializes hc (Option.isNone_iff_eq_none.mp ha)
    · cases h
  | getStats =>
    rw [hc] at h
    dsimp only at h
    split at h
    · rename_i ha
      cases h
      exact .reads hc (Option.isNone_iff_eq_none.mp ha)
    · cases h
  | processLogs call =>
    simp only [hc] at h
    have hbatch : (calls c).batch = call := by rw [hc]; rfl
    cases hp : s.shared.phase c with
    | waiting =>
      simp only [hp, Phase.next, Option.bind_some, Shared.step] at h
      cases hi : s.shared.vector.checkInitialized with
      | ok =>
        rw [hi] at h
        cases h
        exact .checks hc hp hi
      | error e =>
        rw [hi] at h
        cases h
        exact .refused hc hp hi
    | checked =>
      simp only [hp, Phase.next, Option.bind_some, Shared.step, hbatch] at h
      cases ho : Shared.outcomesOf call with
      | ok outcomes =>
        rw [ho] at h
        cases h
        exact .runs hc hp ho
      | error e =>
        rw [ho] at h
        cases h
        exact .fails hc hp ho
    | ran outcomes =>
      simp only [hp, Phase.next, Option.bind_some, Shared.step, hbatch, Option.map_some,
        Option.some.injEq] at h
      subst h
      exact .adds hc hp
    | returned result =>
      simp only [hp, Phase.next, Option.bind_none] at h
      cases h

/-- A pipeline against the same calls made one at a time: a call that has passed the
check is still to be made, on a pipeline that stays initialized. -/
structure Follows (calls : Nat → VectorCall) (s : CalledVector) (v : Vector) : Prop where
  vector : s.shared.vector = v
  checked : ∀ c, s.shared.phase c = .checked → v.initialized = true
  ran : ∀ c call outcomes, calls c = .processLogs call → s.shared.phase c = .ran outcomes →
    v.initialized = true ∧ Shared.outcomesOf call = .ok outcomes

theorem start_follows : Follows calls .start .new :=
  ⟨rfl, fun _ h => (by cases h), fun _ _ _ _ h => (by cases h)⟩

theorem process_refused {v : Vector} {e : PyErr} (h : v.checkInitialized = .error e) (call : Call) :
    v.processLogs call.compile call.logs call.vrlCode = (.error e, v) := by
  rw [Vector.processLogs, h]

omit [Libraries] [SerdeJson] in
theorem check_initialized {v : Vector} (h : v.initialized = true) :
    v.checkInitialized = .ok () := if_pos h

theorem process_failed {v : Vector} {call : Call} {e : PyErr} (h : v.initialized = true)
    (ho : Shared.outcomesOf call = .error e) :
    v.processLogs call.compile call.logs call.vrlCode = (.error e, v) := by
  rw [Shared.outcomesOf] at ho
  rw [Vector.processLogs, check_initialized h, ho]

theorem process_done {v : Vector} {call : Call} {outcomes : List EventOutcome}
    (h : v.initialized = true) (ho : Shared.outcomesOf call = .ok outcomes) :
    v.processLogs call.compile call.logs call.vrlCode =
      (.ok (v.finishBatch call.logs outcomes).1, (v.finishBatch call.logs outcomes).2) := by
  rw [Shared.outcomesOf] at ho
  rw [Vector.processLogs, check_initialized h, ho]

omit [Libraries] [SerdeJson] in
theorem initialized_of_check {v : Vector} (h : v.checkInitialized = .ok ()) :
    v.initialized = true := by
  unfold Vector.checkInitialized at h
  split at h
  · assumption
  · cases h

/-- A step keeps what holds of the other calls, and of its own call from then on. -/
theorem Follows.goes {s : CalledVector} {v w w' : Vector} (h : Follows calls s v) {c : Nat}
    {phase : Phase} (hw : w' = w) (hkeeps : v.initialized = true → w.initialized = true)
    (hchecked : phase = .checked → w.initialized = true)
    (hran : ∀ call outcomes, calls c = .processLogs call → phase = .ran outcomes →
      w.initialized = true ∧ Shared.outcomesOf call = .ok outcomes) :
    Follows calls { s with shared := Shared.setPhase { s.shared with vector := w' } c phase } w := by
  refine ⟨hw, ?_, ?_⟩
  · intro d hd
    rw [Stats.phase_set] at hd
    split at hd
    · exact hchecked hd
    · exact hkeeps (h.checked d hd)
  · intro d call outcomes hcall hd
    rw [Stats.phase_set] at hd
    split at hd
    · rename_i heq
      rw [heq] at hcall
      exact hran call outcomes hcall hd
    · obtain ⟨hinitialized, ho⟩ := h.ran d call outcomes hcall hd
      exact ⟨hkeeps hinitialized, ho⟩

/-- A call's steps change nothing but the last, which is the whole call made then. -/
theorem moves_follow {s t : CalledVector} {v : Vector} {c : Nat} {now : Instant}
    (h : Follows calls s v) (hm : Moves calls s c now t) :
    (s.bound calls c = none ∧ t.bound calls c = none ∧ Follows calls t v) ∨
    (s.bound calls c = none ∧ t.bound calls c = some (v.perform now (calls c)).1 ∧
      Follows calls t (v.perform now (calls c)).2) := by
  have hv := h.vector
  cases hm with
  | initializes hc ha =>
    refine Or.inr ⟨by simp only [CalledVector.bound, hc, ha], ?_, ?_⟩
    · simp only [CalledVector.bound, hc, if_true, Vector.perform]
    · simp only [hc, Vector.perform, hv]
      refine ⟨rfl, fun d _ => rfl, fun d call outcomes hcall hd => ?_⟩
      exact ⟨rfl, (h.ran d call outcomes hcall hd).2⟩
  | reads hc ha =>
    refine Or.inr ⟨by simp only [CalledVector.bound, hc, ha], ?_, ?_⟩
    · simp only [CalledVector.bound, hc, if_true, Vector.perform, hv]
    · rw [hc]
      exact ⟨hv, h.checked, h.ran⟩
  | checks hc hp hi =>
    refine Or.inl ⟨by simp only [CalledVector.bound, hc, hp], ?_, ?_⟩
    · simp only [CalledVector.bound, hc, Stats.phase_set, if_true]
    · rw [hv] at hi
      exact h.goes hv id (fun _ => initialized_of_check hi) (fun _ _ _ hr => by cases hr)
  | refused hc hp hi =>
    rw [hv] at hi
    refine Or.inr ⟨by simp only [CalledVector.bound, hc, hp], ?_, ?_⟩
    · simp only [CalledVector.bound, hc, Stats.phase_set, if_true, Vector.perform,
        process_refused hi]
    · simp only [hc, Vector.perform, process_refused hi]
      exact h.goes hv id (fun hr => by cases hr) (fun _ _ _ hr => by cases hr)
  | runs hc hp ho =>
    refine Or.inl ⟨by simp only [CalledVector.bound, hc, hp], ?_, ?_⟩
    · simp only [CalledVector.bound, hc, Stats.phase_set, if_true]
    · refine h.goes hv id (fun hr => by cases hr) ?_
      intro call outcomes hcall hr
      rw [hc] at hcall
      cases hcall
      cases hr
      exact ⟨h.checked c hp, ho⟩
  | fails hc hp ho =>
    have hfailed := process_failed (h.checked c hp) ho
    refine Or.inr ⟨by simp only [CalledVector.bound, hc, hp], ?_, ?_⟩
    · simp only [CalledVector.bound, hc, Stats.phase_set, if_true, Vector.perform, hfailed]
    · simp only [hc, Vector.perform, hfailed]
      exact h.goes hv id (fun hr => by cases hr) (fun _ _ _ hr => by cases hr)
  | @adds call outcomes hc hp =>
    obtain ⟨hinitialized, ho⟩ := h.ran c call outcomes hc hp
    have hdone := process_done hinitialized ho
    refine Or.inr ⟨by simp only [CalledVector.bound, hc, hp], ?_, ?_⟩
    · simp only [CalledVector.bound, hc, Stats.phase_set, if_true, Vector.perform, hdone, hv]
    · simp only [hc, Vector.perform, hdone, hv]
      exact h.goes rfl (fun _ => hinitialized) (fun hr => by cases hr)
        (fun _ _ _ hr => by cases hr)

theorem moves_other {s t : CalledVector} {c d : Nat} {now : Instant} (hm : Moves calls s c now t)
    (hne : d ≠ c) :
    t.bound calls d = s.bound calls d ∧ t.shared.phase d = s.shared.phase d := by
  cases hm <;> simp [CalledVector.bound, Stats.phase_set, hne]

/-- A call that has begun, or is bound to its answer, stays so. -/
theorem moves_started {s t : CalledVector} {c d : Nat} {now : Instant}
    (hm : Moves calls s c now t) (h : (CalledVector.called calls).started s d) :
    (CalledVector.called calls).started t d := by
  by_cases heq : d = c
  · subst heq
    cases hm with
    | initializes hc ha => exact Or.inl (by simp [CalledVector.bound, hc])
    | reads hc ha => exact Or.inl (by simp [CalledVector.bound, hc])
    | _ => exact Or.inr (by simp [Stats.phase_set])
  · obtain ⟨hbound, hphase⟩ := moves_other hm heq
    change (t.bound calls d).isSome ∨ t.shared.phase d ≠ .waiting
    rw [hbound, hphase]
    exact h

theorem effect_of_step {s t : CalledVector} {act : VectorAct} (h : s.step calls act = some t) :
    (CalledVector.called calls).effect s act =
      if (s.bound calls act.call).isNone ∧ (t.bound calls act.call).isSome then
        some (act.call, act.now)
      else none := by
  change s.effect calls act = _
  rw [CalledVector.effect, h, Option.bind_some]
  cases s.bound calls act.call <;> cases t.bound calls act.call <;> rfl

theorem vector_simulates : Simulates (CalledVector.called calls)
    (fun c now v => v.perform now (calls c)) (Follows calls) := by
  refine ⟨?_, ?_, ?_⟩
  · intro s t act c hs hstarted
    exact moves_started (step_moves hs) hstarted
  · intro s t act v h hs heffect
    have hm := step_moves hs
    rw [effect_of_step hs] at heffect
    rcases moves_follow h hm with ⟨hbefore, hafter, hfollows⟩ | ⟨hbefore, hafter, _⟩
    · refine ⟨hfollows, ?_⟩
      intro c
      by_cases heq : c = act.call
      · rw [heq]
        exact hafter.trans hbefore.symm
      · exact (moves_other hm heq).1
    · rw [hbefore, hafter] at heffect
      cases heffect
  · intro s t act v c found h hs heffect
    have hm := step_moves hs
    rw [effect_of_step hs] at heffect
    split at heffect
    · rename_i hfixes
      cases heffect
      rcases moves_follow h hm with ⟨_, hafter, _⟩ | ⟨hbefore, hafter, hfollows⟩
      · rw [hafter] at hfixes
        cases hfixes.2
      · exact ⟨hfollows, hbefore, Or.inl (Option.isSome_iff_exists.mpr ⟨_, hafter⟩), hafter,
          fun d hne => (moves_other hm hne).1⟩
    · cases heffect

omit [Libraries] [SerdeJson] in
theorem unbound_start (c : Nat) : CalledVector.bound calls .start c = none := by
  unfold CalledVector.bound
  cases calls c <;> rfl

/-- The clock a call is made by is the one of a step of its own. -/
theorem order_found {trace : List VectorAct} {s : CalledVector}
    (hr : exec (CalledVector.step calls) .start trace = some s) {c : Nat} {now : Instant}
    (hmem : (c, now) ∈ (CalledVector.called calls).order .start trace) : ⟨c, now⟩ ∈ trace := by
  refine exec_invariant (P := fun trace _ => ∀ c now,
    (c, now) ∈ (CalledVector.called calls).order .start trace → ⟨c, now⟩ ∈ trace)
    ?_ ?_ hr c now hmem
  · intro c now hmem
    cases hmem
  · intro before u act t hbefore ih hs d now hmem
    rw [order_snoc hbefore, List.mem_append] at hmem
    rw [List.mem_append]
    rcases hmem with hold | hnew
    · exact Or.inl (ih d now hold)
    · rw [effect_of_step hs] at hnew
      split at hnew
      · rw [Option.toList_some, List.mem_singleton] at hnew
        cases hnew
        exact Or.inr (List.mem_singleton.mpr rfl)
      · cases hnew

/-- However their steps fall, the calls on a shared pipeline answer as if each was made
alone, in one order that keeps to the order of calls that do not overlap. -/
theorem vector_linearizable {trace : List VectorAct} {s : CalledVector}
    (hr : exec (CalledVector.step calls) .start trace = some s) :
    ∃ order : List (Nat × Instant),
      (order.map Prod.fst).Nodup ∧
      (∀ c now, (c, now) ∈ order → ⟨c, now⟩ ∈ trace) ∧
      Answers (fun c now v => v.perform now (calls c)) Vector.new order
        (fun c answer => s.bound calls c = some answer) ∧
      (∀ before after mid c d answer, trace = before ++ after →
        exec (CalledVector.step calls) .start before = some mid →
        mid.bound calls c = some answer → mid.bound calls d = none →
        mid.shared.phase d = .waiting →
        ∃ front back, order = front ++ back ∧ c ∈ front.map Prod.fst ∧
          d ∉ front.map Prod.fst) ∧
      s.shared.vector = replay (fun c now v => v.perform now (calls c)) Vector.new order := by
  have hlinear := run_linear vector_simulates (o := CalledVector.called calls) start_follows
    unbound_start hr
  refine ⟨(CalledVector.called calls).order .start trace, hlinear.once, ?_, hlinear.answers, ?_,
    hlinear.state.vector⟩
  · intro c now hmem
    exact order_found hr hmem
  · intro before after mid c d answer htrace hbefore hbound hunbound hwaiting
    rw [htrace]
    rw [htrace, exec_append, hbefore] at hr
    refine real_time vector_simulates start_follows unbound_start hbefore hr ?_ ?_
    · change mid.bound calls c ≠ none
      rw [hbound]
      exact Option.some_ne_none answer
    · rintro (hanswered | hstarted)
      · rw [hunbound] at hanswered
        cases hanswered
      · exact hstarted hwaiting

end

section
local instance : Libraries := asciiLibraries
local instance : SerdeJson := readsDiskFull

/-- The pipeline is set up, a batch is begun, and its counters are read before it ends. -/
def sharedCalls : Nat → VectorCall
  | 0 => .initializePipeline
  | 1 => .processLogs (plainCalls 1)
  | _ => .getStats

def sharedTrace : List VectorAct := [⟨0, 0⟩, ⟨1, 1⟩] ++ [⟨1, 2⟩, ⟨2, 3⟩, ⟨1, 4⟩]

theorem shared_runs :
    ∃ s, exec (CalledVector.step sharedCalls) .start sharedTrace = some s := by
  obtain ⟨outcomes, ho⟩ := plain_outcomes 1
  have hchecked : exec (CalledVector.step sharedCalls) .start [⟨0, 0⟩, ⟨1, 1⟩] =
      some ⟨Shared.setPhase { Shared.start with vector := Vector.new.initializePipeline 0 } 1
        .checked, fun other => if other = 0 then some .initialized else none⟩ := rfl
  rw [sharedTrace, exec_append, hchecked, Option.bind_some]
  simp only [exec, CalledVector.step, sharedCalls, VectorCall.batch, Phase.next, Shared.step,
    Stats.phase_set, if_true, ho, Option.bind_some, Option.map_some]
  exact ⟨_, rfl⟩

theorem shared_linearizable :
    ∃ s, exec (CalledVector.step sharedCalls) .start sharedTrace = some s ∧
      ∃ order : List (Nat × Instant),
        (order.map Prod.fst).Nodup ∧
        (∀ c now, (c, now) ∈ order → ⟨c, now⟩ ∈ sharedTrace) ∧
        Answers (fun c now v => v.perform now (sharedCalls c)) Vector.new order
          (fun c answer => s.bound sharedCalls c = some answer) ∧
        (∀ before after mid c d answer, sharedTrace = before ++ after →
          exec (CalledVector.step sharedCalls) .start before = some mid →
          mid.bound sharedCalls c = some answer → mid.bound sharedCalls d = none →
          mid.shared.phase d = .waiting →
          ∃ front back, order = front ++ back ∧ c ∈ front.map Prod.fst ∧
            d ∉ front.map Prod.fst) ∧
        s.shared.vector =
          replay (fun c now v => v.perform now (sharedCalls c)) Vector.new order := by
  obtain ⟨s, hr⟩ := shared_runs
  exact ⟨s, hr, vector_linearizable hr⟩

end

end VectorVrl.Proofs.VectorCalls
