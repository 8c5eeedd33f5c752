import VectorVrl.Proofs.Stats

namespace VectorVrl.Proofs.EntryPoints
open Nesting Outcome

theorem compile_deep {vrlCode : String} (h : maxVrlNestingDepth < maxBracketDepth vrlCode) :
    ∃ text, ∀ compile : Compiler, compileVrlProgram compile vrlCode = .error text := by
  cases hk : checkNestingDepth vrlCode with
  | error text => exact ⟨text, fun compile => by rw [compileVrlProgram, hk]; rfl⟩
  | ok u => exact absurd ((check_accepts_iff vrlCode).mp hk) (Nat.not_le.mpr h)

section
variable [Libraries] [SerdeJson] {compile : Compiler} {vrlCode : String}

/-- A source refused with `text` by every entry point. -/
structure Refused (compile : Compiler) (vrlCode text : String) : Prop where
  validate : validateVrl compile vrlCode = ⟨false, none, some text, some "compilation_error"⟩
  execute : ∀ events secrets,
    executeVrl compile vrlCode events secrets = .error (compileError text)
  withSecrets : ∀ events secrets,
    executeVrlWithSecrets compile vrlCode events secrets = .error (compileError text)
  process : ∀ events (pipeline : Vector), pipeline.initialized = true →
    pipeline.processLogs compile events vrlCode = (.error (compileError text), pipeline)

theorem refused_of_error {text : String} (h : compileVrlProgram compile vrlCode = .error text) :
    Refused compile vrlCode text := by
  have hrun : ∀ events secrets,
      runEventsPy compile vrlCode events secrets = .error (compileError text) := by
    intro events secrets
    simp only [runEventsPy, runEvents, h]
    rfl
  refine ⟨?_, ?_, ?_, ?_⟩
  · simp only [validateVrl, h]
  · intro events secrets
    rw [executeVrl, hrun]
    rfl
  · intro events secrets
    rw [executeVrlWithSecrets, hrun]
    rfl
  · intro events pipeline hp
    simp only [Vector.processLogs, Vector.checkInitialized, hp, if_true, hrun]

/-- The counters a batch leaves, by the outcomes it had. -/
theorem process_logs_counts {program : Program}
    (hc : compileVrlProgram compile vrlCode = .ok program) (events : List String)
    {pipeline : Vector} (hp : pipeline.initialized = true) :
    (pipeline.processLogs compile events vrlCode).2.eventsProcessed = pipeline.eventsProcessed +
        .of ((events.mapIdx fun i event => executeVrlOnEvent (program.resolve i) event ∅).countP
          (·.result.isOk)) ∧
    (pipeline.processLogs compile events vrlCode).2.errors = pipeline.errors +
        .of ((events.mapIdx fun i event => executeVrlOnEvent (program.resolve i) event ∅).countP
          (!·.result.isOk)) := by
  have hrun := run_events_py_ok hc events ∅
  have hcounts := @Stats.finish_batch_counts _ _ ⟨events, vrlCode, compile⟩ _ hrun pipeline
  simp only [okCount, errorCount, Shared.outcomesOf, hrun] at hcounts
  simp only [Vector.processLogs, Vector.checkInitialized, hp, if_true, hrun, hcounts, and_self]

/-- What every entry point does with a source that compiles. -/
theorem accepted_of_ok {program : Program}
    (hc : compileVrlProgram compile vrlCode = .ok program) (events : List String)
    (secrets : Option SecretMap) {pipeline : Vector} (hp : pipeline.initialized = true) :
    (pipeline.processLogs compile events vrlCode).1 = executeVrl compile vrlCode events none ∧
    (executeVrlWithSecrets compile vrlCode events secrets).map (List.map (·.event)) =
      executeVrl compile vrlCode events secrets := by
  refine ⟨(process_logs_ok hc events hp).trans (execute_vrl_ok hc events none).symm, ?_⟩
  rw [execute_with_secrets_ok hc, execute_vrl_ok hc]
  refine congrArg Except.ok (List.ext_getElem (by simp) ?_)
  intro i h₁ h₂
  simp

/-- One source gets one verdict from all entry points, before the compiler is
called where it is too deep, and where they run it they return the same entries. -/
theorem entry_points_agree (compile : Compiler) (vrlCode : String) (events : List String)
    (secrets : Option SecretMap) {pipeline : Vector} (hp : pipeline.initialized = true) :
    (((validateVrl compile vrlCode).success = true ↔
        ∀ text, executeVrl compile vrlCode events secrets ≠ .error (compileError text)) ∧
      ((validateVrl compile vrlCode).success = true ↔
        ∀ text, executeVrlWithSecrets compile vrlCode events secrets ≠
          .error (compileError text)) ∧
      ((validateVrl compile vrlCode).success = true ↔
        ∀ text, (pipeline.processLogs compile events vrlCode).1 ≠ .error (compileError text)) ∧
      (∀ text, (validateVrl compile vrlCode).error = some text →
        executeVrl compile vrlCode events secrets = .error (compileError text) ∧
        executeVrlWithSecrets compile vrlCode events secrets = .error (compileError text) ∧
        (pipeline.processLogs compile events vrlCode).1 = .error (compileError text)) ∧
      (maxVrlNestingDepth < maxBracketDepth vrlCode →
        ∃ text, ∀ other : Compiler, Refused other vrlCode text)) ∧
    ((validateVrl compile vrlCode).success = true → ∃ program, compile vrlCode = .ok program ∧
      executeVrl compile vrlCode events secrets =
        .ok (events.mapIdx fun i event => eventDict (program.resolve i) event (secrets.getD ∅)) ∧
      (executeVrlWithSecrets compile vrlCode events secrets).map (List.map (·.event)) =
        executeVrl compile vrlCode events secrets ∧
      (pipeline.processLogs compile events vrlCode).1 = executeVrl compile vrlCode events none ∧
      (pipeline.processLogs compile events vrlCode).2.eventsProcessed = pipeline.eventsProcessed +
        .of ((events.mapIdx fun i event => executeVrlOnEvent (program.resolve i) event ∅).countP
          (·.result.isOk)) ∧
      (pipeline.processLogs compile events vrlCode).2.errors = pipeline.errors +
        .of ((events.mapIdx fun i event => executeVrlOnEvent (program.resolve i) event ∅).countP
          (!·.result.isOk))) := by
  have hdeep : maxVrlNestingDepth < maxBracketDepth vrlCode →
      ∃ text, ∀ other : Compiler, Refused other vrlCode text := by
    intro h
    obtain ⟨text, hall⟩ := compile_deep h
    exact ⟨text, fun other => refused_of_error (hall other)⟩
  cases hc : compileVrlProgram compile vrlCode with
  | error text =>
    have href := refused_of_error hc
    rw [href.validate, href.execute, href.withSecrets, href.process events pipeline hp]
    refine ⟨⟨by simp, by simp, by simp, ?_, hdeep⟩, by simp⟩
    intro text' h
    cases h
    exact ⟨rfl, rfl, rfl⟩
  | ok program =>
    have hval : validateVrl compile vrlCode = ⟨true, some "VRL syntax valid", none, none⟩ := by
      simp only [validateVrl, hc]
    obtain ⟨hsame, hevents⟩ := accepted_of_ok hc events secrets hp
    obtain ⟨hok, herr⟩ := process_logs_counts hc events hp
    refine ⟨⟨?_, ?_, ?_, ?_, hdeep⟩, fun _ => ⟨program, (compile_ok_iff.mp hc).2,
      execute_vrl_ok hc events secrets, hevents, hsame, hok, herr⟩⟩
    · simp [hval, execute_vrl_ok hc]
    · simp [hval, execute_with_secrets_ok hc]
    · simp [hval, process_logs_ok hc events hp]
    · simp [hval]

end

section
local instance : Libraries := asciiLibraries
local instance : SerdeJson := readsNested

/-- Of two events one fails, and the entry points agree on both. -/
theorem coded_entry_points_agree :
    let compile : Compiler := fun _ => .ok abortsOnCode
    let events := ["up", nestedText]
    let secrets := some ((∅ : SecretMap).insert "token" "t")
    let ran := (Vector.new.initializePipeline 0).processLogs compile events "."
    (executeVrlWithSecrets compile "." events secrets).map (List.map (·.event)) =
        executeVrl compile "." events secrets ∧
      ran.1 = executeVrl compile "." events none ∧
      ran.2.eventsProcessed.val = 1 ∧ ran.2.errors.val = 1 := by
  intro compile events secrets ran
  have hc : compileVrlProgram compile "." = .ok abortsOnCode := compile_dot abortsOnCode
  have hval : (validateVrl compile ".").success = true := by
    simp only [validateVrl, hc]
  obtain ⟨program, hprogram, _, hevents, hsame, hok, herr⟩ := (entry_points_agree compile "."
    events secrets (show (Vector.new.initializePipeline 0).initialized = true from rfl)).2 hval
  cases hprogram
  refine ⟨hevents, hsame, ?_, ?_⟩
  · rw [hok]
    decide +kernel
  · rw [herr]
    decide +kernel

end

end VectorVrl.Proofs.EntryPoints
