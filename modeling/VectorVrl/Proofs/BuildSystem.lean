import VectorVrl.BuildSystem
import VectorVrl.Proofs.Monitoring

namespace VectorVrl.Proofs.BuildSystem
open Lib.InOrder Proofs.Monitoring

theorem succeeded_iff (run : StageRun) : run.succeeded = true ↔ run.Succeeded := by
  rw [StageRun.succeeded, StageRun.Succeeded, monitorIntelligentBuild]
  split
  · rename_i stop hstop
    rw [hstop]
    exact iff_of_false (fun h => nomatch h) fun h => nomatch h.1
  · rename_i hnone
    rw [hnone, decide_eq_true_eq]
    exact (and_iff_right rfl).symm

theorem analyze_upstream_iff (log : List Char) :
    (analyzeStageError log).1 = .upstreamCompile ↔
      ∃ pattern ∈ upstreamPatterns, pattern.onText log = true := by
  rw [analyzeStageError]
  cases hfind : upstreamPatterns.find? (·.onText log) with
  | some pattern =>
    have hpattern : pattern.onText log = true := by simpa using List.find?_some hfind
    exact iff_of_true rfl ⟨pattern, List.mem_of_find?_eq_some hfind, hpattern⟩
  | none =>
    have hnone := List.find?_eq_none.mp hfind
    apply iff_of_false
    · simp only
      split <;> exact fun h => nomatch h
    · intro hsome
      obtain ⟨pattern, hmem, hpattern⟩ := hsome
      exact hnone pattern hmem hpattern

section
variable (stage : BuildStage) {started : Option StageRun} {verified : Bool}

/-- How a stage that runs a process ends. -/
theorem stage_cases (started : Option StageRun) (verified : Bool) :
    (StagePasses started verified ∧
      ∃ result, stageResult stage started verified = .ok result ∧ result.success = true) ∨
    (started = none ∧ stageResult stage started verified = .error .notStarted) ∨
    (¬StagePasses started verified ∧ ∃ run, started = some run ∧ run.buildLog = none ∧
      stageResult stage started verified = .error .notDecoded) ∨
    (¬StagePasses started verified ∧ ∃ run, started = some run ∧ run.buildLog ≠ none ∧
      ∃ result, stageResult stage started verified = .ok result ∧ result.success = false ∧
        (result.errorType = some .upstreamCompile ↔ run.ShowsUpstream)) := by
  cases started with
  | none => exact Or.inr (Or.inl ⟨rfl, rfl⟩)
  | some run =>
    simp only [stageResult]
    by_cases hpasses : (run.succeeded && verified) = true
    · have hruns := Bool.and_eq_true_iff.mp hpasses
      rw [if_pos hpasses]
      exact Or.inl ⟨⟨run, rfl, (succeeded_iff run).mp hruns.1, hruns.2⟩, _, rfl, rfl⟩
    · have hfailed : ¬StagePasses (some run) verified := by
        rintro ⟨_, ⟨⟩, hsucceeded, hverified⟩
        exact hpasses (Bool.and_eq_true_iff.mpr ⟨(succeeded_iff run).mpr hsucceeded, hverified⟩)
      rw [if_neg hpasses]
      cases hlog : run.buildLog with
      | none => exact Or.inr (Or.inr (Or.inl ⟨hfailed, run, rfl, hlog, rfl⟩))
      | some buildLog =>
        refine Or.inr (Or.inr (Or.inr ⟨hfailed, run, rfl, by simp [hlog], _, rfl, rfl, ?_⟩))
        refine Option.some_inj.trans ((analyze_upstream_iff _).trans ?_)
        simp [StageRun.ShowsUpstream, hlog]

theorem stage_raised_iff {error : BuildError} :
    stageResult stage started verified = .error error ↔ StageRaises started verified error := by
  rcases stage_cases stage started verified with ⟨hpasses, result, heq, _⟩ | ⟨hnone, heq⟩ |
    ⟨hfailed, run, hrun, hlog, heq⟩ | ⟨hfailed, run, hrun, hlog, result, heq, _⟩
  · obtain ⟨run, hrun, _⟩ := id hpasses
    subst hrun
    rw [heq]
    cases error <;> simp [StageRaises, hpasses]
  · rw [heq]
    subst hnone
    cases error <;> simp [StageRaises]
  · rw [heq]
    subst hrun
    cases error <;> simp [StageRaises, hfailed, hlog]
  · rw [heq]
    subst hrun
    cases error <;> simp [StageRaises, hlog]

theorem stage_passed_iff :
    (∃ result, stageResult stage started verified = .ok result ∧ result.success = true) ↔
      StagePasses started verified := by
  rcases stage_cases stage started verified with ⟨hpasses, hresult⟩ | ⟨hnone, heq⟩ |
    ⟨hfailed, run, hrun, hlog, heq⟩ | ⟨hfailed, run, hrun, hlog, result, heq, hsuccess, _⟩
  · exact iff_of_true hresult hpasses
  · rw [heq]
    simp [StagePasses, hnone]
  · simp [heq, hfailed]
  · simp [heq, hsuccess, hfailed]

theorem stage_upstream_iff :
    (∃ result, stageResult stage started verified = .ok result ∧ result.success = false ∧
      result.errorType = some .upstreamCompile) ↔ StageFailsUpstream started verified := by
  rcases stage_cases stage started verified with ⟨hpasses, result, heq, hsuccess⟩ | ⟨hnone, heq⟩ |
    ⟨hfailed, run, hrun, hlog, heq⟩ |
    ⟨hfailed, run, hrun, hlog, result, heq, hsuccess, hupstream⟩
  · simp [heq, hsuccess, StageFailsUpstream, hpasses]
  · rw [heq]
    simp [StageFailsUpstream, hnone]
  · rw [heq]
    subst hrun
    simp [StageFailsUpstream, StageRun.ShowsUpstream, hlog]
  · rw [heq]
    subst hrun
    simp [hsuccess, StageFailsUpstream, hfailed, hupstream]

end

section
variable {attempt : Attempt} {version : String}

theorem core_raised_iff {error : BuildError} :
    buildVectorCore attempt = .error error ↔
      attempt.hasSource = true ∧ StageRaises attempt.core true error := by
  rw [buildVectorCore, ← stage_raised_iff .vectorCore]
  cases attempt.hasSource <;> simp

theorem core_passed_iff :
    (∃ result, buildVectorCore attempt = .ok result ∧ result.success = true) ↔
      attempt.hasSource = true ∧ StagePasses attempt.core true := by
  rw [buildVectorCore, ← stage_passed_iff .vectorCore]
  cases attempt.hasSource <;> simp

theorem core_upstream_iff :
    (∃ result, buildVectorCore attempt = .ok result ∧ result.success = false ∧
      result.errorType = some .upstreamCompile) ↔
        attempt.hasSource = true ∧ StageFailsUpstream attempt.core true := by
  rw [buildVectorCore, ← stage_upstream_iff .vectorCore]
  cases attempt.hasSource <;> simp

theorem bindings_raised_iff {vectorResult : StageResult} (h : vectorResult.success = true)
    {error : BuildError} :
    buildVectorBindings attempt vectorResult = .error error ↔ attempt.BindingsRaise error := by
  rw [buildVectorBindings, Attempt.BindingsRaise, ← stage_raised_iff .vectorBindings, h]
  cases attempt.hasBindings <;> simp

theorem python_layer {vectorResult : StageResult} (h : vectorResult.success = true) :
    buildPythonLayer attempt vectorResult =
      stageResult .pythonBindings attempt.python attempt.verified := by
  rw [buildPythonLayer, h]
  rfl

theorem reuse_none_iff :
    (attempt.existing.filter fun info => !shouldRebuildVector info version) = none ↔
      ¬attempt.Reuses version := by
  rw [Option.filter_eq_none_iff, Attempt.Reuses, not_exists]
  apply forall_congr'
  intro info
  rw [not_and, shouldRebuildVector]
  apply imp_congr_right
  intro _
  split
  · rename_i hsame
    rw [Bool.or_eq_true, decide_eq_true_eq, decide_eq_true_eq] at hsame
    simp [hsame]
  · rename_i hother
    rw [Bool.or_eq_true, decide_eq_true_eq, decide_eq_true_eq] at hother
    simp [hother]

theorem fails_not_passes {started : Option StageRun} {verified : Bool}
    (h : StageFailsUpstream started verified) : ¬StagePasses started verified :=
  h.elim fun _ h => h.2.1

theorem raises_not_passes {started : Option StageRun} {verified : Bool} {error : BuildError}
    (h : StageRaises started verified error) : ¬StagePasses started verified := by
  cases error with
  | notStarted =>
    rintro ⟨run, hrun, _⟩
    rw [StageRaises, hrun] at h
    cases h
  | notDecoded => exact h.elim fun _ h => h.2.1

/-- With Vector core there, an attempt falls back by its Python layer alone. -/
theorem falls_back_core (h : attempt.HasCore version) :
    attempt.FallsBack version ↔
      attempt.ReachesPython version ∧ StageFailsUpstream attempt.python attempt.verified := by
  constructor
  · intro hback
    rcases hback with ⟨hnot, hdownload⟩ | ⟨hfetches, hfails⟩ | hpython
    · rcases h with hreuse | ⟨hfetches, _⟩
      · exact absurd hreuse hnot
      · rw [hfetches.2.1] at hdownload
        cases hdownload
    · rcases h with hreuse | ⟨_, hpasses⟩
      · exact absurd hreuse hfetches.1
      · exact absurd hpasses (fails_not_passes hfails)
    · exact hpython
  · exact fun hpython => Or.inr (Or.inr hpython)

theorem raises_core (h : attempt.HasCore version) {error : BuildError} :
    attempt.Raises version error ↔ attempt.BindingsRaise error ∨
      attempt.ReachesPython version ∧ StageRaises attempt.python attempt.verified error := by
  constructor
  · intro hraises
    rcases hraises with ⟨hfetches, hcore⟩ | ⟨_, hbindings⟩ | hpython
    · rcases h with hreuse | ⟨_, hpasses⟩
      · exact absurd hreuse hfetches.1
      · exact absurd hpasses (raises_not_passes hcore)
    · exact Or.inl hbindings
    · exact Or.inr hpython
  · intro hraises
    rcases hraises with hbindings | hpython
    · exact Or.inr (Or.inl ⟨h, hbindings⟩)
    · exact Or.inr (Or.inr hpython)

/-- How the stages after Vector core leave the loop. -/
theorem after_core_leaves (hcore : attempt.HasCore version) {vectorResult : StageResult}
    (h : vectorResult.success = true) :
    LeavesAccount version attempt (afterCore version attempt vectorResult).2 := by
  have hstage : ∀ error, buildVectorBindings attempt vectorResult = .error error ↔
      attempt.BindingsRaise error := fun error => bindings_raised_iff h
  simp only [afterCore, h, Bool.not_true, Bool.false_eq_true, if_false]
  cases hbindings : buildVectorBindings attempt vectorResult with
  | error e =>
    have hraise := (hstage e).mp hbindings
    have hreach : ¬attempt.ReachesPython version := fun hreach => hreach.2 e hraise
    have hsame : ∀ error, e = error ↔ attempt.BindingsRaise error := by
      intro error
      rw [← hstage, hbindings, Except.error.injEq]
    constructor
    · simp [falls_back_core hcore, hreach]
    · simp [Attempt.Finishes, hreach]
    · simp [raises_core hcore, hreach, hsame]
    · simp
  | ok bindingsResult =>
    have hquiet : ∀ error, ¬attempt.BindingsRaise error := by
      intro error
      rw [← hstage, hbindings]
      exact fun h => nomatch h
    have hreach : attempt.ReachesPython version := ⟨hcore, hquiet⟩
    have hpassed := @stage_passed_iff .pythonBindings attempt.python attempt.verified
    have hupstream := @stage_upstream_iff .pythonBindings attempt.python attempt.verified
    have hraised := fun error =>
      @stage_raised_iff .pythonBindings attempt.python attempt.verified error
    rw [python_layer h]
    cases hpython : stageResult .pythonBindings attempt.python attempt.verified with
    | error e =>
      simp only [hpython, reduceCtorEq, false_and, exists_false, false_iff, Except.error.injEq]
        at hpassed hupstream hraised
      constructor
      · simp [falls_back_core hcore, hupstream]
      · simp [Attempt.Finishes, hpassed]
      · simp [raises_core hcore, hreach, hquiet, hraised]
      · simp
    | ok pythonResult =>
      simp only [hpython, Except.ok.injEq, existsAndEq, true_and, reduceCtorEq, false_iff]
        at hpassed hupstream hraised
      cases hsuccess : pythonResult.success with
      | true =>
        simp only [hsuccess, true_iff, Bool.true_eq_false, false_and, false_iff] at hpassed hupstream
        simp only [hsuccess, if_true]
        constructor
        · simp [falls_back_core hcore, hupstream]
        · simp [Attempt.Finishes, hreach, hpassed]
        · simp [raises_core hcore, hquiet, hraised]
        · simp
      | false =>
        simp only [hsuccess, Bool.false_eq_true, false_iff, true_and] at hpassed hupstream
        simp only [hsuccess, Bool.false_eq_true, if_false]
        by_cases herror : pythonResult.errorType = some .upstreamCompile
        · rw [if_pos herror]
          constructor
          · simp [falls_back_core hcore, hreach, ← hupstream, herror]
          · simp [Attempt.Finishes, hpassed]
          · simp [raises_core hcore, hquiet, hraised]
          · simp
        · rw [if_neg herror]
          constructor
          · simp [falls_back_core hcore, ← hupstream, herror]
          · simp [Attempt.Finishes, hpassed]
          · simp [raises_core hcore, hquiet, hraised]
          · simp

theorem after_core_actions {vectorResult : StageResult} (h : vectorResult.success = true)
    (other : String) :
    .download other ∉ (afterCore version attempt vectorResult).1 ∧
      .buildCore other ∉ (afterCore version attempt vectorResult).1 ∧
      (.syncDependencies other ∈ (afterCore version attempt vectorResult).1 ↔ other = version) := by
  simp only [afterCore, h, Bool.not_true, Bool.false_eq_true, if_false]
  split
  · simp
  · split <;> simp

/-- The account of an attempt that has come to the later stages, after the actions `front`. -/
theorem core_account (hcore : attempt.HasCore version) {vectorResult : StageResult}
    (hsuccess : vectorResult.success = true) (front : List BuildAction)
    (hdownload : ∀ other, .download other ∈ front ↔ other = version ∧ ¬attempt.Reuses version)
    (hbuild : ∀ other, .buildCore other ∈ front ↔
      other = version ∧ ¬attempt.Reuses version ∧ attempt.downloaded = true)
    (hsync : ∀ other, .syncDependencies other ∉ front) :
    AttemptAccount version attempt (front ++ (afterCore version attempt vectorResult).1)
      (afterCore version attempt vectorResult).2 := by
  have hactions := @after_core_actions attempt version vectorResult hsuccess
  refine ⟨after_core_leaves hcore hsuccess, ?_, ?_, ?_⟩
  · intro other
    rw [List.mem_append, hdownload]
    exact or_iff_left (hactions other).1
  · intro other
    rw [List.mem_append, hbuild]
    exact or_iff_left (hactions other).2.1
  · intro other
    rw [List.mem_append, or_iff_right (hsync other), (hactions other).2.2]
    exact (and_iff_left hcore).symm

/-- The account of an attempt that does not come to the later stages. -/
theorem failed_account (hcore : ¬attempt.HasCore version) {actions : List BuildAction}
    {leaves : Leaves} (hnext : leaves = .next ↔ attempt.FallsBack version)
    (hdone : ∀ result, leaves ≠ .done result)
    (hraised : ∀ error, leaves = .raised error ↔
      attempt.Fetches version ∧ StageRaises attempt.core true error)
    (hdownload : ∀ other, .download other ∈ actions ↔ other = version ∧ ¬attempt.Reuses version)
    (hbuild : ∀ other, .buildCore other ∈ actions ↔
      other = version ∧ ¬attempt.Reuses version ∧ attempt.downloaded = true)
    (hsync : ∀ other, .syncDependencies other ∉ actions) :
    AttemptAccount version attempt actions leaves where
  next := hnext
  done := iff_of_false (fun h => h.elim hdone) fun h => hcore h.1.1
  raised error := by
    rw [hraised]
    refine ⟨Or.inl, ?_⟩
    rintro (hfetched | ⟨hhas, _⟩ | ⟨hreach, _⟩)
    · exact hfetched
    · exact absurd hhas hcore
    · exact absurd hreach.1 hcore
  result result h := absurd h (hdone result)
  downloads := hdownload
  builds := hbuild
  goesOn other := iff_of_false (hsync other) fun h => hcore h.2

/-- An attempt without Vector core falls back by what becomes of its sources. -/
theorem falls_back_failed (hcore : ¬attempt.HasCore version) :
    attempt.FallsBack version ↔ (¬attempt.Reuses version ∧ attempt.downloaded = false) ∨
      attempt.Fetches version ∧ StageFailsUpstream attempt.core true := by
  refine ⟨?_, fun h => h.imp_right Or.inl⟩
  rintro (hnone | hfails | ⟨hreach, _⟩)
  · exact Or.inl hnone
  · exact Or.inr hfails
  · exact absurd hreach.1 hcore

theorem attempt_account (version : String) (attempt : Attempt) :
    AttemptAccount version attempt (runAttempt version attempt).1
      (runAttempt version attempt).2 := by
  rw [runAttempt]
  by_cases hreuse : attempt.Reuses version
  · obtain ⟨info, hinfo⟩ := Option.ne_none_iff_exists'.mp (mt reuse_none_iff.mp (not_not.mpr hreuse))
    rw [hinfo]
    have haccount := @core_account attempt version (Or.inl hreuse) ⟨.vectorCore, true, 0, none,
      some s!"Using existing Vector {info.version} build"⟩ rfl []
    exact haccount (by simp [hreuse]) (by simp [hreuse]) (by simp)
  · rw [reuse_none_iff.mpr hreuse]
    simp only
    cases hdownload : attempt.downloaded with
    | false =>
      have hfetches : ¬attempt.Fetches version := fun h => by simp [h.2.1] at hdownload
      have hcore : ¬attempt.HasCore version := fun h => h.elim hreuse fun h => hfetches h.1
      apply failed_account hcore
      · exact iff_of_true rfl (Or.inl ⟨hreuse, hdownload⟩)
      · exact fun _ h => nomatch h
      · exact fun error => iff_of_false (fun h => nomatch h) fun h => hfetches h.1
      · simp [hreuse]
      · simp [hdownload]
      · simp
    | true =>
      have hfetches : attempt.Fetches version ↔ attempt.hasSource = true := by
        simp [Attempt.Fetches, hreuse, hdownload]
      have hraised : ∀ error, buildVectorCore attempt = .error error ↔
          attempt.Fetches version ∧ StageRaises attempt.core true error := by
        intro error
        rw [core_raised_iff, hfetches]
      have hpassed : (∃ result, buildVectorCore attempt = .ok result ∧ result.success = true) ↔
          attempt.HasCore version := by
        rw [core_passed_iff, Attempt.HasCore, hfetches]
        simp [hreuse]
      have hupstream : (∃ result, buildVectorCore attempt = .ok result ∧ result.success = false ∧
          result.errorType = some .upstreamCompile) ↔
            attempt.Fetches version ∧ StageFailsUpstream attempt.core true := by
        rw [core_upstream_iff, hfetches]
      cases hbuilt : buildVectorCore attempt with
      | error e =>
        simp only [hbuilt, reduceCtorEq, false_and, exists_false, false_iff, Except.error.injEq]
          at hpassed hupstream hraised
        apply failed_account hpassed
        · simp [falls_back_failed hpassed, hupstream, hdownload]
        · simp
        · simpa using hraised
        · simp [hreuse]
        · simp [hreuse, hdownload]
        · simp
      | ok vectorResult =>
        simp only [hbuilt, Except.ok.injEq, existsAndEq, true_and, reduceCtorEq, false_iff]
          at hpassed hupstream hraised
        cases hsuccess : vectorResult.success with
        | true =>
          exact core_account (hpassed.mp hsuccess) hsuccess [.download version, .buildCore version]
            (by simp [hreuse]) (by simp [hreuse, hdownload]) (by simp)
        | false =>
          simp only [hsuccess, Bool.false_eq_true, false_iff, true_and] at hpassed hupstream
          simp only [afterCore, hsuccess, Bool.not_false, Bool.not_true, Bool.false_eq_true, if_true,
            if_false]
          apply failed_account hpassed
          · rw [falls_back_failed hpassed, ← hupstream]
            simp [hdownload]
          · intro result
            split <;> simp
          · intro error
            refine iff_of_false ?_ (hraised error)
            split <;> simp
          · simp [hreuse]
          · simp [hreuse, hdownload]
          · simp

theorem done_stays (h : attempt.Finishes version) : ¬attempt.FallsBack version := by
  rw [falls_back_core h.1.1]
  exact fun hback => fails_not_passes hback.2 h.2

end

section
variable {list rest : List (String × Attempt)} {version first : String}
  {attempt head : Attempt}

theorem tried_head (list : List (String × Attempt)) (version : String) (attempt : Attempt) :
    Tried ((version, attempt) :: list) version attempt :=
  ⟨[], list, rfl, List.forall_mem_nil _⟩

/-- The attempts of a list are its first one and, if that falls back, those of the rest. -/
theorem tried_cons_iff :
    Tried ((first, head) :: rest) version attempt ↔
      (version = first ∧ attempt = head) ∨ head.FallsBack first ∧ Tried rest version attempt := by
  constructor
  · intro h
    obtain ⟨before, after, heq, hback⟩ := h
    cases before with
    | nil =>
      cases heq
      exact Or.inl ⟨rfl, rfl⟩
    | cons earlier before =>
      cases heq
      rw [List.forall_mem_cons] at hback
      exact Or.inr ⟨hback.1, before, after, rfl, hback.2⟩
  · intro h
    rcases h with ⟨rfl, rfl⟩ | ⟨hfirst, before, after, rfl, hback⟩
    · exact tried_head rest version attempt
    · exact ⟨(first, head) :: before, after, rfl, List.forall_mem_cons.mpr ⟨hfirst, hback⟩⟩

/-- What holds of some attempt holds of the first one, or of one after it. -/
theorem some_tried_next (p : String → Attempt → Prop) (hback : head.FallsBack first) :
    ((version = first ∧ p first head) ∨ ∃ attempt, Tried rest version attempt ∧ p version attempt) ↔
      ∃ attempt, Tried ((first, head) :: rest) version attempt ∧ p version attempt := by
  simp only [tried_cons_iff]
  constructor
  · intro h
    rcases h with ⟨rfl, hp⟩ | ⟨attempt, htried, hp⟩
    · exact ⟨head, Or.inl ⟨rfl, rfl⟩, hp⟩
    · exact ⟨attempt, Or.inr ⟨hback, htried⟩, hp⟩
  · intro h
    obtain ⟨attempt, ⟨rfl, rfl⟩ | ⟨_, htried⟩, hp⟩ := h
    · exact Or.inl ⟨rfl, hp⟩
    · exact Or.inr ⟨attempt, htried, hp⟩

theorem some_tried_last (p : String → Attempt → Prop) (hback : ¬head.FallsBack first) :
    (version = first ∧ p first head) ↔
      ∃ attempt, Tried ((first, head) :: rest) version attempt ∧ p version attempt := by
  simp only [tried_cons_iff]
  constructor
  · intro h
    obtain ⟨rfl, hp⟩ := h
    exact ⟨head, Or.inl ⟨rfl, rfl⟩, hp⟩
  · intro h
    obtain ⟨attempt, ⟨rfl, rfl⟩ | ⟨hmore, _⟩, hp⟩ := h
    · exact ⟨rfl, hp⟩
    · exact absurd hmore hback

theorem not_tried_nil : ¬Tried [] version attempt := by
  intro h
  obtain ⟨before, after, heq, _⟩ := h
  simp at heq

/-- An attempt that falls back is followed by those of the rest of the list. -/
theorem next_account {actions : List BuildAction} (h : AttemptAccount first head actions .next)
    (hrest : BuildAccount rest (tryVersions rest).1 (tryVersions rest).2) :
    BuildAccount ((first, head) :: rest) (actions ++ (tryVersions rest).1)
      (tryVersions rest).2 := by
  have hback := h.next.mp rfl
  constructor
  · intro version
    rw [hrest.succeeds, ← some_tried_next (fun v a => a.Finishes v) hback]
    exact (or_iff_right fun hdone => done_stays hdone.2 hback).symm
  · intro error
    have hquiet : ¬head.Raises first error := fun hraises => nomatch (h.raised error).mpr hraises
    rw [hrest.raises]
    refine exists_congr fun version => ?_
    rw [← some_tried_next (fun v a => a.Raises v error) hback]
    exact (or_iff_right fun hraises => hquiet hraises.2).symm
  · intro version
    rw [List.mem_append, h.downloads, hrest.downloads]
    exact some_tried_next (fun v a => ¬a.Reuses v) hback
  · intro version
    rw [List.mem_append, h.builds, hrest.builds]
    exact some_tried_next (fun v a => ¬a.Reuses v ∧ a.downloaded = true) hback
  · intro version
    rw [List.mem_append, h.goesOn, hrest.goesOn]
    exact some_tried_next (fun v a => a.HasCore v) hback

/-- An attempt that does not fall back is the last. -/
theorem last_account {actions : List BuildAction} {leaves : Leaves}
    (h : AttemptAccount first head actions leaves) (hback : ¬head.FallsBack first)
    {outcome : Except BuildError BuildResult}
    (hsucceeds : ∀ version, (∃ result, outcome = .ok result ∧ result.success = true ∧
      result.vectorVersion = version) ↔ version = first ∧ head.Finishes first)
    (hraises : ∀ error, outcome = .error error ↔ head.Raises first error) :
    BuildAccount ((first, head) :: rest) actions outcome := by
  constructor
  · exact fun version => (hsucceeds version).trans
      (some_tried_last (fun v a => a.Finishes v) hback)
  · intro error
    rw [hraises]
    constructor
    · exact fun h => ⟨first, (some_tried_last (fun v a => a.Raises v error) hback).mp ⟨rfl, h⟩⟩
    · rintro ⟨version, h⟩
      exact ((some_tried_last (fun v a => a.Raises v error) hback).mpr h).2
  · exact fun version => (h.downloads version).trans
      (some_tried_last (fun v a => ¬a.Reuses v) hback)
  · exact fun version => (h.builds version).trans
      (some_tried_last (fun v a => ¬a.Reuses v ∧ a.downloaded = true) hback)
  · exact fun version => (h.goesOn version).trans
      (some_tried_last (fun v a => a.HasCore v) hback)

/-- The loop accounts for its attempts. -/
theorem versions_account (list : List (String × Attempt)) :
    BuildAccount list (tryVersions list).1 (tryVersions list).2 := by
  induction list with
  | nil =>
    have hnone : ∀ version (p : Attempt → Prop), ¬∃ attempt, Tried [] version attempt ∧ p attempt :=
      fun version p h => h.elim fun attempt h => not_tried_nil h.1
    constructor
    · exact fun version => iff_of_false (by simp [tryVersions]) (hnone version _)
    · exact fun error => iff_of_false (fun h => nomatch h) fun h => h.elim fun v h => hnone v _ h
    · exact fun version => iff_of_false (List.not_mem_nil) (hnone version _)
    · exact fun version => iff_of_false (List.not_mem_nil) (hnone version _)
    · exact fun version => iff_of_false (List.not_mem_nil) (hnone version _)
  | cons entry rest ih =>
    obtain ⟨first, head⟩ := entry
    have hhead := attempt_account first head
    rw [tryVersions]
    cases hrun : runAttempt first head with
    | mk actions leaves =>
      rw [hrun] at hhead
      cases leaves with
      | next => exact next_account hhead ih
      | stop =>
        have hback : ¬head.FallsBack first := fun h => nomatch hhead.next.mpr h
        have hunfinished : ¬head.Finishes first := fun h => nomatch hhead.done.mpr h
        have hquiet : ∀ error, ¬head.Raises first error :=
          fun error h => nomatch (hhead.raised error).mpr h
        apply last_account hhead hback
        · simp [hunfinished]
        · simp [hquiet]
      | done result =>
        have hback : ¬head.FallsBack first := fun h => nomatch hhead.next.mpr h
        have hquiet : ∀ error, ¬head.Raises first error :=
          fun error h => nomatch (hhead.raised error).mpr h
        obtain ⟨hsuccess, hversion⟩ := hhead.result result rfl
        have hdone := hhead.done.mp ⟨result, rfl⟩
        apply last_account hhead hback
        · intro version
          constructor
          · rintro ⟨_, ⟨⟩, _, rfl⟩
            exact ⟨hversion, hdone⟩
          · rintro ⟨rfl, _⟩
            exact ⟨result, rfl, hsuccess, hversion⟩
        · simp [hquiet]
      | raised error =>
        have hback : ¬head.FallsBack first := fun h => nomatch hhead.next.mpr h
        have hunfinished : ¬head.Finishes first := fun h => nomatch hhead.done.mpr h
        apply last_account hhead hback
        · simp [hunfinished]
        · intro other
          rw [← hhead.raised, Except.error.injEq, Leaves.raised.injEq]

end

/-- A build tries two versions at most, the second only once the first has fallen back, and
accounts for what it did with each. -/
theorem robust_build_account (versions : List String) (attempts : Nat → Attempt) :
    (candidates versions attempts).length ≤ 2 ∧
      BuildAccount (candidates versions attempts) (robustBuild versions attempts).1
        (robustBuild versions attempts).2 := by
  refine ⟨?_, versions_account _⟩
  rw [candidates, List.length_mapIdx]
  exact List.length_take_le 2 versions

theorem alarms_shows {run : StageRun} (happends : run.Appends) (h : run.Alarms) :
    run.ShowsUpstream := by
  obtain ⟨buildLog, hlog, hviews⟩ := happends
  exact ⟨buildLog, hlog, alarmed_shows hviews rfl h⟩

def krb5Log : List Char := "   Compiling krb5-src\nkrb5: make failed in lib\n".toList

def krb5Run : StageRun where
  clock _ := 0
  views := [.sized krb5Log.length (some krb5Log)]
  exitCode := -15
  buildLog := some krb5Log
  buildTime := 2

def krb5Attempt : Attempt where
  existing := none
  downloaded := true
  hasSource := true
  core := some krb5Run
  hasBindings := true
  bindings := some krb5Run
  python := some krb5Run
  verified := false
  totalTime := 2

end VectorVrl.Proofs.BuildSystem
