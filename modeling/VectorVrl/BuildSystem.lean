import VectorVrl.Monitoring

namespace VectorVrl

inductive BuildStage where
  | vectorCore
  | vectorBindings
  | pythonBindings
deriving DecidableEq, Repr

structure StageResult where
  stage : BuildStage
  success : Bool
  buildTime : ℚ
  errorType : Option ErrorType
  errorMessage : Option String
deriving DecidableEq, Repr

structure BuildResult where
  success : Bool
  vectorVersion : String
  totalTime : ℚ
  stageResults : List (BuildStage × StageResult)
deriving DecidableEq, Repr

structure BuildInfo where
  version : String
  buildAgeHours : ℚ
deriving DecidableEq, Repr

def lstripV (version : String) : String := String.ofList (version.toList.dropWhile (· = 'v'))

def shouldRebuildVector (buildInfo : BuildInfo) (requestedVersion : String) : Bool :=
  if s!"v{buildInfo.version}" = requestedVersion ||
      buildInfo.version = lstripV requestedVersion then
    !(buildInfo.buildAgeHours < 24)
  else true

/-- What a stage raises: its process cannot be started, or its log does not decode. All else that
it does is taken not to raise. -/
inductive BuildError where
  | notStarted
  | notDecoded
deriving DecidableEq, Repr

/-- A process of a stage as it was watched, and the content of the log it left; none where it
does not decode. -/
structure StageRun where
  clock : Nat → ℚ
  views : List LogView
  exitCode : Int
  buildLog : Option (List Char)
  buildTime : ℚ

def coreStallTimeout : ℚ := 600

def StageRun.succeeded (run : StageRun) : Bool :=
  monitorIntelligentBuild run.clock coreStallTimeout run.views run.exitCode

/-- What an attempt at one version meets, without the process of a stage where it cannot be
started. -/
structure Attempt where
  existing : Option BuildInfo
  downloaded : Bool
  hasSource : Bool
  core : Option StageRun
  hasBindings : Bool
  bindings : Option StageRun
  python : Option StageRun
  verified : Bool
  totalTime : ℚ

/-- The end of each stage that runs a process, from opening its log on. -/
def stageResult (stage : BuildStage) (started : Option StageRun) (verified : Bool) :
    Except BuildError StageResult :=
  match started with
  | none => .error .notStarted
  | some run =>
    if run.succeeded && verified then .ok ⟨stage, true, run.buildTime, none, none⟩
    else
      match run.buildLog with
      | none => .error .notDecoded
      | some buildLog =>
        let (errorType, errorMessage) := analyzeStageError (universalNewlines buildLog)
        .ok ⟨stage, false, run.buildTime, some errorType, some errorMessage⟩

def buildVectorCore (attempt : Attempt) : Except BuildError StageResult :=
  if !attempt.hasSource then
    .ok ⟨.vectorCore, false, 0, some .vectorCoreFailure, some "No Vector source"⟩
  else stageResult .vectorCore attempt.core true

def coreFailed (stage : BuildStage) : StageResult :=
  ⟨stage, false, 0, some .dependencyFailure, some "Vector core failed"⟩

def buildVectorBindings (attempt : Attempt) (vectorResult : StageResult) :
    Except BuildError StageResult :=
  if !vectorResult.success then .ok (coreFailed .vectorBindings)
  else if !attempt.hasBindings then .ok ⟨.vectorBindings, true, 0, none, none⟩
  else stageResult .vectorBindings attempt.bindings true

/-- Stage 3: build Python bindings; the result of stage 2 only adds a path to search. -/
def buildPythonLayer (attempt : Attempt) (vectorResult : StageResult) :
    Except BuildError StageResult :=
  if !vectorResult.success then .ok (coreFailed .pythonBindings)
  else stageResult .pythonBindings attempt.python attempt.verified

inductive BuildAction where
  | download (version : String)
  | buildCore (version : String)
  | syncDependencies (version : String)
  | autoFix
  | buildBindings
  | buildPython
deriving DecidableEq, Repr

/-- How an attempt leaves the loop: on to the next version, out of it by its break, with a result
or by what a stage raises. -/
inductive Leaves where
  | next
  | stop
  | done (result : BuildResult)
  | raised (error : BuildError)
deriving DecidableEq, Repr

def afterCore (version : String) (attempt : Attempt) (vectorResult : StageResult) :
    List BuildAction × Leaves :=
  if !vectorResult.success then
    ([], if vectorResult.errorType = some .upstreamCompile then .next else .stop)
  else
    let actions := [.syncDependencies version, .autoFix, .buildBindings]
    match buildVectorBindings attempt vectorResult with
    | .error e => (actions, .raised e)
    | .ok bindingsResult =>
      let actions := actions ++ [.buildPython]
      match buildPythonLayer attempt vectorResult with
      | .error e => (actions, .raised e)
      | .ok pythonResult =>
        let stageResults := [(.vectorCore, vectorResult), (.vectorBindings, bindingsResult),
          (.pythonBindings, pythonResult)]
        (actions,
          if pythonResult.success then .done ⟨true, version, attempt.totalTime, stageResults⟩
          else if pythonResult.errorType = some .upstreamCompile then .next
          else .stop)

def runAttempt (version : String) (attempt : Attempt) : List BuildAction × Leaves :=
  match attempt.existing.filter fun info => !shouldRebuildVector info version with
  | some info =>
    afterCore version attempt
      ⟨.vectorCore, true, 0, none, some s!"Using existing Vector {info.version} build"⟩
  | none =>
    if !attempt.downloaded then ([.download version], .next)
    else
      match buildVectorCore attempt with
      | .error e => ([.download version, .buildCore version], .raised e)
      | .ok vectorResult =>
        let (actions, leaves) := afterCore version attempt vectorResult
        (.download version :: .buildCore version :: actions, leaves)

def tryVersions : List (String × Attempt) → List BuildAction × Except BuildError BuildResult
  | [] => ([], .ok ⟨false, "failed", 0, []⟩)
  | (version, attempt) :: rest =>
    match runAttempt version attempt with
    | (actions, .next) =>
      let (more, result) := tryVersions rest
      (actions ++ more, result)
    | (actions, .stop) => (actions, .ok ⟨false, "failed", 0, []⟩)
    | (actions, .done result) => (actions, .ok result)
    | (actions, .raised e) => (actions, .error e)

/-- The two versions that are tried at most, attempt `i` meeting `attempts i`. -/
def candidates (versions : List String) (attempts : Nat → Attempt) : List (String × Attempt) :=
  (versions.take 2).mapIdx fun i version => (version, attempts i)

def robustBuild (versions : List String) (attempts : Nat → Attempt) :
    List BuildAction × Except BuildError BuildResult :=
  tryVersions (candidates versions attempts)

def StageRun.Succeeded (run : StageRun) : Prop :=
  (watch run.clock coreStallTimeout (MonitorState.start run.clock) run.views).2 = none ∧
    run.exitCode = 0

def StageRun.ShowsUpstream (run : StageRun) : Prop :=
  ∃ buildLog, run.buildLog = some buildLog ∧
    ∃ pattern ∈ upstreamPatterns, pattern.onText (universalNewlines buildLog) = true

/-- The log decodes, and every view of it showed it as far as it was written. -/
def StageRun.Appends (run : StageRun) : Prop :=
  ∃ buildLog, run.buildLog = some buildLog ∧ ∀ view ∈ run.views, view.Within buildLog

def StageRun.Alarms (run : StageRun) : Prop :=
  Alarmed (watch run.clock coreStallTimeout (MonitorState.start run.clock) run.views)

/-- A stage whose process was started and succeeded, with what is checked after it. -/
def StagePasses (started : Option StageRun) (verified : Bool) : Prop :=
  ∃ run, started = some run ∧ run.Succeeded ∧ verified = true

/-- A stage that fails, with a log that decodes and shows a failure of Vector's own code. -/
def StageFailsUpstream (started : Option StageRun) (verified : Bool) : Prop :=
  ∃ run, started = some run ∧ ¬StagePasses started verified ∧ run.ShowsUpstream

/-- A stage whose process cannot be started, or that fails with a log that does not decode. -/
def StageRaises (started : Option StageRun) (verified : Bool) : BuildError → Prop
  | .notStarted => started = none
  | .notDecoded => ∃ run, started = some run ∧ ¬StagePasses started verified ∧ run.buildLog = none

namespace Attempt
variable (attempt : Attempt) (version : String)

def Reuses : Prop :=
  ∃ info, attempt.existing = some info ∧
    (s!"v{info.version}" = version ∨ info.version = lstripV version) ∧ info.buildAgeHours < 24

def Fetches : Prop :=
  ¬attempt.Reuses version ∧ attempt.downloaded = true ∧ attempt.hasSource = true

def HasCore : Prop :=
  attempt.Reuses version ∨ attempt.Fetches version ∧ StagePasses attempt.core true

def BindingsRaise (error : BuildError) : Prop :=
  attempt.hasBindings = true ∧ StageRaises attempt.bindings true error

/-- Vector core is there and the bindings stage, however it ends, raises nothing. -/
def ReachesPython : Prop := attempt.HasCore version ∧ ∀ error, ¬attempt.BindingsRaise error

def Finishes : Prop :=
  attempt.ReachesPython version ∧ StagePasses attempt.python attempt.verified

/-- The version is given up for an older one: it cannot be had, or fails by its own code. -/
def FallsBack : Prop :=
  (¬attempt.Reuses version ∧ attempt.downloaded = false) ∨
  (attempt.Fetches version ∧ StageFailsUpstream attempt.core true) ∨
  (attempt.ReachesPython version ∧ StageFailsUpstream attempt.python attempt.verified)

def Raises (error : BuildError) : Prop :=
  (attempt.Fetches version ∧ StageRaises attempt.core true error) ∨
  (attempt.HasCore version ∧ attempt.BindingsRaise error) ∨
  (attempt.ReachesPython version ∧ StageRaises attempt.python attempt.verified error)

def FailsAlarmed : Prop :=
  (attempt.Fetches version ∧ ¬StagePasses attempt.core true ∧
    ∃ run, attempt.core = some run ∧ run.Alarms) ∨
  (attempt.ReachesPython version ∧ ¬StagePasses attempt.python attempt.verified ∧
    ∃ run, attempt.python = some run ∧ run.Alarms)

end Attempt

structure LeavesAccount (version : String) (attempt : Attempt) (leaves : Leaves) : Prop where
  next : leaves = .next ↔ attempt.FallsBack version
  done : (∃ result, leaves = .done result) ↔ attempt.Finishes version
  raised : ∀ error, leaves = .raised error ↔ attempt.Raises version error
  result : ∀ result, leaves = .done result →
    result.success = true ∧ result.vectorVersion = version

/-- What one attempt did, too. -/
structure AttemptAccount (version : String) (attempt : Attempt) (actions : List BuildAction)
    (leaves : Leaves) : Prop extends LeavesAccount version attempt leaves where
  downloads : ∀ other, .download other ∈ actions ↔ other = version ∧ ¬attempt.Reuses version
  builds : ∀ other, .buildCore other ∈ actions ↔
    other = version ∧ ¬attempt.Reuses version ∧ attempt.downloaded = true
  goesOn : ∀ other, .syncDependencies other ∈ actions ↔
    other = version ∧ attempt.HasCore version

/-- An attempt is made once all before it have fallen back. -/
def Tried (list : List (String × Attempt)) (version : String) (attempt : Attempt) : Prop :=
  ∃ before after, list = before ++ (version, attempt) :: after ∧
    ∀ earlier ∈ before, earlier.2.FallsBack earlier.1

/-- What a build did and how it ended, by what its attempts met. -/
structure BuildAccount (list : List (String × Attempt)) (actions : List BuildAction)
    (outcome : Except BuildError BuildResult) : Prop where
  succeeds : ∀ version, (∃ result, outcome = .ok result ∧ result.success = true ∧
      result.vectorVersion = version) ↔
    ∃ attempt, Tried list version attempt ∧ attempt.Finishes version
  raises : ∀ error, outcome = .error error ↔
    ∃ version attempt, Tried list version attempt ∧ attempt.Raises version error
  downloads : ∀ version, .download version ∈ actions ↔
    ∃ attempt, Tried list version attempt ∧ ¬attempt.Reuses version
  builds : ∀ version, .buildCore version ∈ actions ↔
    ∃ attempt, Tried list version attempt ∧ ¬attempt.Reuses version ∧ attempt.downloaded = true
  goesOn : ∀ version, .syncDependencies version ∈ actions ↔
    ∃ attempt, Tried list version attempt ∧ attempt.HasCore version

end VectorVrl
