import Mathlib.Data.Rat.Defs
import VectorVrl.Lib.InOrder
import VectorVrl.Runner

namespace VectorVrl
open Lib.InOrder

inductive ErrorType where
  | upstreamCompile
  | vectorCoreFailure
  | bindingFailure
  | pythonFailure
  | dependencyFailure
  | ourCodeFailure
  | unknownFailure
deriving DecidableEq, Repr

/-- A regular expression of the monitor with the texts it puts `.*` between. -/
structure LogPattern where
  source : String
  parts : List String
deriving DecidableEq, Repr

def LogPattern.ofText (text : String) : LogPattern := ⟨text, [text]⟩

def upstreamPatterns : List LogPattern := [
  ⟨"cannot find function.*proto_to_value.*vrl.*protobuf",
    ["cannot find function", "proto_to_value", "vrl", "protobuf"]⟩,
  ⟨"cannot find function.*get_message_descriptor.*vrl.*protobuf",
    ["cannot find function", "get_message_descriptor", "vrl", "protobuf"]⟩,
  ⟨"cannot find function.*encode_message.*vrl.*protobuf",
    ["cannot find function", "encode_message", "vrl", "protobuf"]⟩,
  ⟨"error: could not compile.*codecs.*due to.*previous error",
    ["error: could not compile", "codecs", "due to", "previous error"]⟩,
  ⟨"krb5.*make failed", ["krb5", "make failed"]⟩,
  ⟨"make failed in lib", ["make failed in lib"]⟩,
  ⟨"auth_none\\.c.*too many arguments to function",
    ["auth_none.c", "too many arguments to function"]⟩,
  ⟨"thread 'main' panicked at.*krb5-src", ["thread 'main' panicked at", "krb5-src"]⟩]

/-- A character as `re.IGNORECASE` compares it to one of an ASCII pattern. -/
def ignoreCase (c : Char) : Char :=
  if c.toNat = 0x17f then 's'
  else if c.toNat = 0x212a then 'k'
  else if c.toNat = 0x130 || c.toNat = 0x131 then 'i'
  else c.toLower

/-- `re.search` on one line, in which `.` is any character. -/
def LogPattern.onLine (pattern : LogPattern) (line : List Char) : Bool :=
  occurInOrder (pattern.parts.map fun part => part.toList.map ignoreCase) (line.map ignoreCase)

/-- `re.search` on a text, where `.` stops at a newline and so does each match. -/
def LogPattern.onText (pattern : LogPattern) (text : List Char) : Bool :=
  (text.splitOn '\n').any pattern.onLine

/-- The monitor ends the build at once on these patterns. -/
def LogPattern.fatal (pattern : LogPattern) : Bool :=
  ["make failed", "panic"].any fun fatal => fatal.toList <:+: pattern.source.toList

def analyzeStageError (buildLog : List Char) : ErrorType × String :=
  match upstreamPatterns.find? (·.onText buildLog) with
  | some pattern =>
    let start := String.ofList (pattern.source.toList.take 30)
    (.upstreamCompile, s!"Upstream: {start}...")
  | none =>
    if ["dependency resolution", "failed to select"].any fun text =>
        (LogPattern.ofText text).onText buildLog then
      (.dependencyFailure, "Dependency conflict")
    else (.ourCodeFailure, "Code issue")

inductive BuildPhase where
  | downloading
  | compiling
  | linking
  | error
deriving DecidableEq, Repr

namespace BuildPhase

def all : List BuildPhase := [.downloading, .compiling, .linking, .error]

/-- The alternatives of the pattern that marks a phase. -/
def marks : BuildPhase → List String
  | .downloading => ["Downloading", "Updating"]
  | .compiling => ["Compiling"]
  | .linking => ["Linking", "Finished"]
  | .error => ["error:", "ERROR:", "failed", "panic"]

def onLine (phase : BuildPhase) (line : List Char) : Bool :=
  phase.marks.any fun mark => (LogPattern.ofText mark).onLine line

def maxDuration : BuildPhase → ℚ
  | .downloading => 900
  | .compiling => 1800
  | .linking => 600
  | .error => 300

end BuildPhase

def progressKeywords : List String := ["Compiling", "Downloading", "Building", "Finished"]

def isMeaningful (line : List Char) : Bool :=
  progressKeywords.any fun keyword => keyword.toList <:+: line

/-- What a monitor remembers between two polls; `ticks` counts its readings of the clock. -/
structure MonitorState where
  ticks : Nat
  lastActivity : ℚ
  lastSize : Nat
  lastMeaningful : ℚ
  currentPhase : Option BuildPhase
  phaseStart : ℚ
  errorIndicators : List (List Char)

inductive Stop where
  | fatal (line : List Char)
  | phase
  | noProgress
  | stall
deriving DecidableEq, Repr

/-- The log file as a poll finds it: not there, not to be asked for its size, or of this size and
then with this content; none where reading it raises. A size counts characters, so only logs
with characters of a single byte are spoken of. -/
inductive LogView where
  | missing
  | unreadable
  | sized (size : Nat) (text : Option (List Char))

section
variable (clock : Nat → ℚ) (stallTimeout : ℚ)

def MonitorState.start : MonitorState := ⟨3, clock 0, 0, clock 1, none, clock 2, []⟩

/-- A line that marks another phase than the current one starts it; what the current one took
is read off the clock before, to be reported. -/
def enterPhase (line : List Char) (s : MonitorState) (phase : BuildPhase) : MonitorState :=
  if phase.onLine line && s.currentPhase ≠ some phase then
    let ticks := s.ticks + if s.currentPhase.isSome then 1 else 0
    { s with currentPhase := some phase, phaseStart := clock ticks, ticks := ticks + 1 }
  else s

def enterPhases (s : MonitorState) (line : List Char) : MonitorState :=
  BuildPhase.all.foldl (enterPhase clock line) s

def checkPatterns (line : List Char) : List LogPattern → MonitorState → MonitorState × Bool
  | [], s => (s, false)
  | pattern :: rest, s =>
    if pattern.onLine line then
      let s := { s with errorIndicators := s.errorIndicators ++ [line.take 100] }
      if pattern.fatal then (s, true) else checkPatterns line rest s
    else checkPatterns line rest s

def noteActivity (s : MonitorState) : MonitorState :=
  { s with lastActivity := clock s.ticks, ticks := s.ticks + 1 }

def noteProgress (s : MonitorState) (line : List Char) : MonitorState :=
  if isMeaningful line then { s with lastMeaningful := clock s.ticks, ticks := s.ticks + 1 } else s

def watchLine (s : MonitorState) (line : List Char) : MonitorState × Bool :=
  checkPatterns line upstreamPatterns (enterPhases clock (noteProgress clock s line) line)

def watchLines : List (List Char) → MonitorState → MonitorState × Option Stop
  | [], s => (s, none)
  | line :: rest, s =>
    let line := strip line
    if line = [] then watchLines rest s
    else
      match watchLine clock s line with
      | (s, true) => (s, some (.fatal line))
      | (s, false) => watchLines rest s

/-- The first timeout that is over, the clock being read for the activity, the meaningful
output and the phase, if there is one, in this order. -/
def timeout (s : MonitorState) : Option Stop :=
  let sinceActivity := clock s.ticks - s.lastActivity
  let sinceMeaningful := clock (s.ticks + 1) - s.lastMeaningful
  let overdue := s.currentPhase.any fun phase =>
    clock (s.ticks + 2) - s.phaseStart > phase.maxDuration
  if overdue then some .phase
  else if sinceMeaningful > 900 then some .noProgress
  else if sinceActivity > stallTimeout then some .stall
  else none

def checkTimeouts (s : MonitorState) : MonitorState × Option Stop :=
  ({ s with ticks := s.ticks + if s.currentPhase.isSome then 3 else 2 }, timeout clock stallTimeout s)

/-- The lines of a log from where it was read to the last time, to which `seek` goes by bytes:
these are its characters in a log of single-byte characters only. -/
def unreadLines (s : MonitorState) (text : List Char) : List (List Char) :=
  (universalNewlines (text.drop s.lastSize)).splitOn '\n'

/-- One round of the loop; what raises in it is swallowed, and the rest of the round with it. -/
def poll (s : MonitorState) : LogView → MonitorState × Option Stop
  | .missing | .unreadable => (s, none)
  | .sized size text =>
    if size > s.lastSize then
      match text with
      | none => (noteActivity clock s, none)
      | some text =>
        match watchLines clock (unreadLines s text)
            { noteActivity clock s with lastSize := size } with
        | (s, some stop) => (s, some stop)
        | (s, none) => checkTimeouts clock stallTimeout s
    else checkTimeouts clock stallTimeout s

/-- The rounds while the process runs, until one terminates it. -/
def watch (s : MonitorState) : List LogView → MonitorState × Option Stop
  | [] => (s, none)
  | view :: rest =>
    match poll clock stallTimeout s view with
    | (s, some stop) => (s, some stop)
    | (s, none) => watch s rest

def monitorIntelligentBuild (views : List LogView) (exitCode : Int) : Bool :=
  match (watch clock stallTimeout (MonitorState.start clock) views).2 with
  | some _ => false
  | none => exitCode = 0

def newLines (s : MonitorState) : LogView → List (List Char)
  | .sized size (some text) =>
    if size > s.lastSize then (unreadLines s text).map strip else []
  | _ => []

def shownLines (s : MonitorState) : List LogView → List (List Char)
  | [] => []
  | view :: rest => newLines s view ++ shownLines (poll clock stallTimeout s view).1 rest

end

def LogView.Grown (size : Nat) : LogView → Prop
  | .sized now _ => size < now
  | .missing | .unreadable => False

/-- A poll of the view comes to look at the timeouts, if no line ends the build. -/
def LogView.Checked (size : Nat) : LogView → Prop
  | .sized now text => size < now → text ≠ none
  | .missing | .unreadable => False

/-- A view of a log that is `log` in the end, nothing but its end ever being written. -/
def LogView.Within (log : List Char) : LogView → Prop
  | .sized _ (some text) => text <+: log
  | .sized _ none | .missing | .unreadable => True

def Alarmed (watched : MonitorState × Option Stop) : Prop :=
  watched.1.errorIndicators ≠ [] ∨ ∃ line, watched.2 = some (.fatal line)

/-- What a monitor has kept while a log has grown or not and some lines were shown. -/
structure Kept (grown : Prop) (lines : List (List Char)) (s t : MonitorState) : Prop where
  ticks : s.ticks ≤ t.ticks
  size : ¬grown → t.lastSize = s.lastSize
  activity : ¬grown → t.lastActivity = s.lastActivity
  meaningful : (∀ line ∈ lines, isMeaningful line = false) → t.lastMeaningful = s.lastMeaningful
  phase : ∀ phase, s.currentPhase = some phase →
    (∀ line ∈ lines, ∀ other : BuildPhase, other.onLine line = true → other = phase) →
      t.currentPhase = some phase ∧ t.phaseStart = s.phaseStart

section
variable (clock : Nat → ℚ) (stallTimeout : ℚ)

/-- What a monitor can have terminated its build for, by what it knew when it did. -/
def Stop.Cause (t : MonitorState) : Stop → Prop
  | .fatal line => ∃ pattern ∈ upstreamPatterns, pattern.fatal = true ∧ pattern.onLine line = true
  | .phase => ∃ phase, t.currentPhase = some phase ∧
      ∃ tick < t.ticks, phase.maxDuration < clock tick - t.phaseStart
  | .noProgress => ∃ tick < t.ticks, 900 < clock tick - t.lastMeaningful
  | .stall => ∃ tick < t.ticks, stallTimeout < clock tick - t.lastActivity

/-- Since the state `s` a log has not grown, or shown no progress, or no other phase, and at
the poll after the views `after` it is too long. -/
inductive Hung (s : MonitorState) (after : List LogView) (last : LogView) : Prop
  | stalled : (∀ view ∈ after ++ [last], ¬view.Grown s.lastSize) →
      stallTimeout < clock (watch clock stallTimeout s after).1.ticks - s.lastActivity →
      Hung s after last
  | noProgress :
      (∀ line ∈ shownLines clock stallTimeout s (after ++ [last]), isMeaningful line = false) →
      900 < clock (watch clock stallTimeout s after).1.ticks - s.lastMeaningful →
      Hung s after last
  | phase (phase : BuildPhase) : s.currentPhase = some phase →
      (∀ line ∈ shownLines clock stallTimeout s (after ++ [last]), ∀ other : BuildPhase,
        other.onLine line = true → other = phase) →
      phase.maxDuration < clock (watch clock stallTimeout s after).1.ticks - s.phaseStart →
      Hung s after last

/-- From the state on, a monitor ends the builds that hang and none without a cause. -/
structure Watchdog (s : MonitorState) : Prop where
  ends : ∀ after last, last.Checked (watch clock stallTimeout s after).1.lastSize →
    Hung clock stallTimeout s after last →
      ∃ stop, (watch clock stallTimeout s (after ++ [last])).2 = some stop
  cause : ∀ views stop, (watch clock stallTimeout s views).2 = some stop →
    stop.Cause clock stallTimeout (watch clock stallTimeout s views).1

end

end VectorVrl
