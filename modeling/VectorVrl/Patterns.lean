import VectorVrl.Lib.SharedCache
import VectorVrl.RemapChain

namespace VectorVrl
open Lib.OrderedDict Lib.SharedCache

/-- The patterns that have a config file. -/
def patternNames : List String :=
  ["apache_combined", "nginx_access", "json_application", "kubernetes_pods", "docker_container"]

/-- An exception, with its text. -/
inductive PyError where
  | fileNotFound (text : String)
  | moduleNotFound (text : String)
  | valueError (text : String)
  | attributeError (text : String)
  | other (text : String)
deriving DecidableEq, Repr

/-- `str` of an exception. -/
def PyError.text : PyError → String
  | .fileNotFound text | .moduleNotFound text | .valueError text | .attributeError text
  | .other text => text

namespace PyVal

def typeName : PyVal → String
  | .none => "NoneType"
  | .bool _ => "bool"
  | .int _ => "int"
  | .float _ => "float"
  | .str _ => "str"
  | .list _ => "list"
  | .dict _ _ _ => "dict"

/-- A value whose method is asked for, which only a dict has. -/
def having (method : String) (value : PyVal) : Except PyError (Dict String PyVal) :=
  match value.asDict with
  | some found => .ok found
  | Option.none =>
    let kind := value.typeName
    .error (.attributeError s!"'{kind}' object has no attribute '{method}'")

/-- A value that is changed where it is, as its kind can be. -/
def changedTo (new : PyVal) : PyVal → PyVal
  | .dict keys distinct value =>
    if new.asDict.isSome then new else .dict keys distinct value
  | .list items =>
    match new with
    | .list items' => .list items'
    | _ => .list items
  | old => old

end PyVal

/-- The VRL of the config's single `remap` transform. -/
def remapSource [PyUnicode] (config : PyVal) : Except PyError PyVal := do
  let config ← config.having "get"
  let transforms ←
    match config.get? "transforms" with
    | none => .ok .empty
    | some transforms => transforms.having "items"
  let found ← transforms.items.mapM fun entry =>
    (entry.2.having "get").map fun transform => (entry.1, transform)
  match found.filter fun entry => isRemap entry.2 with
  | [(name, transform)] =>
    match (transform.get? "source").getD .none with
    | .none =>
      let shown := pyRepr name
      .error (.valueError s!"remap transform {shown} has no inline source")
    | source => .ok source
  | remaps =>
    let count := remaps.length
    .error (.valueError s!"expected exactly one remap transform, found {count}")

/-- What opening and parsing a config file gives, for the files that hold no keys but texts and
no other types than those of `PyVal`. -/
inductive PatternFile where
  | unreadable (error : String)
  | invalid (error : String)
  | config (value : PyVal)

/-- What a use of the patterns finds: whether PyYAML is installed, and the files there are. -/
structure PatternDisk where
  hasYaml : Bool
  files : String → Option PatternFile

/-- A process's objects, with the `pattern_cache` of its library. -/
abbrev PatternStore := Store String PyVal

section
variable (dir : String) (disk : PatternDisk)

/-- `_load_yaml_config` of a pattern that is not in the cache. -/
def readConfig (patternName : String) : Except PyError PyVal :=
  match disk.files patternName with
  | none => .error (.fileNotFound s!"Pattern not found: {patternName} ({dir}/{patternName}.yaml)")
  | some file =>
    if !disk.hasYaml then
      .error (.moduleNotFound "Reading YAML needs PyYAML: pip install vector-vrl[yaml]")
    else
      match file with
      | .unreadable error => .error (.other error)
      | .invalid error => .error (.valueError s!"Invalid YAML in {patternName}: {error}")
      | .config value => .ok value

/-- Load Vector configuration from YAML file: the object it is in and what that holds. -/
def loadYamlConfig (patternName : String) (store : PatternStore) :
    PatternStore × Except PyError (Nat × PyVal) :=
  store.load patternName (readConfig dir disk patternName)

def getApacheCombined := loadYamlConfig dir disk "apache_combined"

def getNginxAccess := loadYamlConfig dir disk "nginx_access"

def getJsonApplication := loadYamlConfig dir disk "json_application"

def getKubernetesPods := loadYamlConfig dir disk "kubernetes_pods"

def getDockerContainer := loadYamlConfig dir disk "docker_container"

def unknownPattern (patternName : String) : PyError :=
  let available := ", ".intercalate (patternNames.map fun name => "'" ++ name ++ "'")
  .valueError s!"Unknown pattern: {patternName}. Available: [{available}]"

/-- Get production pattern by name, through the module-level instance's cache. -/
def getPattern (patternName : String) (store : PatternStore) :
    PatternStore × Except PyError (Nat × PyVal) :=
  if patternName ∉ patternNames then (store, .error (unknownPattern patternName))
  else loadYamlConfig dir disk patternName store

/-- What the benchmark says of a pattern: its assessment, or an error with a score of 0. -/
inductive BenchmarkEntry (ρ : Type) where
  | assessed (result : ρ)
  | failed (error : String)

/-- Test logs by the pattern they are for. -/
abbrev TestDataSets := Dict String (List String)

variable {ρ : Type} [PyUnicode] (assess : PyVal → List String → String → Except PyError ρ)

def benchmarkEntry (patternName : String) (testData : List String)
    (config : Except PyError PyVal) : BenchmarkEntry ρ :=
  let result := do
    let config ← config
    let vrlCode ← remapSource config
    assess vrlCode testData patternName
  match result with
  | .ok result => .assessed result
  | .error error => .failed error.text

/-- The loop's body: the store and the results after one more pattern. -/
def benchmarkPattern (testDataSets : TestDataSets)
    (state : PatternStore × Dict String (BenchmarkEntry ρ)) (patternName : String) :
    PatternStore × Dict String (BenchmarkEntry ρ) :=
  match testDataSets.get? patternName with
  | none => state
  | some testData =>
    let (store, config) := getPattern dir disk patternName state.1
    let entry := benchmarkEntry assess patternName testData (config.map Prod.snd)
    (store, state.2.set patternName entry)

/-- Benchmark all production patterns with their respective test data, `assess` standing for
the assessment of one. -/
def benchmarkAllPatterns (testDataSets : TestDataSets) (store : PatternStore) :
    PatternStore × Dict String (BenchmarkEntry ρ) :=
  patternNames.foldl (benchmarkPattern dir disk assess testDataSets) (store, .empty)

end

/-- What a program does with the patterns: it gets one through its own function or by name,
benchmarks them, or changes the config that an earlier call gave it, to a value that has no
object in common with another config. -/
inductive PatternCall where
  | load (patternName : String)
  | getPattern (patternName : String)
  | benchmark (testDataSets : TestDataSets)
  | change (call : Nat) (value : PyVal)

inductive PatternAnswer (ρ : Type) where
  | config (value : PyVal)
  | raised (error : PyError)
  | report (entries : List (String × BenchmarkEntry ρ))
  | changed

/-- A process with the objects that its calls were given. -/
structure PatternProcess where
  store : PatternStore
  held : List (Option Nat)

section
variable {ρ : Type} [PyUnicode] (dir : String)
  (assess : PyVal → List String → String → Except PyError ρ)

namespace PatternProcess

def start : PatternProcess := ⟨.empty, []⟩

def given (process : PatternProcess) :
    PatternStore × Except PyError (Nat × PyVal) → PatternProcess × PatternAnswer ρ
  | (store, .ok (ref, config)) => (⟨store, process.held ++ [some ref]⟩, .config config)
  | (store, .error error) => (⟨store, process.held ++ [none]⟩, .raised error)

/-- One call, with the disk as it finds it. -/
def step (process : PatternProcess) (disk : PatternDisk) :
    PatternCall → PatternProcess × PatternAnswer ρ
  | .load patternName => process.given (loadYamlConfig dir disk patternName process.store)
  | .getPattern patternName =>
    process.given (VectorVrl.getPattern dir disk patternName process.store)
  | .benchmark testDataSets =>
    let (store, results) := benchmarkAllPatterns dir disk assess testDataSets process.store
    (⟨store, process.held ++ [none]⟩, .report results.items)
  | .change call value =>
    let store :=
      match process.held[call]?.join with
      | some ref => process.store.change ref value.changedTo
      | none => process.store
    (⟨store, process.held ++ [none]⟩, .changed)

def run (process : PatternProcess) :
    List (PatternDisk × PatternCall) → PatternProcess × List (PatternAnswer ρ)
  | [] => (process, [])
  | (disk, call) :: rest =>
    let (next, answer) := process.step dir assess disk call
    let (last, answers) := next.run rest
    (last, answer :: answers)

end PatternProcess

/-- The patterns as a program may think of them: each name has a config of its own, once it
has been read, and a call is given a name. -/
structure PatternSlots where
  slots : String → Option PyVal
  held : List (Option String)

namespace PatternSlots

def start : PatternSlots := ⟨fun _ => none, []⟩

def given (patterns : PatternSlots) (disk : PatternDisk) (patternName : String) :
    PatternSlots × PatternAnswer ρ :=
  let read := readConfig dir disk
  let slots := opened patterns.slots read [patternName]
  match valueAt patterns.slots read patternName with
  | .ok config => (⟨slots, patterns.held ++ [some patternName]⟩, .config config)
  | .error error => (⟨slots, patterns.held ++ [none]⟩, .raised error)

/-- The entry of each pattern that there is test data for, by itself. -/
def entries (patterns : PatternSlots) (disk : PatternDisk) (testDataSets : TestDataSets) :
    List (String × BenchmarkEntry ρ) :=
  patternNames.filterMap fun patternName =>
    (testDataSets.get? patternName).map fun testData =>
      (patternName, benchmarkEntry assess patternName testData
        (valueAt patterns.slots (readConfig dir disk) patternName))

def step (patterns : PatternSlots) (disk : PatternDisk) :
    PatternCall → PatternSlots × PatternAnswer ρ
  | .load patternName => patterns.given dir disk patternName
  | .getPattern patternName =>
    if patternName ∈ patternNames then patterns.given dir disk patternName
    else (⟨patterns.slots, patterns.held ++ [none]⟩, .raised (unknownPattern patternName))
  | .benchmark testDataSets =>
    let names := patternNames.filter (· ∈ testDataSets.keys)
    (⟨opened patterns.slots (readConfig dir disk) names, patterns.held ++ [none]⟩,
      .report (patterns.entries dir assess disk testDataSets))
  | .change call value =>
    let slots :=
      match patterns.held[call]?.join with
      | some patternName =>
        Function.update patterns.slots patternName
          ((patterns.slots patternName).map value.changedTo)
      | none => patterns.slots
    (⟨slots, patterns.held ++ [none]⟩, .changed)

def run (patterns : PatternSlots) :
    List (PatternDisk × PatternCall) → PatternSlots × List (PatternAnswer ρ)
  | [] => (patterns, [])
  | (disk, call) :: rest =>
    let (next, answer) := patterns.step dir assess disk call
    let (last, answers) := next.run rest
    (last, answer :: answers)

end PatternSlots

end

/-- A process has for each name one object with its config, and has given it to the calls. -/
structure Shows (process : PatternProcess) (patterns : PatternSlots) : Prop where
  slots : process.store.slot = patterns.slots
  held : process.held = patterns.held.map fun name => name.bind process.store.cache.get?
  cached : ∀ name, some name ∈ patterns.held → ∃ ref, process.store.cache.get? name = some ref

/-- Two calls were given the same dict if and only if they were given the same name. The values
that are no dict are left out: two empty files give one `None`. -/
def SameObjects (process : PatternProcess) (patterns : PatternSlots) : Prop :=
  ∀ (call call' : Nat) (name : String) (config : PyVal),
    patterns.held[call]? = some (some name) → patterns.slots name = some config →
      config.asDict.isSome →
        (process.held[call']? = process.held[call]? ↔ patterns.held[call']? = some (some name))

end VectorVrl
