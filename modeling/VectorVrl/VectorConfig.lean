import VectorVrl.RemapChain

namespace VectorVrl
open Lib.Chain Lib.OrderedDict

structure VectorConfig where
  dataDir : String
  sources : Dict String (Dict String PyVal)
  transforms : Dict String Transform
  sinks : Dict String (Dict String PyVal)
  api : Dict String PyVal

def chainTransforms (chained : Dict String Transform) (upstream : String) :
    List (String × Transform) → Dict String Transform × String
  | [] => (chained, upstream)
  | (name, transform) :: rest =>
    chainTransforms (chained.set name (transform.set "inputs" (.list ![.str upstream]))) name rest

/-- A stdin -> transforms -> file config, transforms chained in order. -/
def vectorConfig (transforms : List (String × Transform)) (dataDir outputFile : String) :
    VectorConfig :=
  let (chained, upstream) := chainTransforms .empty "runner_stdin" transforms
  { dataDir := dataDir
    sources := .single "runner_stdin" (.single "type" (.str "stdin"))
    transforms := chained
    sinks := .single "runner_output" ⟨[
      ("type", .str "file"),
      ("path", .str outputFile),
      ("inputs", .list ![.str upstream]),
      ("encoding", .dict ["codec"] (List.nodup_singleton _) ![.str "json"])], by simp⟩
    api := .single "enabled" (.bool false) }

/-- `b` is a component that takes its events from `a`, its inputs read literally: Vector's own
wildcards in them are left out. -/
def Takes (components : List (String × Dict String PyVal)) (a b : String) : Prop :=
  ∃ options texts, (b, options) ∈ components ∧ inputTexts options = some texts ∧ a ∈ texts

namespace VectorConfig

def ids (config : VectorConfig) : List String :=
  config.sources.keys ++ config.transforms.keys ++ config.sinks.keys

def Edge (config : VectorConfig) : String → String → Prop :=
  Takes (config.sources.items ++ config.transforms.items ++ config.sinks.items)

/-- A way an event can take: in at a source, on along the edges, until none goes on. -/
structure Route (config : VectorConfig) (path : List String) : Prop where
  enters : ∃ source ∈ config.sources.keys, path[0]? = some source
  steps : ∀ a b, Next path a b → config.Edge a b
  leaves : ∀ a, path.getLast? = some a → ∀ b, ¬config.Edge a b

def line (given : List (String × Transform)) : List String :=
  "runner_stdin" :: given.map Prod.fst ++ ["runner_output"]

/-- The component is this transform with every option as it was, its inputs apart. -/
def Rewired (given wired : String × Transform) : Prop :=
  given.1 = wired.1 ∧ ∀ option, option ≠ "inputs" → wired.2.get? option = given.2.get? option

/-- The config runs each event through the given transforms, in order, once. -/
structure Chains (config : VectorConfig) (given : List (String × Transform)) : Prop where
  distinct : config.ids.Nodup
  transforms : List.Forall₂ Rewired given config.transforms.items
  edges : ∀ a b, config.Edge a b ↔ Next (line given) a b
  routes : ∀ path, config.Route path ↔ path = line given

end VectorConfig

def NoRunnerIds (config : Dict String PyVal) : Prop :=
  ∀ found, (config.get? "transforms").bind PyVal.asDict = some found →
    "runner_stdin" ∉ found.keys ∧ "runner_output" ∉ found.keys

end VectorVrl
