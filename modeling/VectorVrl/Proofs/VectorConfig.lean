import VectorVrl.Proofs.RemapChain
import VectorVrl.VectorConfig

namespace VectorVrl.Proofs.VectorConfig
open Lib.Chain Lib.OrderedDict RemapChain

theorem input_texts_set (options : Dict String PyVal) (upstream : String) :
    inputTexts (options.set "inputs" (.list ![.str upstream])) = some [upstream] := by
  rw [inputTexts, Dict.get_set, if_pos rfl]
  rfl

theorem takes_append {l r : List (String × Dict String PyVal)} {a b : String} :
    Takes (l ++ r) a b ↔ Takes l a b ∨ Takes r a b := by
  constructor
  · intro h
    obtain ⟨options, texts, hmem, hrest⟩ := h
    rcases List.mem_append.mp hmem with hl | hr
    · exact Or.inl ⟨options, texts, hl, hrest⟩
    · exact Or.inr ⟨options, texts, hr, hrest⟩
  · intro hor
    rcases hor with ⟨options, texts, hl, hrest⟩ | ⟨options, texts, hr, hrest⟩
    · exact ⟨options, texts, List.mem_append_left r hl, hrest⟩
    · exact ⟨options, texts, List.mem_append_right l hr, hrest⟩

theorem takes_single {id : String} {options : Dict String PyVal} {texts : List String}
    (h : inputTexts options = some texts) {a b : String} :
    Takes [(id, options)] a b ↔ a ∈ texts ∧ b = id := by
  constructor
  · intro hsome
    obtain ⟨options', texts', hmem, htexts, ha⟩ := hsome
    obtain ⟨rfl, rfl⟩ := Prod.ext_iff.mp (List.mem_singleton.mp hmem)
    rw [h] at htexts
    cases htexts
    exact ⟨ha, rfl⟩
  · intro hboth
    obtain ⟨ha, rfl⟩ := hboth
    exact ⟨options, texts, List.mem_singleton_self _, h, ha⟩

section
variable {chained : Dict String Transform} {upstream name : String} {transform : Transform}
  {given rest : List (String × Transform)}

theorem fresh_head (h : (chained.keys ++ ((name, transform) :: rest).map Prod.fst).Nodup)
    (value : Transform) :
    name ∉ chained.keys ∧ ((chained.set name value).keys ++ rest.map Prod.fst).Nodup := by
  have hnew : name ∉ chained.keys := by
    intro hmem
    exact (List.nodup_append.mp h).2.2 name hmem name (by simp) rfl
  refine ⟨hnew, ?_⟩
  rw [Dict.keys, Dict.set_new hnew, List.map_append, List.append_assoc]
  exact h

/-- The loop adds each transform at the end, with its inputs alone changed. -/
theorem chained_items (h : (chained.keys ++ given.map Prod.fst).Nodup) :
    ∃ wired, (chainTransforms chained upstream given).1.items = chained.items ++ wired ∧
      List.Forall₂ VectorConfig.Rewired given wired := by
  induction given generalizing chained upstream with
  | nil => exact ⟨[], (List.append_nil _).symm, .nil⟩
  | cons entry rest ih =>
    obtain ⟨name, transform⟩ := entry
    obtain ⟨hnew, hrest⟩ := fresh_head h (transform.set "inputs" (.list ![.str upstream]))
    obtain ⟨wired, hitems, hwired⟩ := @ih _ name hrest
    refine ⟨(name, transform.set "inputs" (.list ![.str upstream])) :: wired, ?_, ?_⟩
    · rw [chainTransforms, hitems, Dict.set_new hnew, List.append_assoc]
      rfl
    · refine .cons ⟨rfl, ?_⟩ hwired
      intro option hoption
      rw [Dict.get_set, if_neg hoption]

/-- With what takes the last id behind it, the loop adds the path from `upstream` to there. -/
theorem chained_edges (h : (chained.keys ++ given.map Prod.fst).Nodup) {id : String}
    {options : Dict String PyVal}
    (hlast : inputTexts options = some [(chainTransforms chained upstream given).2])
    {a b : String} :
    Takes ((chainTransforms chained upstream given).1.items ++ [(id, options)]) a b ↔
      Takes chained.items a b ∨ Next (upstream :: given.map Prod.fst ++ [id]) a b := by
  induction given generalizing chained upstream with
  | nil =>
    rw [takes_append, takes_single hlast, List.mem_singleton]
    simp only [chainTransforms, List.map_nil, List.cons_append, List.nil_append, next_cons,
      next_single, or_false]
  | cons entry rest ih =>
    obtain ⟨name, transform⟩ := entry
    obtain ⟨hnew, hrest⟩ := fresh_head h (transform.set "inputs" (.list ![.str upstream]))
    rw [chainTransforms, ih hrest hlast, Dict.set_new hnew, takes_append,
      takes_single (input_texts_set transform upstream), List.mem_singleton, or_assoc]
    simp only [List.map_cons, List.cons_append, next_cons]

end

section
variable {given : List (String × Transform)} {dataDir outputFile : String}

theorem line_nodup_iff :
    (VectorConfig.line given).Nodup ↔ (given.map Prod.fst).Nodup ∧
      "runner_stdin" ∉ given.map Prod.fst ∧ "runner_output" ∉ given.map Prod.fst := by
  have hdiff : "runner_stdin" ≠ "runner_output" := by decide
  rw [VectorConfig.line, List.cons_append, List.nodup_cons, List.nodup_append_comm,
    List.singleton_append, List.nodup_cons, List.mem_append, List.mem_singleton, not_or]
  constructor
  · intro h
    exact ⟨h.2.2, h.1.1, h.2.1⟩
  · intro h
    exact ⟨⟨h.2.1, hdiff⟩, h.2.2, h.1⟩

theorem config_transforms (h : (given.map Prod.fst).Nodup) (dataDir outputFile : String) :
    List.Forall₂ VectorConfig.Rewired given
      (vectorConfig given dataDir outputFile).transforms.items := by
  obtain ⟨wired, hitems, hwired⟩ := @chained_items .empty "runner_stdin" given h
  rw [vectorConfig, hitems]
  exact hwired

theorem config_ids (h : (given.map Prod.fst).Nodup) (dataDir outputFile : String) :
    (vectorConfig given dataDir outputFile).ids = VectorConfig.line given := by
  have hkeys := keys_through (config_transforms h dataDir outputFile) fun _ _ hentry => hentry.1
  rw [VectorConfig.ids, Dict.keys, Dict.keys, ← hkeys]
  rfl

theorem config_edges (h : (given.map Prod.fst).Nodup) (dataDir outputFile a b : String) :
    (vectorConfig given dataDir outputFile).Edge a b ↔ Next (VectorConfig.line given) a b := by
  have hsource : ¬Takes (vectorConfig given dataDir outputFile).sources.items a b := by
    intro htakes
    exact List.not_mem_nil ((takes_single rfl).mp htakes).1
  have hnothing : ¬Takes (Dict.empty : Dict String Transform).items a b := by
    intro htakes
    obtain ⟨_, _, hmem, _⟩ := htakes
    exact List.not_mem_nil hmem
  rw [VectorConfig.Edge, List.append_assoc, takes_append, or_iff_right hsource]
  have hempty : ((Dict.empty : Dict String Transform).keys ++ given.map Prod.fst).Nodup := h
  exact (chained_edges hempty rfl).trans (or_iff_right hnothing)

/-- With distinct ids the edges lead one way through. -/
theorem config_routes (h : (VectorConfig.line given).Nodup) (dataDir outputFile : String)
    (path : List String) :
    (vectorConfig given dataDir outputFile).Route path ↔ path = VectorConfig.line given := by
  have hedges := config_edges (line_nodup_iff.mp h).1 dataDir outputFile
  constructor
  · intro hroute
    obtain ⟨source, hsource, hstart⟩ := hroute.enters
    rw [List.mem_singleton.mp hsource] at hstart
    apply path_unique h hstart
    · intro a b hnext
      exact (hedges a b).mp (hroute.steps a b hnext)
    · intro a hlast b hnext
      exact hroute.leaves a hlast b ((hedges a b).mpr hnext)
  · rintro rfl
    refine ⟨⟨"runner_stdin", List.mem_singleton_self _, rfl⟩, fun a b => (hedges a b).mpr, ?_⟩
    intro a hlast b hedge
    exact no_next_of_last h hlast ((hedges a b).mp hedge)

theorem config_chains_iff (h : (given.map Prod.fst).Nodup) (dataDir outputFile : String) :
    (vectorConfig given dataDir outputFile).Chains given ↔
      "runner_stdin" ∉ given.map Prod.fst ∧ "runner_output" ∉ given.map Prod.fst := by
  constructor
  · intro hchains
    have hdistinct := hchains.distinct
    rw [config_ids h] at hdistinct
    exact (line_nodup_iff.mp hdistinct).2
  · intro hfree
    have hline := line_nodup_iff.mpr ⟨h, hfree⟩
    refine ⟨?_, config_transforms h dataDir outputFile, config_edges h dataDir outputFile,
      config_routes hline dataDir outputFile⟩
    rw [config_ids h]
    exact hline

end

theorem inline_remaps_found {config : Dict String PyVal} {transforms : Dict String Transform}
    (h : InlineRemaps config transforms) :
    NoRunnerIds config ↔
      "runner_stdin" ∉ transforms.keys ∧ "runner_output" ∉ transforms.keys := by
  obtain ⟨found, hfound, _, hinline⟩ := h
  have hkeys : found.keys = transforms.keys := keys_through hinline fun _ _ hentry => hentry.1
  constructor
  · intro hnone
    rw [← hkeys]
    exact hnone found hfound
  · intro hnone found' hfound'
    rw [hfound] at hfound'
    cases hfound'
    rw [hkeys]
    exact hnone

/-- A config of the identity program alone, with this id. -/
def oneRemap (name : String) : Dict String PyVal :=
  .single "transforms" (.dict [name] (List.nodup_singleton name)
    ![.dict ["type", "source"] (by decide) ![.str "remap", .str "."]])

def identityRemap : Transform := ⟨[("type", .str "remap"), ("source", .str ".")], by simp⟩

/-- A config of two programs, the second of them listed first. -/
def twoRemaps : Dict String PyVal :=
  .single "transforms" (.dict ["enrich", "parse"] (by decide)
    ![.dict ["type", "inputs", "source"] (by decide)
        ![.str "remap", .list ![.str "parse"], .str ".level = 1"],
      .dict ["type", "inputs", "source"] (by decide)
        ![.str "remap", .list ![.str "logs"], .str "."]])

def parseRemap : Transform :=
  ⟨[("type", .str "remap"), ("inputs", .list ![.str "logs"]), ("source", .str ".")], by decide⟩

def enrichRemap : Transform :=
  ⟨[("type", .str "remap"), ("inputs", .list ![.str "parse"]), ("source", .str ".level = 1")],
    by decide⟩

def twoChain : List (String × Transform) := [("parse", parseRemap), ("enrich", enrichRemap)]

/-- The config that runs an accepted chain is that chain, from the source to the sink, unless a
transform has the id of either. -/
theorem vector_config_chains_iff [PyUnicode] {fuel : Nat} {config : Dict String PyVal}
    {chain : List (String × Transform)} (haccepted : remapChain fuel config = some (.ok chain))
    (dataDir outputFile : String) :
    (vectorConfig chain dataDir outputFile).Chains chain ↔ NoRunnerIds config := by
  obtain ⟨transforms, hinline, hperm⟩ := remap_chain_accepted haccepted
  have hnames : (chain.map Prod.fst).Perm transforms.keys := hperm.map Prod.fst
  rw [config_chains_iff (hnames.nodup_iff.mpr transforms.distinct), inline_remaps_found hinline,
    hnames.mem_iff, hnames.mem_iff]

section
local instance : PyUnicode := ⟨fun _ => true⟩

theorem two_remaps_free : NoRunnerIds twoRemaps := by
  intro found hfound
  cases hfound
  decide

theorem two_remaps_chain :
    remapChain 2 twoRemaps = some (.ok twoChain) ∧
      (vectorConfig twoChain "vector_data" "output.ndjson").Chains twoChain := by
  have haccepted : remapChain 2 twoRemaps = some (.ok twoChain) := rfl
  exact ⟨haccepted, (vector_config_chains_iff haccepted _ _).mpr two_remaps_free⟩

/-- A remap with the id of the runner's source takes its events from itself. -/
theorem source_id_taken :
    remapChain 1 (oneRemap "runner_stdin") = some (.ok [("runner_stdin", identityRemap)]) ∧
      ¬(vectorConfig [("runner_stdin", identityRemap)] "vector_data" "output.ndjson").Chains
        [("runner_stdin", identityRemap)] := by
  refine ⟨rfl, ?_⟩
  rw [config_chains_iff (by decide)]
  intro hfree
  exact hfree.1 (by decide)

end

end VectorVrl.Proofs.VectorConfig
