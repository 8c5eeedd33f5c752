import VectorVrl.Pipeline
import VectorVrl.Proofs.Benchmark
import VectorVrl.Proofs.Runner
import VectorVrl.Proofs.Stdin
import VectorVrl.Proofs.VectorConfig

namespace VectorVrl.Proofs.Pipeline
open Lib.Chain Lib.Dataflow Lib.OrderedDict RemapChain Proofs.VectorConfig

/-- The estimate grades as the assessor does. -/
theorem pipeline_grade (throughput : ℚ) :
    pipelineGrade throughput = getPerformanceGrade throughput := by
  unfold pipelineGrade
  split_ifs
  all_goals simp [getPerformanceGrade, thgGrades, *]
  split <;> rfl

theorem nodup_of_length {α : Type} {as : List α} (h : as.length ≤ 1) : as.Nodup := by
  rcases Nat.le_one_iff_eq_zero_or_eq_one.mp h with hzero | hone
  · rw [List.length_eq_zero_iff.mp hzero]
    exact List.nodup_nil
  · obtain ⟨a, rfl⟩ := List.length_eq_one_iff.mp hone
    exact List.nodup_singleton a

section
variable {config : VectorConfig} {remap : RemapEvents}

theorem options_iff (h : config.ids.Nodup) {id : String} {options : Dict String PyVal} :
    config.options id = some options ↔
      (id, options) ∈ config.sources.items ++ config.transforms.items ++ config.sinks.items := by
  have hdistinct : ((config.sources.items ++ config.transforms.items ++
      config.sinks.items).map Prod.fst).Nodup := by
    rw [List.map_append, List.map_append]
    exact h
  exact Dict.get_eq_some_iff (d := ⟨_, hdistinct⟩)

theorem takes_of_options (h : config.ids.Nodup) {a b : String} :
    a ∈ ((config.options b).bind inputTexts).getD [] ↔ config.Edge a b := by
  constructor
  · intro ha
    cases ht : (config.options b).bind inputTexts with
    | none =>
      rw [ht] at ha
      cases ha
    | some texts =>
      rw [ht] at ha
      obtain ⟨options, ho, htexts⟩ := Option.bind_eq_some_iff.mp ht
      exact ⟨options, texts, (options_iff h).mp ho, htexts, ha⟩
  · rintro ⟨options, texts, hmem, ht, ha⟩
    rw [(options_iff h).mpr hmem, Option.bind_some, ht]
    exact ha

/-- A config whose edges are a path of its components is a line of their main outputs. -/
theorem network_line (hids : config.ids.Nodup) {path : List String} (hpath : path.Nodup)
    (hsub : path ⊆ config.ids) (hedges : ∀ a b, config.Edge a b ↔ Next path a b)
    (hone : ∀ b, (((config.options b).bind inputTexts).getD []).length ≤ 1) :
    (config.network remap).Line .main path := by
  refine ⟨hpath, ?_, ?_⟩
  · rintro ⟨a, port⟩ b
    change _ ∈ List.filterMap _ _ ↔ _
    rw [List.mem_filterMap]
    constructor
    · rintro ⟨text, htext, hnamed⟩
      have hnext := (hedges text b).mp ((takes_of_options hids).mp htext)
      obtain ⟨i, hi, _⟩ := id hnext
      rw [outputNamed, if_pos (hsub (List.mem_of_getElem? hi))] at hnamed
      cases hnamed
      exact ⟨rfl, hnext⟩
    · rintro ⟨hport, hnext⟩
      obtain ⟨i, hi, _⟩ := id hnext
      refine ⟨a, (takes_of_options hids).mpr ((hedges a b).mpr hnext), ?_⟩
      rw [outputNamed, if_pos (hsub (List.mem_of_getElem? hi))]
      exact congrArg (fun output => some (a, output)) hport.symm
  · intro b
    have hlength := (List.length_filterMap_le (outputNamed config.ids) _).trans (hone b)
    exact nodup_of_length hlength

end

section
variable {given : List (String × Transform)}

/-- Each transform the loop adds takes its events from one place. -/
theorem chained_inputs {chained : Dict String Transform} {upstream : String}
    (h : (chained.keys ++ given.map Prod.fst).Nodup)
    (hone : ∀ entry ∈ chained.items, ∃ from', inputTexts entry.2 = some [from']) :
    ∀ entry ∈ (chainTransforms chained upstream given).1.items,
      ∃ from', inputTexts entry.2 = some [from'] := by
  induction given generalizing chained upstream with
  | nil => exact hone
  | cons entry rest ih =>
    obtain ⟨name, transform⟩ := entry
    obtain ⟨hnew, hrest⟩ := fresh_head h (transform.set "inputs" (.list ![.str upstream]))
    rw [chainTransforms]
    apply ih hrest
    intro entry hentry
    rw [Dict.set_new hnew, List.mem_append, List.mem_singleton] at hentry
    rcases hentry with hold | rfl
    · exact hone entry hold
    · exact ⟨upstream, input_texts_set transform upstream⟩

/-- The config the runner writes is a line from its source to its sink. -/
theorem runner_line (h : (VectorConfig.line given).Nodup) (dataDir outputFile : String)
    (remap : RemapEvents) :
    ((vectorConfig given dataDir outputFile).network remap).Line .main
      (VectorConfig.line given) := by
  have hgiven := (line_nodup_iff.mp h).1
  have hids := config_ids hgiven dataDir outputFile
  refine network_line (hids ▸ h) h (fun a ha => hids ▸ ha)
    (config_edges hgiven dataDir outputFile) ?_
  intro b
  cases ho : (vectorConfig given dataDir outputFile).options b with
  | none => exact Nat.zero_le 1
  | some options =>
    rw [options_iff (hids ▸ h), List.mem_append, List.mem_append] at ho
    rw [Option.bind_some]
    rcases ho with (hsource | htransform) | hsink
    · cases List.mem_singleton.mp hsource
      exact Nat.zero_le 1
    · have hempty : ((Dict.empty : Dict String Transform).keys ++ given.map Prod.fst).Nodup :=
        hgiven
      have hnone : ∀ entry ∈ (Dict.empty : Dict String Transform).items,
          ∃ from', inputTexts entry.2 = some [from'] := fun entry hentry => nomatch hentry
      obtain ⟨upstream, hone⟩ := chained_inputs hempty hnone (b, options) htransform
      rw [hone]
      exact Nat.le_refl 1
    · cases List.mem_singleton.mp hsink
      exact Nat.le_refl 1

end

section
variable {transforms : Dict String Transform} {inputs : String → List String}
  {config : Dict String PyVal} {chain : List (String × Transform)} {remap : RemapEvents}
  {fuel : Nat}

/-- Without inputs that name dropped events, what a transform takes is what the transforms
among its inputs give. -/
theorem transform_network_inputs (htexts : TextInputs transforms inputs)
    (hdropped : NoDroppedInputs transforms inputs) {b : String} (hb : b ∈ transforms.keys) :
    (transformNetwork transforms remap).inputs b =
      (transformsAmong transforms inputs b).map fun a => (a, .main) := by
  obtain ⟨transform, hmem⟩ := Dict.mem_keys_iff.mp hb
  change List.filterMap _ (((transforms.get? b).bind inputTexts).getD []) = _
  rw [Dict.get_eq_some_iff.mpr hmem, Option.bind_some, htexts b transform hmem, Option.getD_some,
    transformsAmong, ← List.filterMap_eq_map, ← List.filterMap_eq_filter, List.filterMap_filterMap]
  refine List.filterMap_congr fun text htext => ?_
  by_cases hin : text ∈ transforms.keys
  · simp [outputNamed, hin]
  · have hnone : (transforms.keys.find? fun id => id ++ ".dropped" = text) = none := by
      rw [List.find?_eq_none]
      intro id hid
      simpa using (hdropped b hb text htext hin id hid).symm
    simp [outputNamed, hin, hnone, Option.guard]

theorem no_transform_inputs {b : String} (hb : b ∉ transforms.keys) :
    (transformNetwork transforms remap).inputs b = [] := by
  have hnone : transforms.get? b = none := by
    cases hget : transforms.get? b with
    | none => rfl
    | some transform => exact absurd (Dict.mem_keys_iff.mpr ⟨_, Dict.get_eq_some_iff.mp hget⟩) hb
  change List.filterMap _ (((transforms.get? b).bind inputTexts).getD []) = _
  rw [hnone]
  rfl

/-- The transforms of an accepted config are a line as they are wired there. -/
theorem accepted_line [PyUnicode] (hinline : InlineRemaps config transforms)
    (htexts : TextInputs transforms inputs) (hdropped : NoDroppedInputs transforms inputs)
    (haccepted : remapChain fuel config = some (.ok chain)) (remap : RemapEvents) :
    (transformNetwork transforms remap).Line .main (chain.map Prod.fst) := by
  obtain ⟨hperm, _, honce, hpath⟩ := remap_chain_ok hinline htexts haccepted
  have hnames : (chain.map Prod.fst).Perm transforms.keys := hperm.map Prod.fst
  refine ⟨hnames.nodup_iff.mpr transforms.distinct, ?_, ?_⟩
  · rintro ⟨a, port⟩ b
    by_cases hb : b ∈ transforms.keys
    · rw [transform_network_inputs htexts hdropped hb, List.mem_map]
      constructor
      · rintro ⟨a', ha, heq⟩
        cases heq
        have hain := of_decide_eq_true (List.mem_filter.mp ha).2
        exact ⟨rfl, (hpath.edges a hain b hb).mp ((listed_iff hain).mp ha)⟩
      · rintro ⟨hport, hnext⟩
        obtain ⟨i, hia, _⟩ := id hnext
        have hain := hnames.mem_iff.mp (List.mem_of_getElem? hia)
        refine ⟨a, (listed_iff hain).mpr ((hpath.edges a hain b hb).mpr hnext), ?_⟩
        exact congrArg (Prod.mk a) hport.symm
    · rw [no_transform_inputs hb]
      refine iff_of_false List.not_mem_nil ?_
      rintro ⟨_, i, _, hib⟩
      exact hb (hnames.mem_iff.mp (List.mem_of_getElem? hib))
  · intro b
    by_cases hb : b ∈ transforms.keys
    · rw [transform_network_inputs htexts hdropped hb]
      exact (honce b hb).map fun _ _ => congrArg Prod.fst
    · rw [no_transform_inputs hb]
      exact List.nodup_nil

/-- Each transform does in the runner's config what it does in its own. -/
theorem rewired_gives (hwiring : ∀ given wired : Transform,
      (∀ option, option ≠ "inputs" → wired.get? option = given.get? option) →
        remap wired = remap given)
    (hperm : chain.Perm transforms.items) (dataDir outputFile : String) {id : String}
    (hid : id ∈ chain.map Prod.fst) :
    ((vectorConfig chain dataDir outputFile).network remap).Gives .main id =
      (transformNetwork transforms remap).Gives .main id := by
  have hdistinct : (chain.map Prod.fst).Nodup :=
    (hperm.map Prod.fst).nodup_iff.mpr transforms.distinct
  obtain ⟨⟨name, given⟩, hentry, rfl⟩ := List.mem_map.mp hid
  obtain ⟨⟨_, wired⟩, hwired, rfl, hsame⟩ :=
    Lib.Collect.related_left (config_transforms hdistinct dataDir outputFile) hentry
  have hgiven := Dict.get_eq_some_iff.mpr (hperm.mem_iff.mp hentry)
  funext event out
  simp only [Network.Gives, VectorConfig.network, transformNetwork,
    Dict.get_eq_some_iff.mpr hwired, hgiven, Option.some.injEq, exists_eq_left', hwiring given wired hsame]

/-- The runner's source and sink pass on what they take. -/
theorem ends_keep (h : (chain.map Prod.fst).Nodup) (dataDir outputFile : String) {id : String}
    (hid : id ∉ chain.map Prod.fst) (event : JsonObject) (out : List JsonObject) :
    ((vectorConfig chain dataDir outputFile).network remap).Gives .main id event out ↔
      out = [event] := by
  have hkeys := keys_through (config_transforms h dataDir outputFile) fun _ _ hentry => hentry.1
  have hnone : (vectorConfig chain dataDir outputFile).transforms.get? id = none := by
    cases hget : (vectorConfig chain dataDir outputFile).transforms.get? id with
    | none => rfl
    | some transform =>
      have hmem := List.mem_map_of_mem (f := Prod.fst) (Dict.get_eq_some_iff.mp hget)
      rw [← hkeys] at hmem
      exact absurd hmem hid
  simp only [Network.Gives, VectorConfig.network, hnone, exists_eq_left, passedOn]
  exact eq_comm

theorem accepted_ends [PyUnicode] (hinline : InlineRemaps config transforms)
    (htexts : TextInputs transforms inputs)
    (haccepted : remapChain fuel config = some (.ok chain)) :
    ∃ first last, (chain.map Prod.fst).head? = some first ∧
      (chain.map Prod.fst).getLast? = some last := by
  obtain ⟨hperm, _⟩ := remap_chain_ok hinline htexts haccepted
  have hne : chain.map Prod.fst ≠ [] := by
    intro hnil
    rw [List.map_eq_nil_iff] at hnil
    rw [hnil] at hperm
    exact inline_remaps_nonempty hinline (List.nil_perm.mp hperm)
  exact ⟨_, _, List.head?_eq_some_head hne, List.getLast?_eq_some_getLast hne⟩

/-- What the runner's config can write for events on its stdin is what the config's own
transforms can give for them. -/
theorem rewired_gives_iff [PyUnicode] (hinline : InlineRemaps config transforms)
    (htexts : TextInputs transforms inputs) (hdropped : NoDroppedInputs transforms inputs)
    (hids : NoRunnerIds config) (haccepted : remapChain fuel config = some (.ok chain))
    (hwiring : ∀ given wired : Transform,
      (∀ option, option ≠ "inputs" → wired.get? option = given.get? option) →
        remap wired = remap given) (dataDir outputFile : String) {first last : String}
    (hfirst : (chain.map Prod.fst).head? = some first)
    (hlast : (chain.map Prod.fst).getLast? = some last) (events out : List JsonObject) :
    (∃ s, ((vectorConfig chain dataDir outputFile).network remap).Steps
        (start (feedTo "runner_stdin" events)) s ∧
      ((vectorConfig chain dataDir outputFile).network remap).Drained s ∧
        s.given ("runner_output", .main) = out) ↔
    ∃ s, (transformNetwork transforms remap).Steps (start (feedTo first events)) s ∧
      (transformNetwork transforms remap).Drained s ∧ s.given (last, .main) = out := by
  obtain ⟨hperm, _⟩ := remap_chain_ok hinline htexts haccepted
  have hnames : (chain.map Prod.fst).Perm transforms.keys := hperm.map Prod.fst
  have hline := accepted_line hinline htexts hdropped haccepted remap
  have hfree := (inline_remaps_found hinline).mp hids
  rw [← hnames.mem_iff, ← hnames.mem_iff] at hfree
  have hrunner := runner_line (line_nodup_iff.mpr ⟨hline.nodup, hfree⟩) dataDir outputFile remap
  obtain ⟨rest, hchain⟩ := List.head?_eq_some_iff.mp hfirst
  have hfed : ∀ id, ∀ b ≠ id, feedTo id events b = [] := fun id b hb => if_neg hb
  have hself : ∀ id, feedTo id events id = events := fun id => if_pos rfl
  have hkept : ∀ id ∉ chain.map Prod.fst, ∀ event out,
      ((vectorConfig chain dataDir outputFile).network remap).Gives .main id event out ↔
        out = [event] :=
    fun id hid => ends_keep hline.nodup dataDir outputFile hid
  have hsame : ∀ id ∈ chain.map Prod.fst,
      ((vectorConfig chain dataDir outputFile).network remap).Gives .main id =
        (transformNetwork transforms remap).Gives .main id :=
    fun id hid => rewired_gives hwiring hperm dataDir outputFile hid
  have hend : ("runner_stdin" :: (chain.map Prod.fst ++ ["runner_output"])).getLast? =
      some "runner_output" := by
    rw [← List.cons_append, List.getLast?_concat]
  rw [Network.line_gives_iff hrunner (hfed "runner_stdin") hend, hself, List.append_eq,
    ← List.cons_append, Network.through_snoc_kept (hkept _ hfree.2),
    Network.through_cons_kept (hkept _ hfree.1), Network.through_congr hsame]
  rw [hchain] at hline hlast ⊢
  rw [Network.line_gives_iff hline (hfed first) hlast, hself]

/-- Rewiring an accepted config keeps its meaning, from the first of its transforms to the
last. -/
theorem rewiring_keeps_meaning [PyUnicode] (hinline : InlineRemaps config transforms)
    (htexts : TextInputs transforms inputs) (hdropped : NoDroppedInputs transforms inputs)
    (hids : NoRunnerIds config) (haccepted : remapChain fuel config = some (.ok chain))
    (hwiring : ∀ given wired : Transform,
      (∀ option, option ≠ "inputs" → wired.get? option = given.get? option) →
        remap wired = remap given) (dataDir outputFile : String) :
    ∃ first last, (chain.map Prod.fst).head? = some first ∧
      (chain.map Prod.fst).getLast? = some last ∧ ∀ events out,
        ((∃ s, ((vectorConfig chain dataDir outputFile).network remap).Steps
            (start (feedTo "runner_stdin" events)) s ∧
          ((vectorConfig chain dataDir outputFile).network remap).Drained s ∧
            s.given ("runner_output", .main) = out) ↔
        ∃ s, (transformNetwork transforms remap).Steps (start (feedTo first events)) s ∧
          (transformNetwork transforms remap).Drained s ∧ s.given (last, .main) = out) := by
  obtain ⟨first, last, hfirst, hlast⟩ := accepted_ends hinline htexts haccepted
  exact ⟨first, last, hfirst, hlast, fun events out =>
    rewired_gives_iff hinline htexts hdropped hids haccepted hwiring dataDir outputFile hfirst hlast
      events out⟩

theorem lines_back {inputLogs : List String} (h : ∀ log ∈ inputLogs, '\n' ∉ log.toList) :
    linesRead (stdinText inputLogs) = inputLogs := by
  have hframe : ∀ part ∈ inputLogs.map String.toList, '\n' ∉ part := by simpa using h
  rw [linesRead, Stdin.stdin_frame, (Lib.Framing.unframe_eq_iff '\n' _).mpr hframe, List.map_map]
  simp

/-- A run that Vector ends well gives the objects in its output file. -/
theorem run_gives [FloatTexts] {vector : VectorConfig → List Char → VectorRun}
    {chain : List (String × Transform)} {inputLogs : List String} {dataDir outputFile : String}
    {stderr : List Char} {objects : List JsonObject}
    (hexit : (vector (vectorConfig chain dataDir outputFile) (stdinText inputLogs)).completed =
      .exited 0 stderr)
    (houtput : (vector (vectorConfig chain dataDir outputFile)
      (stdinText inputLogs)).outputFile.getD [] = sinkText objects)
    (hunbroken : ∀ object ∈ objects, object.Unbroken) (timeout : String) :
    runRemapChain vector chain inputLogs dataDir outputFile timeout =
      .ok (true, objects.map (fun object => pyValue object.value),
        " | ".intercalate (problems 0 stderr [])) := by
  simp only [runRemapChain, hexit, houtput, Runner.newlines_kept (Runner.sink_no_return _),
    Runner.unbroken_decoded hunbroken]
  rfl

/-- A pipeline run that Vector ends well reports what the config's own transforms give for
the events of the logs, each log one event, as long as no string in it holds a raw break. -/
theorem pipeline_reports [PyUnicode] [FloatTexts] {vector : VectorConfig → List Char → VectorRun}
    {reads : String → JsonObject → Prop} (hruns : VectorRuns vector remap reads)
    (hinline : InlineRemaps config transforms) (htexts : TextInputs transforms inputs)
    (hdropped : NoDroppedInputs transforms inputs) (hids : NoRunnerIds config)
    (haccepted : remapChain fuel config = some (.ok chain))
    {installed : Installed} (hinstalled : installed.performanceAvailable ∧ installed.found)
    {inputLogs : List String} (hlogs : ∀ log ∈ inputLogs, '\n' ∉ log.toList)
    {dataDir outputFile : String} {stderr : List Char}
    (hexit : (vector (vectorConfig chain dataDir outputFile) (stdinText inputLogs)).completed =
      .exited 0 stderr) (timeout : String) (processingTime : ℚ) :
    ∃ first last events s, (chain.map Prod.fst).head? = some first ∧
      (chain.map Prod.fst).getLast? = some last ∧ List.Forall₂ reads inputLogs events ∧
      (transformNetwork transforms remap).Steps (start (feedTo first events)) s ∧
      (transformNetwork transforms remap).Drained s ∧
      ((∀ object ∈ s.given (last, .main), object.Unbroken) →
        ∃ report, executeVectorPipeline installed vector fuel config inputLogs dataDir outputFile
            timeout processingTime = some (.ok report) ∧
          report.success ∧ report.errorMessage = none ∧
          report.results = (s.given (last, .main)).map (fun object => pyValue object.value) ∧
          report.eventsProcessed = (s.given (last, .main)).length ∧
          report.grade = getPerformanceGrade report.throughputEps) := by
  obtain ⟨first, last, hfirst, hlast⟩ := accepted_ends hinline htexts haccepted
  obtain ⟨hperm, _⟩ := remap_chain_ok hinline htexts haccepted
  have hnames : (chain.map Prod.fst).Perm transforms.keys := hperm.map Prod.fst
  have hdistinct : (chain.map Prod.fst).Nodup := hnames.nodup_iff.mpr transforms.distinct
  have hfree := (inline_remaps_found hinline).mp hids
  rw [← hnames.mem_iff, ← hnames.mem_iff] at hfree
  have hconfig : (vectorConfig chain dataDir outputFile).ids.Nodup := by
    rw [config_ids hdistinct]
    exact line_nodup_iff.mpr ⟨hdistinct, hfree⟩
  obtain ⟨events, s, hreads, hsteps, hdrained, houtput⟩ :=
    hruns.drained (vectorConfig chain dataDir outputFile) _ stderr "runner_stdin" "runner_output" _
      hconfig rfl rfl rfl rfl hexit
  rw [lines_back hlogs] at hreads
  obtain ⟨t, htsteps, htdrained, hgiven⟩ :=
    (rewired_gives_iff hinline htexts hdropped hids haccepted hruns.wiring dataDir outputFile hfirst
      hlast events _).mp ⟨s, hsteps, hdrained, rfl⟩
  refine ⟨first, last, events, t, hfirst, hlast, hreads, htsteps, htdrained, ?_⟩
  intro hunbroken
  rw [hgiven] at hunbroken ⊢
  have hrun := run_gives hexit houtput hunbroken timeout
  refine ⟨pipelineReport processingTime (true, (s.given ("runner_output", .main)).map
    (fun object => pyValue object.value), " | ".intercalate (problems 0 stderr [])), ?_, rfl, rfl,
    rfl, ?_, pipeline_grade _⟩
  · simp only [executeVectorPipeline, hinstalled, haccepted, hrun, Option.map_some]
    rfl
  · simp [pipelineReport]

end

section
local instance : PyUnicode := ⟨fun _ => true⟩
local instance : FloatTexts := Runner.plainFloats

def passOn : RemapEvents := fun _ event out => out = passedOn event

def readMessage (log : String) (event : JsonObject) : Prop := event = Runner.messageObject log

/-- The config is one path: each component after the first takes from the one before it. -/
def IsPath (config : VectorConfig) : Prop :=
  (config.sources.items ++ config.transforms.items ++ config.sinks.items).map
      (fun entry => inputTexts entry.2) =
    some [] :: config.ids.dropLast.map fun text => some [text]

instance (config : VectorConfig) : Decidable (IsPath config) :=
  inferInstanceAs (Decidable (_ = _))

/-- A Vector for such configs that passes events on as they are. -/
def passingVector (config : VectorConfig) (stdin : List Char) : VectorRun :=
  if IsPath config then
    ⟨.exited 0 [], some (sinkText ((linesRead stdin).map Runner.messageObject))⟩
  else ⟨.exited 78 [], none⟩

theorem takes_path {components : List (String × Dict String PyVal)} {first a b : String}
    (h : components.map (fun entry => inputTexts entry.2) =
      (first :: components.map Prod.fst).dropLast.map fun text => some [text]) :
    Takes components a b ↔ Next (first :: components.map Prod.fst) a b := by
  induction components generalizing first with
  | nil =>
    refine iff_of_false ?_ next_single
    rintro ⟨_, _, hmem, _⟩
    cases hmem
  | cons entry rest ih =>
    obtain ⟨id, options⟩ := entry
    rw [List.map_cons, List.map_cons, List.dropLast_cons_cons, List.map_cons, List.cons.injEq] at h
    rw [← List.singleton_append, takes_append, takes_single h.1, ih h.2, List.mem_singleton]
    exact next_cons.symm

theorem path_line {config : VectorConfig} (h : IsPath config) (hids : config.ids.Nodup) :
    (config.network passOn).Line .main config.ids := by
  have hkeys : config.ids = (config.sources.items ++ config.transforms.items ++
      config.sinks.items).map Prod.fst := by
    rw [List.map_append, List.map_append]
    rfl
  refine network_line hids hids (List.Subset.refl _) ?_ ?_
  · intro a b
    rw [IsPath, hkeys] at h
    rw [VectorConfig.Edge, hkeys]
    generalize config.sources.items ++ config.transforms.items ++ config.sinks.items = components
      at h ⊢
    cases components with
    | nil => cases h
    | cons entry rest =>
      obtain ⟨id, options⟩ := entry
      rw [List.map_cons, List.cons.injEq, List.map_cons] at h
      rw [← List.singleton_append, takes_append, takes_single h.1, takes_path h.2]
      simp
  · intro b
    cases ho : config.options b with
    | none => exact Nat.zero_le 1
    | some options =>
      have htexts := List.mem_map_of_mem (f := fun entry => inputTexts entry.2)
        ((options_iff hids).mp ho)
      rw [h, List.mem_cons, List.mem_map] at htexts
      rw [Option.bind_some]
      rcases htexts with hnone | ⟨text, _, hone⟩
      · rw [hnone]
        exact Nat.zero_le 1
      · rw [← hone]
        exact Nat.le_refl 1

theorem passing_runs : VectorRuns passingVector passOn readMessage := by
  refine ⟨fun _ _ _ => rfl, ?_⟩
  intro config stdin stderr source sink options hids hsources hsinks _ _ hexit
  rw [passingVector] at hexit ⊢
  split at hexit
  · rename_i hpath
    rw [if_pos hpath]
    have hline := path_line hpath hids
    have hends : config.ids = source :: (config.transforms.keys ++ [sink]) := by
      have hsink : config.sinks.keys = [sink] := by
        rw [Dict.keys, hsinks]
        rfl
      rw [VectorConfig.ids, hsources, hsink]
      rfl
    rw [hends] at hline
    have hlast : (source :: (config.transforms.keys ++ [sink])).getLast? = some sink := by
      rw [← List.cons_append, List.getLast?_concat]
    have hkeeps : ∀ id event out, (config.network passOn).Gives .main id event out ↔
        out = [event] := by
      intro id event out
      have hemits : ∀ outs, (config.network passOn).emits id event outs ↔
          outs = passedOn event := by
        intro outs
        simp only [VectorConfig.network, passOn]
        split <;> rfl
      simp only [Network.Gives, hemits, exists_eq_left, passedOn]
      exact eq_comm
    let events := (linesRead stdin).map Runner.messageObject
    have hself : feedTo source events source = events := if_pos rfl
    obtain ⟨s, hsteps, hdrained, hgiven⟩ :=
      (Network.line_gives_iff hline (fun b hb => if_neg hb) hlast).mpr
        ((Network.through_kept fun id _ => hkeeps id).mpr hself.symm)
    refine ⟨events, s, ?_, hsteps, hdrained, ?_⟩
    · exact List.forall₂_map_right_iff.mpr (List.forall₂_same.mpr fun _ _ => rfl)
    · rw [hgiven]
      rfl
  · cases hexit

def twoTransforms : Dict String Transform :=
  ⟨[("enrich", enrichRemap), ("parse", parseRemap)], by decide⟩

def twoInputs (name : String) : List String := if name = "enrich" then ["parse"] else ["logs"]

theorem two_inline : InlineRemaps twoRemaps twoTransforms := by
  refine ⟨_, rfl, by simp, .cons ⟨rfl, rfl, rfl, ".level = 1", rfl⟩ (.cons ?_ .nil)⟩
  exact ⟨rfl, rfl, rfl, ".", rfl⟩

theorem two_texts : TextInputs twoTransforms twoInputs := by
  intro name transform hmem
  rcases List.mem_pair.mp hmem with heq | heq
  · cases heq
    rfl
  · cases heq
    rfl

theorem two_main : NoDroppedInputs twoTransforms twoInputs := by
  unfold NoDroppedInputs
  decide

theorem two_remaps_meaning :
    ∃ first last, (twoChain.map Prod.fst).head? = some first ∧
      (twoChain.map Prod.fst).getLast? = some last ∧ ∀ events out,
        ((∃ s, ((vectorConfig twoChain "" "").network passOn).Steps
            (start (feedTo "runner_stdin" events)) s ∧
          ((vectorConfig twoChain "" "").network passOn).Drained s ∧
            s.given ("runner_output", .main) = out) ↔
        ∃ s, (transformNetwork twoTransforms passOn).Steps (start (feedTo first events)) s ∧
          (transformNetwork twoTransforms passOn).Drained s ∧ s.given (last, .main) = out) :=
  @rewiring_keeps_meaning twoTransforms twoInputs twoRemaps twoChain passOn 2 _ two_inline
    two_texts two_main two_remaps_free rfl (fun _ _ _ => rfl) "" ""

theorem two_remaps_report :
    ∃ first last events s, (twoChain.map Prod.fst).head? = some first ∧
      (twoChain.map Prod.fst).getLast? = some last ∧
      List.Forall₂ readMessage ["up", "down"] events ∧
      (transformNetwork twoTransforms passOn).Steps (start (feedTo first events)) s ∧
      (transformNetwork twoTransforms passOn).Drained s ∧
      ((∀ object ∈ s.given (last, .main), object.Unbroken) →
        ∃ report, executeVectorPipeline ⟨true, "vector", true⟩ passingVector 2
            twoRemaps ["up", "down"] "" "" "30" 1 = some (.ok report) ∧
          report.success ∧ report.errorMessage = none ∧
          report.results = (s.given (last, .main)).map (fun object => pyValue object.value) ∧
          report.eventsProcessed = (s.given (last, .main)).length ∧
          report.grade = getPerformanceGrade report.throughputEps) :=
  @pipeline_reports twoTransforms twoInputs twoRemaps twoChain passOn 2 _ _ passingVector
    readMessage passing_runs two_inline two_texts two_main two_remaps_free rfl
    ⟨true, "vector", true⟩ ⟨rfl, rfl⟩ ["up", "down"] (by decide) "" "" [] rfl "30" 1

end

end VectorVrl.Proofs.Pipeline
