import Mathlib.Tactic.FieldSimp
import VectorVrl.Proofs.Pipeline
import VectorVrl.SimpleTest

namespace VectorVrl.Proofs.SimpleTest
open Lib.Collect Lib.Dataflow Lib.OrderedDict Proofs.VectorConfig Proofs.Pipeline

/-- An object as the dict that Python has for it. -/
def fieldsOf (object : JsonObject) : Dict String PyVal :=
  ⟨List.ofFn fun i => (object.keys.names.get i, pyValue (object.field i)),
    PyVal.entries_distinct object.keys.nodup _⟩

theorem having_object (method : String) (object : JsonObject) :
    (pyValue object.value).having method = .ok (fieldsOf object) := rfl

theorem fields_keys (object : JsonObject) : (fieldsOf object).keys = object.keys.names := by
  rw [fieldsOf, Dict.keys, List.map_ofFn]
  exact List.ofFn_get _

theorem objects_fields (objects : List JsonObject) :
    (objects.map fun object => pyValue object.value).mapM (PyVal.having "keys") =
      .ok (objects.map fieldsOf) := by
  rw [map_m_ok_iff, List.forall₂_map_left_iff, List.forall₂_map_right_iff, List.forall₂_same]
  exact fun object _ => having_object "keys" object

theorem any_field_iff {objects : List JsonObject} {field : String} :
    ((objects.map fieldsOf).any fun result => decide (field ∈ result.keys)) = true ↔
      HasField objects field := by
  rw [List.any_map, List.any_eq_true]
  refine exists_congr fun object => and_congr_right fun _ => ?_
  rw [Function.comp_apply, decide_eq_true_eq, fields_keys]

/-- Splitting the expected fields by whether they are found is exact. -/
theorem split_exact {objects : List JsonObject} {expectedFields : List String}
    (hne : expectedFields ≠ []) {isFound : String → Bool}
    (hfound : ∀ field, isFound field = true ↔ HasField objects field)
    (seen : Option (Finset String × PyVal)) :
    let extracted := expectedFields.filter isFound
    let missing := expectedFields.filter fun field => !isFound field
    FieldsExact objects expectedFields ⟨missing.length = 0, extracted, missing, extracted.length,
      extracted.length / expectedFields.length * 100, seen⟩ := by
  intro extracted missing
  have hmissing : missing = [] ↔ ∀ field ∈ expectedFields, HasField objects field := by
    rw [List.filter_eq_nil_iff]
    refine forall₂_congr fun field _ => ?_
    rw [← hfound]
    cases isFound field <;> simp
  have hlength : extracted.length + missing.length = expectedFields.length := by
    rw [← List.length_append]
    exact (List.filter_append_perm isFound expectedFields).length_eq
  have hpos : (expectedFields.length : ℚ) ≠ 0 := by simpa using hne
  constructor
  · intro field
    rw [List.mem_filter, hfound]
  · intro field
    rw [List.mem_filter, ← hfound]
    cases isFound field <;> simp
  · exact List.filter_append_perm isFound expectedFields
  · rw [decide_eq_true_eq, List.length_eq_zero_iff, hmissing]
  · simp only
    field_simp
  · rw [decide_eq_true_eq]
    constructor
    · intro hrate
      simp only at hrate
      field_simp at hrate
      have hsame : extracted.length = expectedFields.length := by exact_mod_cast hrate
      omega
    · intro hnone
      have hsame : extracted.length = expectedFields.length := by omega
      simp only [hsame, div_self hpos, one_mul]

theorem validate_exact (objects : List JsonObject) {expectedFields : List String}
    (hne : expectedFields ≠ []) :
    ∃ validation, validateFieldExtraction (objects.map fun object => pyValue object.value)
        expectedFields = .ok validation ∧ FieldsExact objects expectedFields validation := by
  cases objects with
  | nil =>
    have hnone : ∀ field, ¬HasField [] field := fun field h => by simp [HasField] at h
    obtain ⟨field, hfield⟩ := List.exists_mem_of_ne_nil expectedFields hne
    refine ⟨_, rfl, ?_⟩
    constructor
    · exact fun field => iff_of_false List.not_mem_nil fun h => hnone field h.2
    · exact fun field => (and_iff_left (hnone field)).symm
    · exact List.Perm.refl _
    · exact iff_of_false Bool.false_ne_true fun h => hnone field (h field hfield)
    · simp
    · simp
  | cons object objects =>
    have hfields := objects_fields (object :: objects)
    refine ⟨_, ?_, split_exact hne (fun field => any_field_iff)
      (some ((((object :: objects).map fieldsOf).flatMap Dict.keys).toFinset,
        pyValue object.value))⟩
    rw [List.map_cons] at hfields ⊢
    rw [validateFieldExtraction, hfields]
    simp [Except.map, hne, List.partition_eq_filter_filter, Function.comp_def]

/-- A report on objects counts them, and validates them where there are fields to look for. -/
theorem report_exact (vrlCode : String) (inputLogs expectedFields : List String) (success : Bool)
    (objects : List JsonObject) (error : String) :
    ∃ report, testReport vrlCode inputLogs expectedFields
        (success, objects.map (fun object => pyValue object.value), error) = .ok report ∧
      report.success = success ∧ report.inputCount = inputLogs.length ∧
      report.results = objects.map (fun object => pyValue object.value) ∧
      report.outputCount = objects.length ∧
      (expectedFields ≠ [] → ∃ validation, report.fieldValidation = some validation ∧
        FieldsExact objects expectedFields validation) := by
  have hlength : (objects.map fun object => pyValue object.value).length = objects.length :=
    List.length_map _
  by_cases hne : expectedFields = []
  · refine ⟨_, if_neg (not_not_intro hne), rfl, rfl, rfl, hlength, ?_⟩
    exact fun h => absurd hne h
  · obtain ⟨validation, hvalid, hexact⟩ := validate_exact objects hne
    have hreport : testReport vrlCode inputLogs expectedFields
        (success, objects.map (fun object => pyValue object.value), error) =
        .ok ⟨success, inputLogs.length, (objects.map fun object => pyValue object.value).length,
          objects.map fun object => pyValue object.value, error, some validation, vrlCode⟩ := by
      rw [testReport, if_pos hne, hvalid]
      rfl
    exact ⟨_, hreport, rfl, rfl, rfl, hlength, fun _ => ⟨validation, rfl, hexact⟩⟩

section
variable {remap : RemapEvents} {dataDir outputFile : String}

/-- A program that is tested alone gives, event by event, what its transform gives. -/
theorem tested_gives (hwiring : ∀ given wired : Transform,
      (∀ option, option ≠ "inputs" → wired.get? option = given.get? option) →
        remap wired = remap given) (transform : Transform) {events : List JsonObject}
    {s : Traffic String RemapOutput JsonObject}
    (hsteps : ((vectorConfig [("vrl_test", transform)] dataDir outputFile).network remap).Steps
      (start (feedTo "runner_stdin" events)) s)
    (hdrained : ((vectorConfig [("vrl_test", transform)] dataDir outputFile).network remap).Drained
      s) :
    ∃ outs, List.Forall₂ (remap transform) events outs ∧
      s.given ("runner_output", .main) = Network.together outs .main := by
  have hline : (VectorConfig.line [("vrl_test", transform)]).Nodup := by simp [VectorConfig.line]
  have hend : (VectorConfig.line [("vrl_test", transform)]).getLast? = some "runner_output" := rfl
  have hchain : ([("vrl_test", transform)].map Prod.fst).Nodup := List.nodup_singleton _
  have hkept : ∀ id ∉ [("vrl_test", transform)].map Prod.fst, ∀ event out,
      ((vectorConfig [("vrl_test", transform)] dataDir outputFile).network remap).Gives .main id
        event out ↔ out = [event] :=
    fun id hid => ends_keep hchain dataDir outputFile hid
  have hsame := @rewired_gives (.single "vrl_test" transform) [("vrl_test", transform)] remap
    hwiring (List.Perm.refl _) dataDir outputFile "vrl_test" (List.mem_singleton_self _)
  have hthrough : ((vectorConfig [("vrl_test", transform)] dataDir outputFile).network
      remap).Through .main ("runner_stdin" :: (["vrl_test"] ++ ["runner_output"]))
      (feedTo "runner_stdin" events "runner_stdin") (s.given ("runner_output", .main)) :=
    (Network.line_gives_iff (runner_line hline dataDir outputFile remap)
      (fun b hb => if_neg hb) hend).mp ⟨s, hsteps, hdrained, rfl⟩
  have hself : feedTo "runner_stdin" events "runner_stdin" = events := if_pos rfl
  have hin : "runner_stdin" ∉ [("vrl_test", transform)].map Prod.fst := by simp
  have hout : "runner_output" ∉ [("vrl_test", transform)].map Prod.fst := by simp
  rw [hself, Network.through_cons_kept (hkept _ hin),
    Network.through_snoc_kept (hkept _ hout)] at hthrough
  obtain ⟨_, hgives, hgiven⟩ := hthrough
  rw [hsame] at hgives
  obtain ⟨outs, houts, htogether⟩ := Network.emits_of_gives hgives
  refine ⟨outs, houts.imp ?_, hgiven.trans htogether⟩
  rintro event out ⟨given, hget, hremap⟩
  cases hget
  exact hremap

/-- A program tested in a Vector that ends well is reported with what its transform gives for
each log, and of each expected field, whether any of that has it. -/
theorem simple_test_reports [FloatTexts] {vector : VectorConfig → List Char → VectorRun}
    {reads : String → JsonObject → Prop} (hruns : VectorRuns vector remap reads)
    {installed : Installed} (hfound : installed.found) (vrlCode : String)
    {inputLogs : List String} (hlogs : ∀ log ∈ inputLogs, '\n' ∉ log.toList)
    {stderr : List Char}
    (hexit : (vector (vectorConfig [("vrl_test", testedTransform vrlCode)] dataDir outputFile)
      (stdinText inputLogs)).completed = .exited 0 stderr) (expectedFields : List String) :
    ∃ events outs, List.Forall₂ reads inputLogs events ∧
      List.Forall₂ (remap (testedTransform vrlCode)) events outs ∧
      ((∀ object ∈ Network.together outs .main, object.Unbroken) →
        ∃ report, testVrlSimple installed vector vrlCode inputLogs (some expectedFields) dataDir
            outputFile = .ok report ∧
          report.success ∧ report.inputCount = events.length ∧
          report.results = (Network.together outs .main).map (fun object => pyValue object.value) ∧
          report.outputCount = (Network.together outs .main).length ∧
          (expectedFields ≠ [] → ∃ validation, report.fieldValidation = some validation ∧
            FieldsExact (Network.together outs .main) expectedFields validation)) := by
  have hchain : ([("vrl_test", testedTransform vrlCode)].map Prod.fst).Nodup :=
    List.nodup_singleton _
  have hconfig : (vectorConfig [("vrl_test", testedTransform vrlCode)] dataDir
      outputFile).ids.Nodup := by
    rw [config_ids hchain]
    simp [VectorConfig.line]
  obtain ⟨events, s, hreads, hsteps, hdrained, houtput⟩ :=
    hruns.drained _ _ stderr "runner_stdin" "runner_output" _ hconfig rfl rfl rfl rfl hexit
  rw [lines_back hlogs] at hreads
  obtain ⟨outs, houts, hgiven⟩ := tested_gives hruns.wiring _ hsteps hdrained
  rw [hgiven] at houtput
  refine ⟨events, outs, hreads, houts, ?_⟩
  intro hunbroken
  have hrun : testVrlWithVector vector vrlCode inputLogs dataDir outputFile =
      .ok (true, (Network.together outs .main).map (fun object => pyValue object.value),
        " | ".intercalate (problems 0 stderr [])) :=
    run_gives hexit houtput hunbroken "60.0"
  obtain ⟨report, hreport, hsuccess, hcount, hresults, hout, hfields⟩ :=
    report_exact vrlCode inputLogs expectedFields true (Network.together outs .main)
      (" | ".intercalate (problems 0 stderr []))
  refine ⟨report, ?_, hsuccess, hcount.trans hreads.length_eq, hresults, hout, hfields⟩
  rw [testVrlSimple, hfound, hrun]
  change (testReport _ _ _ _).mapError TestError.fields = _
  rw [Option.getD_some, hreport]
  rfl

end

section
local instance : FloatTexts := Runner.plainFloats

/-- Of the fields looked for in what a test of `.` gives for two logs, one is found and one is
missing. -/
theorem two_logs_reported :
    ∃ events outs, List.Forall₂ readMessage ["up", "down"] events ∧
      List.Forall₂ (passOn (testedTransform ".")) events outs ∧
      ((∀ object ∈ Network.together outs .main, object.Unbroken) →
        ∃ report, testVrlSimple ⟨true, "vector", true⟩ passingVector "." ["up", "down"]
            (some ["message", "host"]) "" "" = .ok report ∧
          report.success ∧ report.inputCount = events.length ∧
          report.results = (Network.together outs .main).map (fun object => pyValue object.value) ∧
          report.outputCount = (Network.together outs .main).length ∧
          (["message", "host"] ≠ [] → ∃ validation, report.fieldValidation = some validation ∧
            FieldsExact (Network.together outs .main) ["message", "host"] validation)) :=
  @simple_test_reports passOn "" "" _ passingVector readMessage passing_runs ⟨true, "vector", true⟩
    rfl "." ["up", "down"] (by decide) [] rfl ["message", "host"]

end

end VectorVrl.Proofs.SimpleTest
