import VectorVrl.Proofs.Outcome
import VectorVrl.Proofs.VectorConfig
import VectorVrl.Proofs.ValidateConfig

namespace VectorVrl.Proofs.ChainCheck
open Lib.Collect Lib.OrderedDict RemapChain ValidateConfig Proofs.VectorConfig

/-- What `validate_config` reads off the result of `validate_vrl`. -/
def validateSource (compile : Compiler) (source : String) : Except String Unit :=
  let result := validateVrl compile source
  if result.success then .ok () else .error (result.error.getD "")

theorem validate_source (compile : Compiler) (source : String) :
    validateSource compile source = (compileVrlProgram compile source).map fun _ => () := by
  rw [validateSource, validateVrl]
  cases compileVrlProgram compile source <;> rfl

/-- A stage with the program it has inline. -/
def Stage (chain : List (String × Transform)) (name source : String) : Prop :=
  ∃ transform, (name, transform) ∈ chain ∧ transform.get? "source" = some (.str source)

theorem check_name (name source : String) (result : Except String Unit) :
    (checkTransform name source result).name = name := by
  cases result <;> rfl

/-- A check tells by itself whether its source compiles. -/
theorem check_passed_iff {name source : String} {result : Except String Unit} :
    ((checkTransform name source result).ok = true ∧
      (checkTransform name source result).uncheckedReason = none) ↔ result = .ok () := by
  cases result with
  | ok u => simp [checkTransform]
  | error error =>
    cases hreason : uncompilableReason source (some error) <;> simp [checkTransform, hreason]

theorem check_failed_iff {name source : String} {result : Except String Unit} :
    (checkTransform name source result).ok = false ↔
      ∃ error, result = .error error ∧ uncompilableReason source (some error) = none := by
  cases result with
  | ok u => simp [checkTransform]
  | error error =>
    cases hreason : uncompilableReason source (some error) <;> simp [checkTransform, hreason]

theorem validate_ok_iff {compile : Compiler} {source : String} :
    validateSource compile source = .ok () ↔
      ∃ program, compileVrlProgram compile source = .ok program := by
  rw [validate_source]
  cases compileVrlProgram compile source <;> simp [Except.map]

theorem validate_error_iff {compile : Compiler} {source error : String} :
    validateSource compile source = .error error ↔
      compileVrlProgram compile source = .error error := by
  rw [validate_source]
  cases compileVrlProgram compile source <;> simp [Except.map]

/-- A report passes everything exactly when each of its checks does. -/
theorem report_passed_iff {checked : List TransformCheck} :
    (checked.all (·.ok) = true ∧ (⟨checked.all (·.ok), checked, []⟩ : ConfigCheck).unchecked = []) ↔
      ∀ check ∈ checked, check.ok = true ∧ check.uncheckedReason = none := by
  rw [ConfigCheck.unchecked, List.filter_eq_nil_iff, List.all_eq_true, ← forall₂_and]
  simp

section
variable [text : PyText]

/-- The remap that an inline remap is to the check. -/
theorem remap_of_inline {entry : String × PyVal} {given : String × Transform}
    (h : InlineRemap entry given) :
    ∃ source, given.2.get? "source" = some (.str source) ∧
      remapOf entry = some ⟨given.1, some source⟩ := by
  obtain ⟨hname, hdict, hremap, source, hsource⟩ := h
  refine ⟨source, hsource, ?_⟩
  rw [remapOf, hdict, Option.filter_some, hremap, if_pos rfl, Option.map_some, hname]
  simp only [sourceOf, hsource, Option.getD_some, text.str_text]

/-- The check made of a stage. -/
def Checked (validate : String → Except String Unit) (stage : String × Transform)
    (check : TransformCheck) : Prop :=
  ∃ source, stage.2.get? "source" = some (.str source) ∧
    check = checkTransform stage.1 source (validate source)

section
variable (validate : String → Except String Unit)

theorem inline_checked {entries : List (String × PyVal)} {given : List (String × Transform)}
    (h : List.Forall₂ InlineRemap entries given) :
    (entries.filterMap remapOf).filter (·.source.isNone) = [] ∧
      List.Forall₂ (Checked validate) given
        ((entries.filterMap remapOf).flatMap (checksOf validate)) := by
  induction h with
  | nil => exact ⟨rfl, .nil⟩
  | cons hentry _ ih =>
    obtain ⟨source, hsource, hremap⟩ := remap_of_inline hentry
    rw [List.filterMap_cons_some hremap, List.filter_cons_of_neg (by simp)]
    exact ⟨ih.1, .cons ⟨source, hsource, rfl⟩ ih.2⟩

/-- The check of a config of inline remaps leaves none out and checks each once. -/
theorem validate_inline {config : Dict String PyVal} {transforms : Dict String Transform}
    (h : InlineRemaps config transforms) :
    ∃ checked, validateConfig validate config = .ok ⟨checked.all (·.ok), checked, []⟩ ∧
      List.Forall₂ (Checked validate) transforms.items checked := by
  obtain ⟨found, hfound, hne, hinline⟩ := h
  obtain ⟨v, hget, hdict⟩ := Option.bind_eq_some_iff.mp hfound
  have htruthy : v.truthy = true := by
    rw [← Bool.not_eq_false]
    exact fun hfalsy => hne (falsy_no_items hfalsy hdict)
  obtain ⟨hnone, hchecked⟩ := inline_checked validate hinline
  refine ⟨_, ?_, hchecked⟩
  simp only [validateConfig, hget, Option.getD_some, htruthy, if_true, hdict, loop_adds, hnone,
    List.nil_append, List.map_nil]

end

/-- Where the runner takes a config as one chain, the check of that config leaves out none
of its stages and checks each once, on the program the stage will run. -/
theorem chain_is_checked [PyUnicode] {fuel : Nat} {config : Dict String PyVal}
    {chain : List (String × Transform)} (h : remapChain fuel config = some (.ok chain))
    (compile : Compiler) :
    ∃ report, validateConfig (validateSource compile) config = .ok report ∧
      report.skipped = [] ∧
      (report.checked.map TransformCheck.name).Perm (chain.map Prod.fst) ∧
      (∀ name, name ∈ chain.map Prod.fst → ∃ source, Stage chain name source) ∧
      (report.ok = true ∧ report.unchecked = [] ↔
        ∀ name source, Stage chain name source →
          ∃ program, compileVrlProgram compile source = .ok program) ∧
      ∀ name, name ∈ report.failures.map TransformCheck.name ↔
        ∃ source error, Stage chain name source ∧
          compileVrlProgram compile source = .error error ∧
          uncompilableReason source (some error) = none := by
  obtain ⟨transforms, hinline, hperm⟩ := remap_chain_accepted h
  obtain ⟨checked, hreport, hchecked⟩ := validate_inline (validateSource compile) hinline
  have hnames : checked.map TransformCheck.name = transforms.items.map Prod.fst := by
    rw [← List.forall₂_eq_eq_eq, List.forall₂_map_left_iff, List.forall₂_map_right_iff]
    refine hchecked.flip.imp ?_
    rintro check stage ⟨source, _, rfl⟩
    exact check_name _ _ _
  -- a stage of the chain and its check
  have hstage : ∀ name source, Stage chain name source →
      checkTransform name source (validateSource compile source) ∈ checked := by
    rintro name source ⟨transform, hmem, hsource⟩
    obtain ⟨check, hcheck, source', hsource', rfl⟩ := related_left hchecked (hperm.mem_iff.mp hmem)
    rw [hsource] at hsource'
    cases hsource'
    exact hcheck
  have hcheck : ∀ check ∈ checked, ∃ name source, Stage chain name source ∧
      check = checkTransform name source (validateSource compile source) := by
    intro check hmem
    obtain ⟨⟨name, transform⟩, hitem, source, hsource, rfl⟩ := related_right hchecked hmem
    exact ⟨name, source, ⟨transform, hperm.mem_iff.mpr hitem, hsource⟩, rfl⟩
  refine ⟨_, hreport, rfl, ?_, ?_, ?_, ?_⟩
  · rw [hnames]
    exact (hperm.map Prod.fst).symm
  · intro name hname
    obtain ⟨⟨_, transform⟩, hmem, rfl⟩ := List.mem_map.mp hname
    obtain ⟨_, _, source, hsource, _⟩ := related_left hchecked (hperm.mem_iff.mp hmem)
    exact ⟨source, transform, hmem, hsource⟩
  · rw [report_passed_iff]
    constructor
    · intro hall name source hin
      exact validate_ok_iff.mp (check_passed_iff.mp (hall _ (hstage name source hin)))
    · intro hall check hmem
      obtain ⟨name, source, hin, rfl⟩ := hcheck check hmem
      exact check_passed_iff.mpr (validate_ok_iff.mpr (hall name source hin))
  · intro name
    simp only [ConfigCheck.failures, List.mem_map, List.mem_filter, Bool.not_eq_true']
    constructor
    · rintro ⟨check, ⟨hmem, hok⟩, rfl⟩
      obtain ⟨name, source, hin, rfl⟩ := hcheck check hmem
      obtain ⟨error, herror, hreason⟩ := check_failed_iff.mp hok
      rw [check_name]
      exact ⟨source, error, hin, validate_error_iff.mp herror, hreason⟩
    · rintro ⟨source, error, hin, herror, hreason⟩
      refine ⟨_, ⟨hstage name source hin, ?_⟩, check_name _ _ _⟩
      exact check_failed_iff.mpr ⟨error, validate_error_iff.mpr herror, hreason⟩

end

section
local instance : PyUnicode := ⟨fun _ => true⟩
local instance : PyText := ⟨fun v => v.asStr.getD "", fun _ => rfl⟩

/-- A compiler that refuses a program with a number in it. -/
def refuseNumbers : Compiler := fun source =>
  if source.toList.any Char.isDigit then .error [⟨"unexpected literal", []⟩]
  else .ok Outcome.unchanged

theorem two_remaps_checked :
    ∃ report, validateConfig (validateSource refuseNumbers) twoRemaps = .ok report ∧
      report.skipped = [] ∧
      (report.checked.map TransformCheck.name).Perm (twoChain.map Prod.fst) ∧
      (∀ name, name ∈ twoChain.map Prod.fst → ∃ source, Stage twoChain name source) ∧
      (report.ok = true ∧ report.unchecked = [] ↔
        ∀ name source, Stage twoChain name source →
          ∃ program, compileVrlProgram refuseNumbers source = .ok program) ∧
      ∀ name, name ∈ report.failures.map TransformCheck.name ↔
        ∃ source error, Stage twoChain name source ∧
          compileVrlProgram refuseNumbers source = .error error ∧
          uncompilableReason source (some error) = none :=
  chain_is_checked (show remapChain 2 twoRemaps = some (.ok twoChain) from rfl) refuseNumbers

end

end VectorVrl.Proofs.ChainCheck
