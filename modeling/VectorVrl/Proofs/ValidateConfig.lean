import VectorVrl.Proofs.ConfigCheck
import VectorVrl.ValidateConfig

namespace VectorVrl.Proofs.ValidateConfig
open Lib.OrderedDict Lib.Lines Proofs.ConfigCheck

/-- A line that misses a table names no function. -/
theorem table_names_none {line : List Char} (h : unknownTable line = true) :
    undefinedFunction line = none := by
  simp only [unknownTable, decide_eq_true_eq] at h
  obtain ⟨rest, rfl⟩ := h
  have hnot : ¬undefinedPrefix.toList <+: unknownTablePrefix.toList ++ rest := by
    intro hprefix
    obtain ⟨more, hmore⟩ := hprefix
    have hhead := congrArg List.head? hmore
    revert hhead
    simp [undefinedPrefix, unknownTablePrefix]
  exact if_neg hnot

/-- What the loop has gathered at its end: each function left out once, and
whether some line misses a table. -/
theorem excuse_gathers {lines : List (List Char)} {leftOut found : List String}
    {unregistered missing : Bool}
    (h : excuse lines leftOut unregistered = some (found, missing)) (hnodup : leftOut.Nodup) :
    found.Nodup ∧
    (∀ name, name ∈ found ↔ name ∈ leftOut ∨
      (name ∈ sandboxed ∧ ∃ line ∈ lines, undefinedFunction line = some name)) ∧
    missing = (unregistered || lines.any unknownTable) := by
  induction lines generalizing leftOut unregistered with
  | nil =>
    rw [excuse, Option.some.injEq, Prod.mk.injEq] at h
    obtain ⟨rfl, rfl⟩ := h
    simp [hnodup]
  | cons line rest ih =>
    rw [excuse] at h
    split at h
    · rename_i name hname
      obtain ⟨hline, hsandboxed⟩ := Option.filter_eq_some_iff.mp hname
      have hsandboxed := of_decide_eq_true hsandboxed
      have htable : unknownTable line = false := by
        rw [← Bool.not_eq_true]
        intro htable
        rw [table_names_none htable] at hline
        cases hline
      have hadd : (if name ∈ leftOut then leftOut else leftOut ++ [name]).Nodup := by
        split
        · exact hnodup
        · rename_i hnew
          exact List.nodup_append.mpr ⟨hnodup, List.nodup_singleton name, by
            intro a ha b hb
            rw [List.mem_singleton] at hb
            rintro rfl
            exact hnew (hb ▸ ha)⟩
      have hmem : ∀ other, other ∈ (if name ∈ leftOut then leftOut else leftOut ++ [name]) ↔
          other ∈ leftOut ∨ other = name := by
        intro other
        split
        · rename_i hold
          exact ⟨Or.inl, fun h => h.elim id fun heq => heq ▸ hold⟩
        · simp
      obtain ⟨hfound, hnames, hmissing⟩ := ih h hadd
      refine ⟨hfound, ?_, by rw [hmissing, List.any_cons, htable, Bool.false_or]⟩
      intro other
      rw [hnames, hmem, List.exists_mem_cons_iff, hline, Option.some.injEq]
      constructor
      · intro hsome
        rcases hsome with (hold | rfl) | ⟨hs, hrest⟩
        · exact Or.inl hold
        · exact Or.inr ⟨hsandboxed, Or.inl rfl⟩
        · exact Or.inr ⟨hs, Or.inr hrest⟩
      · intro hsome
        rcases hsome with hold | ⟨hs, rfl | hrest⟩
        · exact Or.inl (Or.inl hold)
        · exact Or.inl (Or.inr rfl)
        · exact Or.inr ⟨hs, hrest⟩
    · split at h
      · rename_i htable
        obtain ⟨hfound, hnames, hmissing⟩ := ih h hnodup
        refine ⟨hfound, ?_, by simp [hmissing, htable]⟩
        intro other
        rw [hnames, List.exists_mem_cons_iff, table_names_none htable]
        simp
      · cases h

/-- Where a source names neither of the enrichment functions, the reason names both. -/
theorem names_used (vrl : String) :
    ∃ used, NamesUsed vrl used ∧ unregisteredReason vrl =
      "uses " ++ ", ".intercalate used ++ " against an enrichment table this process has not registered - Vector declares its tables in its own config; call register_enrichment_table to have this checked" := by
  let named := enrichmentFunctions.filter fun fn => fn.toList <:+: vrl.toList
  have hmem : ∀ fn ∈ enrichmentFunctions, fn ∈ named ↔ fn.toList <:+: vrl.toList := by
    intro fn hfn
    simp [named, hfn]
  refine ⟨if named = [] then enrichmentFunctions else named, ⟨?_, ?_⟩, ?_⟩
  · split
    · exact List.Sublist.refl _
    · exact List.filter_sublist
  · intro fn hfn
    split
    · rename_i hnone
      refine iff_of_true hfn (Or.inr ?_)
      intro other hother
      rw [← hmem other hother, hnone]
      exact List.not_mem_nil
    · rename_i hsome
      obtain ⟨other, hother⟩ := List.exists_mem_of_ne_nil named hsome
      have hin : other ∈ enrichmentFunctions := (List.mem_filter.mp hother).1
      rw [hmem fn hfn]
      refine ⟨Or.inl, fun h => h.resolve_right ?_⟩
      exact fun hnone => hnone other hin ((hmem other hin).mp hother)
  · rfl

/-- The reason for an error lists what its lines left out, each function once. -/
theorem reason_lists {vrl error reason : String}
    (h : uncompilableReason vrl (some error) = some reason) : Reason vrl error reason := by
  rw [uncompilableReason] at h
  split at h
  · cases h
  · cases he : excuse (splitLines error.toList) [] false with
    | none => simp [he] at h
    | some gathered =>
      obtain ⟨names, missing⟩ := gathered
      simp only [he] at h
      obtain ⟨_, h⟩ := Option.ite_none_left_eq_some.mp h
      obtain ⟨hnodup, hnames, hmissing⟩ := excuse_gathers he List.nodup_nil
      obtain ⟨used, hused, hwords⟩ := names_used vrl
      refine ⟨used, names, hused, ⟨hnodup, ?_⟩, ?_⟩
      · intro name
        rw [hnames]
        simp
      · rw [Bool.false_or] at hmissing
        rw [← hmissing, ← hwords]
        exact (Option.some.inj h).symm

theorem check_verdict (validate : String → Except String Unit) {name vrl : String}
    (remap : Remap) (hname : remap.name = name) (hsource : remap.source = some vrl) :
    Verdict validate remap (checkTransform name vrl (validate vrl)) := by
  cases hv : validate vrl with
  | ok u =>
    refine ⟨hname.symm, vrl, hsource, Or.inl ⟨hv, rfl, rfl, rfl⟩⟩
  | error error =>
    refine ⟨hname.symm, vrl, hsource, Or.inr ⟨error, hv, ?_⟩⟩
    cases hreason : uncompilableReason vrl (some error) with
    | none =>
      left
      simp [checkTransform, hreason, TransformCheck.Failed]
    | some reason =>
      right
      refine ⟨reason, ?_, reason_lists hreason⟩
      simp [checkTransform, hreason, TransformCheck.Unchecked]

theorem one_shape {validate : String → Except String Unit} {remap : Remap}
    {check : TransformCheck} (h : Verdict validate remap check) : check.OneShape := by
  obtain ⟨_, vrl, _, ⟨_, hpassed⟩ | ⟨error, _, hfailed | ⟨reason, hunchecked, _⟩⟩⟩ := h
  · have hok := hpassed.1
    have hreason := hpassed.2.2
    refine Or.inl ⟨hpassed, ?_, ?_⟩
    · intro error hfailed
      simp [TransformCheck.Failed, hok] at hfailed
    · intro reason hunchecked
      simp [TransformCheck.Unchecked, hreason] at hunchecked
  · have hok := hfailed.1
    refine Or.inr (Or.inl ⟨?_, ⟨error, hfailed⟩, ?_⟩)
    · intro hpassed
      simp [TransformCheck.Passed, hok] at hpassed
    · intro reason hunchecked
      simp [TransformCheck.Unchecked, hok] at hunchecked
  · have hok := hunchecked.1
    have hreason := hunchecked.2.2
    refine Or.inr (Or.inr ⟨?_, ?_, reason, hunchecked⟩)
    · intro hpassed
      simp [TransformCheck.Passed, hreason] at hpassed
    · intro error hfailed
      simp [TransformCheck.Failed, hok] at hfailed

/-- A check that did not pass gives no reason. -/
theorem failed_has_no_reason {check : TransformCheck} (h : check.OneShape)
    (hok : check.ok = false) : check.uncheckedReason = none := by
  rcases h with ⟨⟨hpassed, _⟩, _⟩ | ⟨_, ⟨_, hfailed⟩, _⟩ | ⟨_, _, _, hunchecked, _⟩
  · rw [hok] at hpassed
    cases hpassed
  · exact hfailed.2.2
  · rw [hok] at hunchecked
    cases hunchecked

theorem summary_facts (checked : List TransformCheck) (skipped : List String)
    (h : ∀ check ∈ checked, check.OneShape) :
    let report : ConfigCheck := ⟨checked.all (·.ok), checked, skipped⟩
    report.failures.Disjoint report.unchecked ∧ (report.ok = true ↔ report.failures = []) := by
  refine ⟨?_, ?_⟩
  · intro check hfailed hunchecked
    rw [ConfigCheck.failures, List.mem_filter, Bool.not_eq_true'] at hfailed
    have hnone := failed_has_no_reason (h check hfailed.1) hfailed.2
    rw [ConfigCheck.unchecked, List.mem_filter, hnone] at hunchecked
    cases hunchecked.2
  · rw [ConfigCheck.failures, List.filter_eq_nil_iff, List.all_eq_true]
    simp

/-- The checks a remap leads to: one if it has a source. -/
def checksOf (validate : String → Except String Unit) (remap : Remap) : List TransformCheck :=
  remap.source.toList.map fun vrl => checkTransform remap.name vrl (validate vrl)

theorem checks_verdicts (validate : String → Except String Unit) (remaps : List Remap) :
    List.Forall₂ (Verdict validate) (remaps.filter (·.source.isSome))
      (remaps.flatMap (checksOf validate)) := by
  induction remaps with
  | nil => exact .nil
  | cons remap rest ih =>
    rw [List.flatMap_cons, checksOf]
    cases hsource : remap.source with
    | none =>
      rw [List.filter_cons_of_neg (by simp [hsource])]
      exact ih
    | some vrl =>
      rw [List.filter_cons_of_pos (by simp [hsource])]
      exact .cons (check_verdict validate remap rfl hsource) ih

theorem verdict_names {validate : String → Except String Unit} {remaps : List Remap}
    {checked : List TransformCheck} (h : List.Forall₂ (Verdict validate) remaps checked) :
    checked.map TransformCheck.name = remaps.map Remap.name := by
  induction h with
  | nil => rfl
  | cons hverdict _ ih => rw [List.map_cons, List.map_cons, hverdict.1, ih]

theorem verdict_shapes {validate : String → Except String Unit} {remaps : List Remap}
    {checked : List TransformCheck} (h : List.Forall₂ (Verdict validate) remaps checked) :
    ∀ check ∈ checked, check.OneShape := by
  induction h with
  | nil => simp
  | cons hverdict _ ih =>
    rw [List.forall_mem_cons]
    exact ⟨one_shape hverdict, ih⟩

/-- The names a report lists, by whether the remap has a source. -/
theorem names_covered (remaps : List Remap) :
    ((remaps.filter (·.source.isNone)).map Remap.name ++
      (remaps.filter (·.source.isSome)).map Remap.name).Perm (remaps.map Remap.name) := by
  have hperm := List.filter_append_perm (fun remap : Remap => remap.source.isNone) remaps
  have hsome : (fun remap : Remap => !remap.source.isNone) = fun remap => remap.source.isSome := by
    funext remap
    cases remap.source <;> rfl
  rw [hsome] at hperm
  rw [← List.map_append]
  exact hperm.map Remap.name

theorem report_accounts {validate : String → Except String Unit} {remaps : List Remap}
    {checked : List TransformCheck} (hdistinct : (remaps.map Remap.name).Nodup)
    (h : List.Forall₂ (Verdict validate) (remaps.filter (·.source.isSome)) checked) :
    Accounts validate remaps
      ⟨checked.all (·.ok), checked, (remaps.filter (·.source.isNone)).map Remap.name⟩ := by
  have hcovered := names_covered remaps
  have hshape := verdict_shapes h
  have hsummary :=
    summary_facts checked ((remaps.filter (·.source.isNone)).map Remap.name) hshape
  rw [← verdict_names h] at hcovered
  constructor
  · rfl
  · exact h
  · exact hcovered
  · exact hcovered.nodup_iff.mpr hdistinct
  · exact hshape
  · exact List.filter_sublist
  · exact List.filter_sublist
  · exact hsummary.1
  · exact hsummary.2

theorem falsy_no_items {v : PyVal} {found : Dict String PyVal} (h : v.truthy = false)
    (hdict : v.asDict = some found) : found.items = [] := by
  cases v with
  | dict keys distinct value =>
    simp only [PyVal.truthy, ne_eq, decide_not, Bool.not_eq_false', decide_eq_true_eq] at h
    subst h
    cases hdict
    rfl
  | _ => cases hdict

section
variable [PyText] (validate : String → Except String Unit)

/-- What the loop adds for an entry. -/
theorem check_entry_adds (report : List TransformCheck × List String) (entry : String × PyVal) :
    checkEntry validate report entry =
      (report.1 ++ (remapOf entry).toList.flatMap (checksOf validate),
        report.2 ++ ((remapOf entry).toList.filter (·.source.isNone)).map Remap.name) := by
  unfold checkEntry remapOf
  cases entry.2.asDict with
  | none => simp
  | some transform =>
    cases hkind : isRemap transform with
    | false => simp [Option.filter, hkind]
    | true =>
      cases hsource : (transform.get? "source").getD .none <;>
        simp [Option.filter, hkind, sourceOf, hsource, checksOf]

theorem loop_adds (entries : List (String × PyVal)) (report : List TransformCheck × List String) :
    entries.foldl (checkEntry validate) report =
      (report.1 ++ (entries.filterMap remapOf).flatMap (checksOf validate),
        report.2 ++ ((entries.filterMap remapOf).filter (·.source.isNone)).map Remap.name) := by
  induction entries generalizing report with
  | nil => simp
  | cons entry rest ih =>
    rw [List.foldl_cons, check_entry_adds, ih]
    cases hremap : remapOf entry with
    | none => simp [hremap]
    | some remap => cases hsource : remap.source <;> simp [hremap, hsource]

theorem remap_name {entry : String × PyVal} {remap : Remap} (h : remapOf entry = some remap) :
    remap.name = entry.1 := by
  obtain ⟨transform, _, rfl⟩ := Option.map_eq_some_iff.mp h
  rfl

theorem remap_names_sublist (entries : List (String × PyVal)) :
    ((entries.filterMap remapOf).map Remap.name).Sublist (entries.map Prod.fst) := by
  induction entries with
  | nil => exact .slnil
  | cons entry rest ih =>
    cases hremap : remapOf entry with
    | none =>
      rw [List.filterMap_cons_none hremap]
      exact ih.cons _
    | some remap =>
      rw [List.filterMap_cons_some hremap, List.map_cons, List.map_cons, remap_name hremap]
      exact ih.cons_cons _

theorem remaps_distinct (config : Dict String PyVal) :
    ((remaps config).map Remap.name).Nodup := by
  unfold remaps
  split
  · exact List.nodup_nil
  · rename_i found _
    exact found.distinct.sublist (remap_names_sublist found.items)

/-- The transforms the loop goes through are those the config's remaps are among. -/
theorem remaps_of_found {config transforms : Dict String PyVal}
    (h : (if ((config.get? "transforms").getD .none).truthy then
      ((config.get? "transforms").getD .none).asDict else some .empty) = some transforms) :
    remaps config = transforms.items.filterMap remapOf := by
  unfold remaps
  cases hget : config.get? "transforms" with
  | none =>
    rw [hget] at h
    cases h
    rfl
  | some v =>
    rw [hget, Option.getD_some] at h
    rw [Option.bind_some]
    cases htruthy : v.truthy with
    | true =>
      rw [htruthy, if_pos rfl] at h
      rw [h]
    | false =>
      rw [htruthy] at h
      cases h
      cases hdict : v.asDict with
      | none => rfl
      | some found => simp only [falsy_no_items htruthy hdict, List.filterMap_nil, Dict.empty]

/-- The check of a config accounts for every remap of it once, whatever its
sources compile to; it refuses a config only for transforms that are no mapping. -/
theorem config_accounted (config : Dict String PyVal) :
    (∀ report, validateConfig validate config = .ok report →
      Accounts validate (remaps config) report) ∧
    ((∃ e, validateConfig validate config = .error e) ↔
      ((config.get? "transforms").getD .none).truthy = true ∧
        ((config.get? "transforms").getD .none).asDict = none) := by
  have hdistinct := remaps_distinct config
  cases hfound : if ((config.get? "transforms").getD .none).truthy then
      ((config.get? "transforms").getD .none).asDict else some .empty with
  | none =>
    have hrefused : ∃ e, validateConfig validate config = .error e := by
      simp only [validateConfig, hfound]
      exact ⟨_, rfl⟩
    obtain ⟨e, he⟩ := hrefused
    refine ⟨fun report h => ?_, fun _ => ?_, fun _ => ⟨e, he⟩⟩
    · rw [he] at h
      cases h
    · split at hfound
      · rename_i htruthy
        exact ⟨htruthy, hfound⟩
      · cases hfound
  | some transforms =>
    have hremaps := remaps_of_found hfound
    have hreport : validateConfig validate config =
        .ok ⟨((remaps config).flatMap (checksOf validate)).all (·.ok),
          (remaps config).flatMap (checksOf validate),
          ((remaps config).filter (·.source.isNone)).map Remap.name⟩ := by
      simp only [validateConfig, hfound, loop_adds, hremaps, List.nil_append]
    refine ⟨fun report h => ?_, ?_⟩
    · rw [hreport] at h
      cases h
      exact report_accounts hdistinct (checks_verdicts validate _)
    · rw [hreport]
      constructor
      · intro hsome
        obtain ⟨e, he⟩ := hsome
        cases he
      · intro hrefused
        obtain ⟨htruthy, hnone⟩ := hrefused
        rw [if_pos htruthy, hnone] at hfound
        cases hfound

end

end VectorVrl.Proofs.ValidateConfig
