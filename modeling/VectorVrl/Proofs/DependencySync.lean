import VectorVrl.DependencySync
import VectorVrl.Lib.InOrder
import VectorVrl.Proofs.Newlines

namespace VectorVrl.Proofs.DependencySync
open Lib.OrderedDict Lib.LineEdits Lib.InOrder Newlines

/-- A name that is all one word. -/
def isWord (dep : String) : Bool :=
  !dep.toList.isEmpty && dep.toList.all fun a => !pyIsSpace a && a ≠ '='

theorem word_iff {dep : String} :
    isWord dep = true ↔ dep.toList ≠ [] ∧ ∀ a ∈ dep.toList, pyIsSpace a = false ∧ a ≠ '=' := by
  simp [isWord]

theorem key_deps_words : ∀ dep ∈ keyDeps, isWord dep = true := by
  have hall : keyDeps.all isWord = true := by decide +kernel
  exact List.all_eq_true.mp hall

/-- The replacement of a dependency as the entry of its key. -/
def depEntry (dep : String) (hword : isWord dep = true) (version : Requirement) :
    Entry pyIsSpace '=' where
  key := dep.toList
  gap := [' ']
  value := replacementValue dep version
  key_ne := (word_iff.mp hword).1
  word := (word_iff.mp hword).2
  blanks a ha := by
    rw [List.mem_singleton.mp ha]
    rfl

theorem dep_entry_line {dep : String} (hword : isWord dep = true) (version : Requirement) :
    (depEntry dep hword version).line = replacement dep version := by
  rw [replacement, List.append_assoc]
  rfl

/-- The entry of a dependency that the workspace gives a version. -/
def entryOf (workspaceDeps : Dict String VectorDep) (dep : String) :
    Option (Entry pyIsSpace '=') :=
  if hword : isWord dep = true then
    ((workspaceDeps.get? dep).bind VectorDep.version).map (depEntry dep hword)
  else none

/-- The entries of a list of dependencies. -/
def entriesOf (workspaceDeps : Dict String VectorDep) (deps : List String) :
    List (Entry pyIsSpace '=') :=
  deps.filterMap (entryOf workspaceDeps)

section
variable {workspaceDeps : Dict String VectorDep} {deps : List String}

theorem mem_entries {e : Entry pyIsSpace '='} (h : e ∈ entriesOf workspaceDeps deps) :
    ∃ dep ∈ deps, ∃ version, (workspaceDeps.get? dep).bind VectorDep.version = some version ∧
      e.key = dep.toList ∧ e.line = replacement dep version := by
  obtain ⟨dep, hdep, he⟩ := List.mem_filterMap.mp h
  rw [entryOf] at he
  split at he
  · rename_i hword
    obtain ⟨version, hversion, rfl⟩ := Option.map_eq_some_iff.mp he
    exact ⟨dep, hdep, version, hversion, rfl, dep_entry_line hword version⟩
  · cases he

theorem entry_mem {dep : String} {version : Requirement} (hdep : dep ∈ keyDeps)
    (hversion : (workspaceDeps.get? dep).bind VectorDep.version = some version) :
    depEntry dep (key_deps_words dep hdep) version ∈ entriesOf workspaceDeps keyDeps := by
  refine List.mem_filterMap.mpr ⟨dep, hdep, ?_⟩
  rw [entryOf, dif_pos (key_deps_words dep hdep), hversion]
  rfl

theorem entries_agree (deps : List String) :
    Agree (entriesOf workspaceDeps deps) (entriesOf workspaceDeps deps) := by
  intro e he e' he' hkey
  obtain ⟨dep, _, version, hversion, hkey₁, hline⟩ := mem_entries he
  obtain ⟨dep', _, version', hversion', hkey₂, hline'⟩ := mem_entries he'
  obtain rfl : dep = dep' := String.toList_injective (hkey₁.symm.trans (hkey.trans hkey₂))
  rw [hversion, Option.some.injEq] at hversion'
  rw [hline, hline', hversion']

/-- The text is part of one line. -/
def OneLine (text : List Char) : Prop := ∀ c ∈ text, c ≠ '\n' ∧ c ≠ '\r'

theorem one_line_append {text text' : List Char} (h : OneLine text) (h' : OneLine text') :
    OneLine (text ++ text') :=
  List.forall_mem_append.mpr ⟨h, h'⟩

theorem one_lines {texts : List String}
    (h : (texts.all fun text => text.toList.all fun c => c ≠ '\n' && c ≠ '\r') = true) :
    ∀ text ∈ texts, OneLine text.toList := by
  intro text htext c hc
  have hplain := List.all_eq_true.mp (List.all_eq_true.mp h text htext) c hc
  simpa using hplain

theorem texts_one_line (dep : String) (hdep : dep ∈ keyDeps) :
    OneLine dep.toList ∧ OneLine (necessaryFeatures dep).toList := by
  have hnames : ∀ text ∈ keyDeps, OneLine text.toList := one_lines (by decide +kernel)
  have hfeatures : ∀ text ∈ keyDeps.map necessaryFeatures, OneLine text.toList :=
    one_lines (by decide +kernel)
  exact ⟨hnames dep hdep, hfeatures _ (List.mem_map_of_mem hdep)⟩

theorem literals_one_line :
    ∀ text ∈ [" =", " \x7b version = \"", "\", default-features = false", " \x7d"],
      OneLine text.toList :=
  one_lines (by decide +kernel)

/-- A replacement is one line. -/
theorem replacement_one_line {dep : String} (hdep : dep ∈ keyDeps) (version : Requirement) :
    OneLine (replacement dep version) := by
  obtain ⟨hname, hfeatures⟩ := texts_one_line dep hdep
  have hversion : OneLine version.text := fun c hc => (version.plain c hc).2
  have hliteral := literals_one_line
  rw [List.forall_mem_cons, List.forall_mem_cons, List.forall_mem_cons,
    List.forall_mem_singleton] at hliteral
  obtain ⟨hequals, hopen, hdefault, hclose⟩ := hliteral
  exact one_line_append (one_line_append hname hequals) (one_line_append (one_line_append
    (one_line_append (one_line_append hopen hversion) hdefault) hfeatures) hclose)

/-- One substitution is a pass over the lines. -/
theorem sub_dep_lines {dep : String} (hword : isWord dep = true) (version : Requirement)
    {lines : List (List Char)} (hne : lines ≠ []) (hlines : ∀ line ∈ lines, OneLine line) :
    subDep dep (replacement dep version) (['\n'].intercalate lines) =
      ['\n'].intercalate (passFrom (setKeys [depEntry dep hword version]) 0 lines) := by
  have hset : setKeys [depEntry dep hword version] =
      fun lines => (sets pyIsSpace '=' dep.toList lines).map fun more =>
        (replacement dep version, more) := by
    funext lines
    rw [← dep_entry_line hword version, setKeys, List.findSome?_singleton]
    rfl
  have hbreak : ∀ line ∈ lines, '\n' ∉ line := fun line hline hin => (hlines line hline _ hin).1 rfl
  rw [subDep, hset, List.splitOn_intercalate _ hbreak hne]

theorem pass_one_line {e : Entry pyIsSpace '='} (he : OneLine e.line) {lines : List (List Char)}
    (hlines : ∀ line ∈ lines, OneLine line) :
    ∀ line ∈ passFrom (setKeys [e]) 0 lines, OneLine line := by
  intro line hline
  rcases mem_pass hline with h | ⟨e', he', rfl⟩
  · exact hlines line h
  · rw [List.mem_singleton.mp he']
    exact he

/-- The loop over the dependencies is one pass for each that has a version. -/
theorem updates_lines (hdeps : deps ⊆ keyDeps) {lines : List (List Char)} (hne : lines ≠ [])
    (hlines : ∀ line ∈ lines, OneLine line) :
    deps.foldl (fun content dep =>
        match (workspaceDeps.get? dep).bind VectorDep.version with
        | none => content
        | some version => subDep dep (replacement dep version) content)
      (['\n'].intercalate lines) =
    ['\n'].intercalate ((entriesOf workspaceDeps deps).foldl
      (fun lines e => passFrom (setKeys [e]) 0 lines) lines) := by
  induction deps generalizing lines with
  | nil => rfl
  | cons dep deps ih =>
    obtain ⟨hdep, hrest⟩ := List.cons_subset.mp hdeps
    have hword := key_deps_words dep hdep
    rw [List.foldl_cons, entriesOf]
    cases hversion : (workspaceDeps.get? dep).bind VectorDep.version with
    | none =>
      rw [List.filterMap_cons_none (by rw [entryOf, dif_pos hword, hversion]; rfl)]
      exact ih hrest hne hlines
    | some version =>
      have hline : OneLine (depEntry dep hword version).line := by
        rw [dep_entry_line]
        exact replacement_one_line hdep version
      rw [List.filterMap_cons_some (by rw [entryOf, dif_pos hword, hversion]; rfl),
        List.foldl_cons]
      simp only
      rw [sub_dep_lines hword version hne hlines]
      exact ih hrest (pass_ne hne) (pass_one_line hline hlines)

/-- The loop is one pass over the lines. -/
theorem updated_lines (workspaceDeps : Dict String VectorDep) {content : List Char}
    (hreturn : '\r' ∉ content) :
    let lines := passFrom (setKeys (entriesOf workspaceDeps keyDeps)) 0 (content.splitOn '\n')
    updatedContent workspaceDeps content = ['\n'].intercalate lines ∧
      ∀ line ∈ lines, OneLine line := by
  have hlines : ∀ line ∈ content.splitOn '\n', OneLine line := by
    intro line hline c hc
    obtain ⟨hbreak, hinfix⟩ := split_part content hline
    exact ⟨fun h => hbreak (h ▸ hc), fun h => hreturn (h ▸ hinfix.subset hc)⟩
  constructor
  · rw [← passes_pass rfl (entries_agree keyDeps),
      ← updates_lines (List.Subset.refl _) (List.splitOn_ne_nil _ _) hlines,
      List.intercalate_splitOn]
    rfl
  · intro line hline
    rcases mem_pass hline with h | ⟨e, he, rfl⟩
    · exact hlines line h
    · obtain ⟨dep, hdep, version, _, _, hline⟩ := mem_entries he
      rw [hline]
      exact replacement_one_line hdep version

theorem join_no_return {lines : List (List Char)} (h : ∀ line ∈ lines, OneLine line) :
    '\r' ∉ ['\n'].intercalate lines := by
  induction lines with
  | nil => exact List.not_mem_nil
  | cons line rest ih =>
    rw [List.forall_mem_cons] at h
    have hline : '\r' ∉ line := fun hin => (h.1 _ hin).2 rfl
    cases rest with
    | nil => rwa [List.intercalate_singleton]
    | cons next rest =>
      rw [List.intercalate_cons_cons, List.mem_append, List.mem_append, not_or, not_or]
      exact ⟨⟨hline, by decide⟩, ih h.2⟩

/-- The lines of an updated manifest. -/
theorem lines_updated (workspaceDeps : Dict String VectorDep) (content : List Char) :
    manifestLines (updatedContent workspaceDeps (universalNewlines content)) =
      passFrom (setKeys (entriesOf workspaceDeps keyDeps)) 0 (manifestLines content) := by
  obtain ⟨hupdated, hlines⟩ := updated_lines workspaceDeps (newlines_no_return content)
  rw [manifestLines, hupdated, newlines_kept (join_no_return hlines)]
  exact List.splitOn_intercalate _ (fun line hline hin => (hlines line hline _ hin).1 rfl)
    (pass_ne (List.splitOn_ne_nil _ _))

/-- Updating again changes nothing. -/
theorem updated_twice (workspaceDeps : Dict String VectorDep) (content : List Char) :
    let after := updatedContent workspaceDeps (universalNewlines content)
    updatedContent workspaceDeps (universalNewlines after) = after := by
  obtain ⟨hupdated, hlines⟩ := updated_lines workspaceDeps (newlines_no_return content)
  have hreturn : '\r' ∉ updatedContent workspaceDeps (universalNewlines content) := by
    rw [hupdated]
    exact join_no_return hlines
  have hsplit := lines_updated workspaceDeps content
  rw [manifestLines, newlines_kept hreturn] at hsplit
  simp only
  rw [newlines_kept hreturn, (updated_lines workspaceDeps hreturn).1, hsplit,
    pass_twice rfl (entries_agree keyDeps)]
  exact hupdated.symm

end

section
variable {vectorCargo : VectorCargo}

theorem vector_version_iff {workspaceDeps : Dict String VectorDep} {dep : String}
    {version : Requirement} :
    vectorVersion (.workspace workspaceDeps) dep = some version ↔
      dep ∈ keyDeps ∧ (workspaceDeps.get? dep).bind VectorDep.version = some version := by
  rw [vectorVersion]
  split
  · rename_i hdep
    exact (and_iff_right hdep).symm
  · rename_i hdep
    exact iff_of_false (fun h => nomatch h) fun h => hdep h.1

/-- How the pass reads that lines set a dependency. -/
theorem sets_dep_iff {dep : String} (hdep : dep ∈ keyDeps) {lines : List (List Char)}
    (hlines : ∀ line ∈ lines, '\n' ∉ line) {more : Nat} :
    sets pyIsSpace '=' dep.toList lines = some more ↔ SetsDep dep lines more := by
  have hname : '\n' ∉ dep.toList := fun h => ((texts_one_line dep hdep).1 _ h).1 rfl
  rw [sets_iff rfl rfl hlines hname]
  constructor
  · rintro ⟨text, htext, gap, value, rfl, hgap, hcount⟩
    exact ⟨gap, value, htext, hgap, hcount⟩
  · rintro ⟨gap, value, htext, hgap, hcount⟩
    exact ⟨_, htext, gap, value, rfl, hgap, hcount⟩

/-- The pass revises what it does not skip. -/
theorem pass_revises (workspaceDeps : Dict String VectorDep) (skip : Nat)
    {lines : List (List Char)} (hlines : ∀ line ∈ lines, '\n' ∉ line) :
    Revised (.workspace workspaceDeps) (lines.drop skip)
      (passFrom (setKeys (entriesOf workspaceDeps keyDeps)) skip lines) := by
  induction lines generalizing skip with
  | nil =>
    rw [List.drop_nil]
    cases skip <;> exact .nil
  | cons line rest ih =>
    have hrest := (List.forall_mem_cons.mp hlines).2
    cases skip with
    | succ skip => exact ih skip hrest
    | zero =>
      cases hset : setKeys (entriesOf workspaceDeps keyDeps) (line :: rest) with
      | some edit =>
        obtain ⟨new, more⟩ := edit
        obtain ⟨e, he, rfl, hsets⟩ := set_keys_some hset
        obtain ⟨dep, hdep, version, hversion, hkey, hline⟩ := mem_entries he
        rw [hkey, sets_dep_iff hdep hlines] at hsets
        rw [pass_some hset, hline]
        exact .set (vector_version_iff.mpr ⟨hdep, hversion⟩) hsets (ih more hrest)
      | none =>
        rw [pass_none hset]
        refine .kept (fun dep version more h hsets => ?_) (ih 0 hrest)
        obtain ⟨hdep, hversion⟩ := vector_version_iff.mp h
        have hnone := List.findSome?_eq_none_iff.mp hset _ (entry_mem hdep hversion)
        rw [← sets_dep_iff hdep hlines] at hsets
        rw [depEntry, hsets] at hnone
        cases hnone

theorem manifest_lines_plain (content : List Char) :
    ∀ line ∈ manifestLines content, '\n' ∉ line :=
  fun _ hline => (split_part _ hline).1

theorem lines_kept (hversions : ∀ dep, vectorVersion vectorCargo dep = none)
    (lines : List (List Char)) : Revised vectorCargo lines lines := by
  induction lines with
  | nil => exact .nil
  | cons line rest ih =>
    refine .kept (fun dep version more h => ?_) ih
    rw [hversions dep] at h
    cases h

/-- A sync that has nothing to go by leaves the manifest alone. -/
theorem synced_unchanged (hversions : ∀ dep, vectorVersion vectorCargo dep = none)
    (hsync : ∀ bindingsCargo, syncVectorDependencies vectorCargo bindingsCargo = bindingsCargo)
    (content : List Char) : Synced vectorCargo content content where
  revised := lines_kept hversions _
  named dep version h := by
    rw [hversions dep] at h
    cases h
  settled := hsync _

theorem synced_updated {workspaceDeps : Dict String VectorDep} (hne : workspaceDeps.items ≠ [])
    (content : List Char) :
    Synced (.workspace workspaceDeps) content
      (updatedContent workspaceDeps (universalNewlines content)) where
  revised := by
    rw [lines_updated]
    exact pass_revises workspaceDeps 0 (manifest_lines_plain content)
  named dep version h before line rest more hlines hsets := by
    obtain ⟨hdep, hversion⟩ := vector_version_iff.mp h
    have hplain : ∀ next ∈ line :: rest, '\n' ∉ next := fun next hnext =>
      manifest_lines_plain _ next (hlines ▸ List.mem_append_right before hnext)
    rw [← sets_dep_iff hdep hplain] at hsets
    rw [lines_updated] at hlines
    rw [← dep_entry_line (key_deps_words dep hdep) version]
    exact pass_settled rfl (entries_agree keyDeps) hlines (entry_mem hdep hversion) hsets
  settled := by
    rw [syncVectorDependencies, if_neg hne]
    exact congrArg some (updated_twice workspaceDeps content)

/-- Whatever Vector's workspace says, a sync goes over the bindings' manifest line by line, makes
those that set one of its dependencies say its version, and is done then. -/
theorem manifest_synced (vectorCargo : VectorCargo) (content : List Char) :
    ∃ after, syncVectorDependencies vectorCargo (some content) = some after ∧
      Synced vectorCargo content after := by
  cases vectorCargo with
  | missing => exact ⟨content, rfl, synced_unchanged (fun _ => rfl) (fun _ => rfl) content⟩
  | invalid => exact ⟨content, rfl, synced_unchanged (fun _ => rfl) (fun _ => rfl) content⟩
  | workspace workspaceDeps =>
    by_cases hne : workspaceDeps.items = []
    · have hversions : ∀ dep, vectorVersion (.workspace workspaceDeps) dep = none := by
        intro dep
        rw [vectorVersion, Dict.get?, hne]
        split <;> rfl
      exact ⟨content, if_pos hne, synced_unchanged hversions (fun _ => if_pos hne) content⟩
    · exact ⟨_, if_neg hne, synced_updated hne content⟩

end

end VectorVrl.Proofs.DependencySync
