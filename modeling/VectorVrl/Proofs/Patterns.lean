import VectorVrl.Patterns

namespace VectorVrl.Proofs.Patterns
open Lib.OrderedDict Lib.SharedCache

section
variable {dir : String} {disk : PatternDisk} {patternName : String} {store : PatternStore}

theorem get_pattern_known (h : patternName ∈ patternNames) :
    getPattern dir disk patternName store = loadYamlConfig dir disk patternName store := by
  rw [getPattern, if_neg (not_not_intro h)]

theorem get_pattern_unknown (h : patternName ∉ patternNames) :
    getPattern dir disk patternName store = (store, .error (unknownPattern patternName)) := by
  rw [getPattern, if_pos h]

theorem no_data_iff {testDataSets : TestDataSets} {name : String} :
    name ∉ testDataSets.keys ↔ testDataSets.get? name = none := by
  rw [Dict.mem_keys_iff, not_exists, Option.eq_none_iff_forall_ne_some]
  exact forall_congr' fun testData => not_congr Dict.get_eq_some_iff.symm

end

section
variable {ρ : Type} [PyUnicode] {dir : String}
  {assess : PyVal → List String → String → Except PyError ρ} {disk : PatternDisk}
  {testDataSets : TestDataSets} {name : String}

/-- A pattern that there is data for is loaded, and judged by what it gives. -/
theorem benchmark_pattern {testData : List String} (hknown : name ∈ patternNames)
    (hdata : testDataSets.get? name = some testData) (store : PatternStore)
    (results : Dict String (BenchmarkEntry ρ)) :
    benchmarkPattern dir disk assess testDataSets (store, results) name =
      ((store.load name (readConfig dir disk name)).1,
        results.set name (benchmarkEntry assess name testData
          (valueAt store.slot (readConfig dir disk) name))) := by
  rw [benchmarkPattern, hdata, ← load_value]
  simp only
  rw [get_pattern_known hknown]
  rfl

/-- What the loop says of the patterns that it has data for. -/
def benchmarked (dir : String) (assess : PyVal → List String → String → Except PyError ρ)
    (disk : PatternDisk) (testDataSets : TestDataSets) (slots : String → Option PyVal)
    (names : List String) : List (String × BenchmarkEntry ρ) :=
  names.filterMap fun patternName =>
    (testDataSets.get? patternName).map fun testData =>
      (patternName, benchmarkEntry assess patternName testData
        (valueAt slots (readConfig dir disk) patternName))

/-- Opening patterns before the loop does not change what it says. -/
theorem benchmarked_opened (slots : String → Option PyVal) (before names : List String) :
    benchmarked dir assess disk testDataSets (opened slots (readConfig dir disk) before) names =
      benchmarked dir assess disk testDataSets slots names := by
  simp only [benchmarked, value_opened]

/-- The loop opens the patterns it has data for, judges each by what it would give before the
loop, and takes no name's object away. -/
theorem benchmark_loop {names : List String} (hknown : names ⊆ patternNames)
    (hnodup : names.Nodup) (store : PatternStore) (results : Dict String (BenchmarkEntry ρ))
    (hnew : ∀ name ∈ names, name ∉ results.keys) :
    let last := names.foldl (benchmarkPattern dir disk assess testDataSets) (store, results)
    last.1.slot = opened store.slot (readConfig dir disk)
        (names.filter (· ∈ testDataSets.keys)) ∧
      last.2.items = results.items ++ benchmarked dir assess disk testDataSets store.slot names ∧
      ∀ name ref, store.cache.get? name = some ref → last.1.cache.get? name = some ref := by
  induction names generalizing store results with
  | nil => exact ⟨opened_nil.symm, (List.append_nil _).symm, fun _ _ h => h⟩
  | cons name names ih =>
    have hrest := List.cons_subset.mp hknown
    rw [List.nodup_cons] at hnodup
    rw [List.forall_mem_cons] at hnew
    rw [List.foldl_cons]
    cases hdata : testDataSets.get? name with
    | none =>
      have hstep : benchmarkPattern dir disk assess testDataSets (store, results) name =
          (store, results) := by rw [benchmarkPattern, hdata]
      have hnot : name ∉ testDataSets.keys := no_data_iff.mpr hdata
      rw [hstep, List.filter_cons_of_neg (by simpa using hnot), benchmarked,
        List.filterMap_cons_none (by rw [hdata]; rfl)]
      exact ih hrest.2 hnodup.2 store results hnew.2
    | some testData =>
      have hmem : name ∈ testDataSets.keys := by
        by_contra hnot
        rw [no_data_iff, hdata] at hnot
        cases hnot
      have hkeys : ∀ other ∈ names, other ∉ (results.set name (benchmarkEntry assess name testData
          (valueAt store.slot (readConfig dir disk) name))).keys := by
        intro other hother hin
        rw [Dict.mem_keys_iff] at hin
        obtain ⟨entry, hentry⟩ := hin
        rcases Dict.mem_set_iff.mp hentry with ⟨rfl, _⟩ | ⟨_, hold⟩
        · exact hnodup.1 hother
        · exact hnew.2 other hother (Dict.mem_keys_iff.mpr ⟨entry, hold⟩)
      obtain ⟨hslots, hitems, hkept⟩ := ih hrest.2 hnodup.2
        (store.load name (readConfig dir disk name)).1 _ hkeys
      rw [benchmark_pattern hrest.1 hdata, List.filter_cons_of_pos (by simpa using hmem)]
      refine ⟨?_, ?_, fun other ref h => hkept other ref (load_keeps name _ h)⟩
      · rw [hslots, slot_load, opened_append]
        rfl
      · rw [hitems, slot_load, benchmarked_opened, Dict.set_new hnew.1, List.append_assoc]
        congr 1
        rw [benchmarked, benchmarked, List.filterMap_cons_some (by rw [hdata]; rfl)]
        rfl

end

section
variable {process : PatternProcess} {patterns : PatternSlots} {store : PatternStore}
  {slots : String → Option PyVal}

/-- A call that takes no name's object away shows what it gave and what was given before. -/
theorem shows_next (h : Shows process patterns) (hslots : store.slot = slots)
    (hkept : ∀ name ref, process.store.cache.get? name = some ref →
      store.cache.get? name = some ref)
    {ref : Option Nat} {name : Option String} (href : ref = name.bind store.cache.get?)
    (hname : ∀ given, name = some given → ∃ ref, store.cache.get? given = some ref) :
    Shows ⟨store, process.held ++ [ref]⟩ ⟨slots, patterns.held ++ [name]⟩ where
  slots := hslots
  held := by
    have hsame : process.held = patterns.held.map fun given => given.bind store.cache.get? := by
      rw [h.held]
      apply List.map_congr_left
      intro earlier hmem
      cases earlier with
      | none => rfl
      | some given =>
        obtain ⟨old, hold⟩ := h.cached given hmem
        exact hold.trans (hkept given old hold).symm
    rw [List.map_append, List.map_singleton, ← href, ← hsame]
  cached given hmem := by
    rcases List.mem_append.mp hmem with hmem | hmem
    · obtain ⟨old, hold⟩ := h.cached given hmem
      exact ⟨old, hkept given old hold⟩
    · exact hname given (List.mem_singleton.mp hmem).symm

/-- What a call was given is the object of the name it was given. -/
theorem held_call (h : Shows process patterns) (call : Nat) :
    process.held[call]?.join =
      patterns.held[call]?.join.bind process.store.cache.get? := by
  rw [h.held, List.getElem?_map]
  cases patterns.held[call]? <;> rfl

theorem shows_nothing (h : Shows process patterns) (hslots : store.slot = slots)
    (hkept : ∀ name ref, process.store.cache.get? name = some ref →
      store.cache.get? name = some ref) :
    Shows ⟨store, process.held ++ [none]⟩ ⟨slots, patterns.held ++ [none]⟩ :=
  shows_next h hslots hkept rfl fun _ hnone => nomatch hnone

theorem shows_same (h : Shows process patterns) : SameObjects process patterns := by
  intro call call' name _ hcall _ _
  have hobject : process.held[call]? = some (process.store.cache.get? name) := by
    rw [h.held, List.getElem?_map, hcall]
    rfl
  constructor
  · intro hsame
    obtain ⟨ref, href⟩ := h.cached name (List.mem_of_getElem? hcall)
    rw [hobject, href, h.held, List.getElem?_map, Option.map_eq_some_iff] at hsame
    obtain ⟨given, hgiven, hother⟩ := hsame
    obtain ⟨other, rfl, hother⟩ := Option.bind_eq_some_iff.mp hother
    rw [hgiven, process.store.apart other name ref hother href]
  · intro hsame
    rw [hobject, h.held, List.getElem?_map, hsame]
    rfl

variable {ρ : Type} (dir : String) (disk : PatternDisk)

/-- A pattern that is loaded is given as its name gives it. -/
theorem load_shows (h : Shows process patterns) (name : String) :
    let next : PatternProcess × PatternAnswer ρ :=
      process.given (loadYamlConfig dir disk name process.store)
    let next' : PatternSlots × PatternAnswer ρ := patterns.given dir disk name
    Shows next.1 next'.1 ∧ next.2 = next'.2 := by
  have hslots := slot_load process.store (readConfig dir disk) name
  have hvalue := load_value process.store (readConfig dir disk) name
  have hkept : ∀ other ref, process.store.cache.get? other = some ref →
      (process.store.load name (readConfig dir disk name)).1.cache.get? other = some ref :=
    fun other ref => load_keeps name _
  rw [h.slots] at hslots hvalue
  simp only [PatternSlots.given, ← hvalue, loadYamlConfig]
  cases hload : process.store.load name (readConfig dir disk name) with
  | mk store found =>
    rw [hload] at hslots hkept
    cases found with
    | error e => exact ⟨shows_nothing h hslots hkept, rfl⟩
    | ok found =>
      have href := load_ref process.store name (readConfig dir disk name) (by rw [hload])
      rw [hload] at href
      refine ⟨shows_next h hslots hkept href.symm ?_, rfl⟩
      intro given hgiven
      cases hgiven
      exact ⟨_, href⟩

variable [PyUnicode] (assess : PyVal → List String → String → Except PyError ρ)

/-- A call does to the objects what it does to the names. -/
theorem step_shows (h : Shows process patterns) (call : PatternCall) :
    Shows (process.step dir assess disk call).1 (patterns.step dir assess disk call).1 ∧
      (process.step dir assess disk call).2 = (patterns.step dir assess disk call).2 := by
  cases call with
  | load name => exact load_shows dir disk h name
  | getPattern name =>
    rw [PatternProcess.step, PatternSlots.step]
    by_cases hname : name ∈ patternNames
    · rw [get_pattern_known hname, if_pos hname]
      exact load_shows dir disk h name
    · rw [get_pattern_unknown hname, if_neg hname]
      exact ⟨shows_nothing h h.slots fun _ _ hold => hold, rfl⟩
  | benchmark testDataSets =>
    obtain ⟨hslots, hitems, hkept⟩ := @benchmark_loop ρ _ dir assess disk testDataSets
      patternNames (List.Subset.refl _) (by decide) process.store .empty
      fun _ _ => List.not_mem_nil
    rw [h.slots] at hslots hitems
    exact ⟨shows_nothing h hslots hkept, congrArg PatternAnswer.report hitems⟩
  | change call value =>
    refine ⟨?_, rfl⟩
    cases hcall : patterns.held[call]?.join with
    | none =>
      have hcall' : process.held[call]?.join = none := by
        rw [held_call h, hcall]
        rfl
      rw [PatternProcess.step, PatternSlots.step, hcall, hcall']
      exact shows_nothing h h.slots fun _ _ hold => hold
    | some name =>
      obtain ⟨ref, href⟩ := h.cached name (List.mem_of_getElem? (Option.join_eq_some_iff.mp hcall))
      have hcall' : process.held[call]?.join = some ref := by
        rw [held_call h, hcall]
        exact href
      rw [PatternProcess.step, PatternSlots.step, hcall, hcall']
      refine shows_nothing h ?_ fun _ _ hold => hold
      funext other
      rw [slot_change href, h.slots]
      exact (Function.update_apply _ _ _ _).symm

theorem run_shows (h : Shows process patterns) (calls : List (PatternDisk × PatternCall)) :
    Shows (process.run dir assess calls).1 (patterns.run dir assess calls).1 ∧
      (process.run dir assess calls).2 = (patterns.run dir assess calls).2 := by
  induction calls generalizing process patterns with
  | nil => exact ⟨h, rfl⟩
  | cons entry rest ih =>
    obtain ⟨disk, call⟩ := entry
    obtain ⟨hnext, hanswer⟩ := step_shows dir disk assess h call
    obtain ⟨hlast, hanswers⟩ := ih hnext
    exact ⟨hlast, congrArg₂ List.cons hanswer hanswers⟩

/-- Over any calls, on disks that change as they like, the process answers as if every name had
one config of its own, read once, and gives two calls one dict if they ask for one name. -/
theorem patterns_refine (calls : List (PatternDisk × PatternCall)) :
    (PatternProcess.start.run dir assess calls).2 = (PatternSlots.start.run dir assess calls).2 ∧
      SameObjects (PatternProcess.start.run dir assess calls).1
        (PatternSlots.start.run dir assess calls).1 := by
  have hstart : Shows .start .start := ⟨rfl, rfl, fun _ h => nomatch h⟩
  obtain ⟨hshows, hanswers⟩ := run_shows dir assess hstart calls
  exact ⟨hanswers, shows_same hshows⟩

end

end VectorVrl.Proofs.Patterns
