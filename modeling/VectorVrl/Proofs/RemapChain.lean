import VectorVrl.Lib.Collect
import VectorVrl.RemapChain

namespace VectorVrl.Proofs.RemapChain
open Lib.Chain Lib.OrderedDict Lib.Collect

/-- The transforms before one, as `upstream` has them. -/
def beforeIn (upstream : List (String × List String)) (name : String) : List String :=
  (upstream.lookup name).getD []

section
variable {upstream : List (String × List String)}

theorem before_in_mem (hu : (upstream.map Prod.fst).Nodup) {name : String} {before : List String}
    (h : (name, before) ∈ upstream) : beforeIn upstream name = before := by
  rw [beforeIn, (Dict.lookup_eq_some_iff hu).mpr h, Option.getD_some]

theorem filter_before (hu : (upstream.map Prod.fst).Nodup) (p : List String → Bool) :
    (upstream.filter fun entry => p entry.2).map Prod.fst =
      (upstream.map Prod.fst).filter fun name => p (beforeIn upstream name) := by
  rw [List.filter_map]
  congr 1
  apply List.filter_congr
  intro entry hentry
  rw [Function.comp_apply, before_in_mem hu hentry]

theorem any_before (hu : (upstream.map Prod.fst).Nodup) (p : String → List String → Bool) :
    (upstream.any fun entry => p entry.1 entry.2) =
      (upstream.map Prod.fst).any fun name => p name (beforeIn upstream name) := by
  rw [List.any_map, Bool.eq_iff_iff, List.any_eq_true, List.any_eq_true]
  apply exists_congr
  intro entry
  apply and_congr_right
  intro hentry
  rw [Function.comp_apply, before_in_mem hu hentry]

theorem heads_eq (hu : (upstream.map Prod.fst).Nodup) :
    (upstream.filter fun entry => entry.2.isEmpty).map Prod.fst =
      starts (upstream.map Prod.fst) (beforeIn upstream) :=
  filter_before hu List.isEmpty

theorem following_eq (hu : (upstream.map Prod.fst).Nodup) (name : String) :
    (upstream.filter fun entry => name ∈ entry.2).map Prod.fst =
      followers (upstream.map Prod.fst) (beforeIn upstream) name :=
  filter_before hu fun before => name ∈ before

/-- The two degree checks pass on names with one predecessor and one follower at most. -/
theorem degrees_iff (hu : (upstream.map Prod.fst).Nodup) :
    (upstream.any (fun entry => entry.2.length > 1) ||
      upstream.any fun entry =>
        (followers (upstream.map Prod.fst) (beforeIn upstream) entry.1).length > 1) = false ↔
      (∀ b ∈ upstream.map Prod.fst, (beforeIn upstream b).length ≤ 1) ∧
        ∀ a ∈ upstream.map Prod.fst,
          (followers (upstream.map Prod.fst) (beforeIn upstream) a).length ≤ 1 := by
  rw [any_before hu fun _ before => before.length > 1,
    any_before hu fun name _ =>
      (followers (upstream.map Prod.fst) (beforeIn upstream) name).length > 1,
    Bool.or_eq_false_iff, List.any_eq_false, List.any_eq_false]
  simp only [gt_iff_lt, decide_eq_true_eq, Nat.not_lt]

theorem chain_order_walk (hu : (upstream.map Prod.fst).Nodup) {head : String}
    (hfile : SingleFile (upstream.map Prod.fst) (beforeIn upstream))
    (hhead : starts (upstream.map Prod.fst) (beforeIn upstream) = [head]) (fuel : Nat) :
    chainOrder fuel upstream =
      (follow (followers (upstream.map Prod.fst) (beforeIn upstream)) fuel [head]).map fun order =>
        if order.length ≠ upstream.length then .error notOneChain else .ok order := by
  have hdegrees := (degrees_iff hu).mpr hfile.2
  simp only [chainOrder, heads_eq hu, following_eq hu, hhead]
  rw [hdegrees]
  rfl

theorem chain_order_refused (hu : (upstream.map Prod.fst).Nodup)
    (hfile : ¬ SingleFile (upstream.map Prod.fst) (beforeIn upstream)) (fuel : Nat) :
    chainOrder fuel upstream = some (.error notOneChain) := by
  simp only [chainOrder, heads_eq hu, following_eq hu]
  split
  · rename_i head hhead
    rw [if_pos]
    apply Bool.not_eq_false _ |>.mp
    intro hfalse
    apply hfile
    refine ⟨?_, (degrees_iff hu).mp hfalse⟩
    rw [hhead, List.length_singleton]
  · rfl

theorem single_file_head {names : List String} {before : String → List String}
    (h : SingleFile names before) : ∃ head, starts names before = [head] :=
  List.length_eq_one_iff.mp h.1

/-- The walk has nowhere to go back to, so it ends within as many rounds as there are transforms. -/
theorem chain_order_ends (hu : (upstream.map Prod.fst).Nodup) :
    ∃ result, ∀ fuel, upstream.length ≤ fuel → chainOrder fuel upstream = some result := by
  by_cases hfile : SingleFile (upstream.map Prod.fst) (beforeIn upstream)
  · obtain ⟨head, hhead⟩ := single_file_head hfile
    obtain ⟨order, horder, _, _⟩ := follow_file hfile hhead (Nat.le_refl _)
    refine ⟨if order.length ≠ upstream.length then .error notOneChain else .ok order, ?_⟩
    intro fuel hfuel
    have hmore : follow _ fuel [head] = some order := follow_more horder (by simpa using hfuel)
    rw [chain_order_walk hu hfile hhead, hmore, Option.map_some]
  · exact ⟨.error notOneChain, fun fuel _ => chain_order_refused hu hfile fuel⟩

/-- An order that is returned goes through all transforms, each right after its only predecessor. -/
theorem chain_order_ok (hu : (upstream.map Prod.fst).Nodup) {fuel : Nat} {order : List String}
    (h : chainOrder fuel upstream = some (.ok order)) :
    order.Perm (upstream.map Prod.fst) ∧ Trail (beforeIn upstream) order := by
  by_cases hfile : SingleFile (upstream.map Prod.fst) (beforeIn upstream)
  · obtain ⟨head, hhead⟩ := single_file_head hfile
    rw [chain_order_walk hu hfile hhead, Option.map_eq_some_iff] at h
    obtain ⟨walked, hwalk, hchecked⟩ := h
    split at hchecked
    · cases hchecked
    rename_i hlength
    cases hchecked
    have hmore := follow_more hwalk (Nat.le_max_left fuel (upstream.map Prod.fst).length)
    obtain ⟨done, hdone, htrail, hsub⟩ := follow_file hfile hhead
      (Nat.le_max_right fuel (upstream.map Prod.fst).length)
    rw [hmore] at hdone
    cases hdone
    refine ⟨(htrail.nodup.subperm hsub).perm_of_length_le ?_, htrail⟩
    rw [List.length_map, Classical.not_not.mp hlength]
  · rw [chain_order_refused hu hfile] at h
    cases h

theorem chain_order_error (hu : (upstream.map Prod.fst).Nodup) {fuel : Nat} {e : PyException}
    (h : chainOrder fuel upstream = some (.error e)) : e = notOneChain := by
  by_cases hfile : SingleFile (upstream.map Prod.fst) (beforeIn upstream)
  · obtain ⟨head, hhead⟩ := single_file_head hfile
    rw [chain_order_walk hu hfile hhead, Option.map_eq_some_iff] at h
    obtain ⟨walked, _, hchecked⟩ := h
    split at hchecked
    · cases hchecked
      rfl
    · cases hchecked
  · rw [chain_order_refused hu hfile] at h
    cases h
    rfl

/-- One simple path passes the checks and is the order returned. -/
theorem chain_order_of_path (hu : (upstream.map Prod.fst).Nodup) (hne : upstream ≠ [])
    (hbefore : ∀ b ∈ upstream.map Prod.fst,
      beforeIn upstream b ⊆ upstream.map Prod.fst ∧ (beforeIn upstream b).Nodup)
    {path : List String} (h : SinglePath (upstream.map Prod.fst) (beforeIn upstream) path)
    {fuel : Nat} (hfuel : upstream.length ≤ fuel) :
    chainOrder fuel upstream = some (.ok path) := by
  obtain ⟨hfile, hwalk⟩ := h.followed hu hbefore (by simpa using hne)
  obtain ⟨head, hhead⟩ := single_file_head hfile
  have hlength : path.length = upstream.length := by simpa using h.perm.length_eq
  rw [chain_order_walk hu hfile hhead, hwalk head hhead fuel (by simpa using hfuel),
    Option.map_some, if_neg (by simp [hlength])]

end

theorem check_remap_ok_iff [PyUnicode] (name : String) {transform : PyVal} {given : Transform} :
    checkRemap name transform = .ok given ↔ transform.asDict = some given ∧ isRemap given ∧
      ∃ source, given.get? "source" = some (.str source) := by
  constructor
  · intro h
    unfold checkRemap at h
    split at h
    · cases h
    rename_i options hdict
    split at h
    · cases h
    rename_i hremap
    split at h
    · rename_i source hsource
      cases h
      exact ⟨hdict, by simpa using hremap, source, hsource⟩
    · cases h
  · intro h
    obtain ⟨hdict, hremap, source, hsource⟩ := h
    simp only [checkRemap, hdict, hremap, hsource, Bool.not_true, Bool.false_eq_true, if_false]

theorem check_remap_error [PyUnicode] {name : String} {transform : PyVal} {e : PyException}
    (h : checkRemap name transform = .error e) : ∃ text, e = .valueError text := by
  unfold checkRemap at h
  split at h
  · exact ⟨_, (Except.error.inj h).symm⟩
  split at h
  · exact ⟨_, (Except.error.inj h).symm⟩
  split at h
  · cases h
  · exact ⟨_, (Except.error.inj h).symm⟩

/-- The loop lets through just the inline remaps. -/
theorem inline_remaps_ok_iff [PyUnicode] {found : Dict String PyVal}
    {transforms : List (String × Transform)} :
    inlineRemaps found = .ok transforms ↔ List.Forall₂ InlineRemap found.items transforms := by
  rw [inlineRemaps, map_m_ok_iff]
  have hentry : ∀ (entry : String × PyVal) (given : String × Transform),
      (checkRemap entry.1 entry.2).map (fun transform => (entry.1, transform)) = .ok given ↔
        InlineRemap entry given := by
    intro entry given
    rw [InlineRemap, map_ok_iff, ← check_remap_ok_iff entry.1]
    constructor
    · intro hsome
      obtain ⟨transform, hok, rfl⟩ := hsome
      exact ⟨rfl, hok⟩
    · intro hboth
      exact ⟨given.2, hboth.2, Prod.ext hboth.1 rfl⟩
  simp only [hentry]

theorem inline_remaps_error [PyUnicode] {found : Dict String PyVal} {e : PyException}
    (h : inlineRemaps found = .error e) : ∃ text, e = .valueError text := by
  obtain ⟨entry, _, hentry⟩ := map_m_error h
  exact check_remap_error (map_error_iff.mp hentry)

theorem keys_through {α β : Type} {r : String × α → String × β → Prop} {items : List (String × α)}
    {given : List (String × β)} (h : List.Forall₂ r items given)
    (hr : ∀ entry given, r entry given → entry.1 = given.1) :
    items.map Prod.fst = given.map Prod.fst := by
  induction h with
  | nil => rfl
  | cons hhead _ ih => rw [List.map_cons, List.map_cons, hr _ _ hhead, ih]

theorem upstreams_keys {transforms : List (String × Transform)}
    {upstream : List (String × List String)} (h : upstreams transforms = .ok upstream) :
    upstream.map Prod.fst = transforms.map Prod.fst := by
  refine (keys_through (map_m_ok_iff.mp h) ?_).symm
  intro entry given hentry
  obtain ⟨before, _, rfl⟩ := map_ok_iff.mp hentry
  rfl

theorem among_names_texts {names : List String} {items : List PyVal} {texts : List String}
    (h : items.mapM PyVal.asStr = some texts) :
    items.mapM (PyVal.amongNames names) =
      .ok (texts.map fun text => if text ∈ names then some text else none) := by
  induction items generalizing texts with
  | nil =>
    cases h
    rfl
  | cons item rest ih =>
    rw [List.mapM_cons, Option.bind_eq_bind, Option.bind_eq_some_iff] at h
    obtain ⟨text, htext, h⟩ := h
    rw [Option.bind_eq_bind, Option.bind_eq_some_iff] at h
    obtain ⟨others, hothers, h⟩ := h
    cases h
    have hitem : item = .str text := by
      cases item <;> cases htext
      rfl
    subst hitem
    have hfound : PyVal.amongNames names (.str text) =
        .ok (if text ∈ names then some text else none) := rfl
    rw [map_m_cons hfound, ih hothers]
    rfl

theorem reduce_found (names texts : List String) :
    (texts.map fun text => if text ∈ names then some text else none).reduceOption =
      texts.filter fun text => text ∈ names := by
  change List.filterMap id _ = _
  rw [List.filterMap_map, ← List.filterMap_eq_filter]
  apply List.filterMap_congr
  intro text _
  simp [Option.guard]

/-- Listed texts are filtered to the transforms among them. -/
theorem transform_inputs_texts {options : Transform} {texts : List String} (names : List String)
    (h : inputTexts options = some texts) :
    transformInputs names options = .ok (texts.filter fun text => text ∈ names) := by
  unfold inputTexts at h
  unfold transformInputs
  split at h
  · rename_i hnone
    cases h
    rw [hnone]
    rfl
  · rename_i hnull
    cases h
    rw [hnull]
    rfl
  · rename_i n items hlist
    rw [hlist, Option.getD_some]
    cases n with
    | zero =>
      rw [List.ofFn_zero] at h
      cases h
      rfl
    | succ n =>
      simp only [PyVal.truthy, PyVal.iterate, Nat.add_one_ne_zero, ne_eq, not_false_eq_true,
        decide_true, Bool.not_true, Bool.false_eq_true, if_false]
      change (List.mapM (PyVal.amongNames names) (List.ofFn items)).bind _ = _
      rw [among_names_texts h, ← reduce_found]
      rfl
  · cases h

section
variable {transforms : Dict String Transform} {inputs : String → List String}

/-- The dict `upstream` of transforms whose inputs are texts. -/
def upstreamOf (transforms : Dict String Transform) (inputs : String → List String) :
    List (String × List String) :=
  transforms.items.map fun entry => (entry.1, transformsAmong transforms inputs entry.1)

/-- The transforms before each are those among its inputs. -/
theorem upstreams_texts (h : TextInputs transforms inputs) :
    upstreams transforms.items = .ok (upstreamOf transforms inputs) := by
  rw [upstreams, upstreamOf, map_m_ok_iff, List.forall₂_map_right_iff, List.forall₂_same]
  intro entry hentry
  have hfound := transform_inputs_texts transforms.keys (h entry.1 entry.2 hentry)
  rw [map_ok_iff]
  exact ⟨_, hfound, rfl⟩

theorem upstream_of_keys : (upstreamOf transforms inputs).map Prod.fst = transforms.keys := by
  rw [upstreamOf, List.map_map]
  rfl

theorem upstream_of_distinct : ((upstreamOf transforms inputs).map Prod.fst).Nodup :=
  upstream_of_keys ▸ transforms.distinct

theorem before_upstream_of {name : String} (h : name ∈ transforms.keys) :
    beforeIn (upstreamOf transforms inputs) name = transformsAmong transforms inputs name := by
  obtain ⟨transform, hmem⟩ := Dict.mem_keys_iff.mp h
  exact before_in_mem upstream_of_distinct (List.mem_map_of_mem hmem)

theorem listed_iff {a b : String} (ha : a ∈ transforms.keys) :
    a ∈ transformsAmong transforms inputs b ↔ a ∈ inputs b := by
  rw [transformsAmong, List.mem_filter, decide_eq_true_iff]
  exact and_iff_left ha

/-- What the config's texts list is what the walk goes by. -/
theorem single_path_iff {path : List String} :
    SinglePath ((upstreamOf transforms inputs).map Prod.fst)
      (beforeIn (upstreamOf transforms inputs)) path ↔
      SinglePath transforms.keys inputs path := by
  rw [upstream_of_keys]
  have hsame : ∀ a ∈ transforms.keys, ∀ b ∈ transforms.keys,
      a ∈ beforeIn (upstreamOf transforms inputs) b ↔ a ∈ inputs b := by
    intro a ha b hb
    rw [before_upstream_of hb, listed_iff ha]
  constructor
  · intro h
    exact h.congr hsame
  · intro h
    exact h.congr fun a ha b hb => (hsame a ha b hb).symm

theorem inline_remaps_nonempty {config : Dict String PyVal}
    (h : InlineRemaps config transforms) : transforms.items ≠ [] := by
  obtain ⟨found, _, hne, hinline⟩ := h
  intro hnil
  rw [hnil, List.forall₂_nil_right_iff] at hinline
  exact hne hinline

end

theorem in_order_keys {transforms : Dict String Transform} {order : List String}
    (h : order ⊆ transforms.keys) : (inOrder transforms.items order).map Prod.fst = order := by
  rw [inOrder, List.map_filterMap]
  conv_rhs => rw [← List.filterMap_some (l := order)]
  apply List.filterMap_congr
  intro name hname
  obtain ⟨transform, hmem⟩ := Dict.mem_keys_iff.mp (h hname)
  rw [(Dict.lookup_eq_some_iff transforms.distinct).mpr hmem]
  rfl

/-- Every transform is returned, once. -/
theorem in_order_perm {transforms : Dict String Transform} {order : List String}
    (h : order.Perm transforms.keys) : (inOrder transforms.items order).Perm transforms.items := by
  have hall : inOrder transforms.items transforms.keys = transforms.items := by
    rw [inOrder, Dict.keys, List.filterMap_map]
    conv_rhs => rw [← List.filterMap_some (l := transforms.items)]
    apply List.filterMap_congr
    intro entry hentry
    rw [Function.comp_apply, (Dict.lookup_eq_some_iff transforms.distinct).mpr hentry]
    rfl
  have hperm := h.filterMap fun name =>
    (transforms.items.lookup name).map fun transform => (name, transform)
  rw [← inOrder, ← inOrder, hall] at hperm
  exact hperm

section
variable [PyUnicode] {config : Dict String PyVal}

/-- Past the checks it is the inputs that decide. -/
theorem remap_chain_inline {transforms : Dict String Transform}
    (h : InlineRemaps config transforms) (fuel : Nat) :
    (∀ e, upstreams transforms.items = .error e → remapChain fuel config = some (.error e)) ∧
      ∀ upstream, upstreams transforms.items = .ok upstream →
        remapChain fuel config =
          (chainOrder fuel upstream).map fun order => order.map (inOrder transforms.items) := by
  obtain ⟨found, hfound, hne, hinline⟩ := h
  rw [remapChain, hfound]
  split
  · rename_i hnone
    cases hnone
  · rename_i hempty
    cases hempty
    exact absurd rfl hne
  · rename_i hsome
    cases hsome
    have hok := inline_remaps_ok_iff.mpr hinline
    constructor
    · intro e hup
      simp only [hok, hup]
    · intro upstream hup
      simp only [hok, hup]

/-- A config without inline remaps alone ends in a `ValueError`. -/
theorem remap_chain_refused (h : ¬ ∃ transforms, InlineRemaps config transforms) :
    ∃ text, ∀ fuel, remapChain fuel config = some (.error (.valueError text)) := by
  unfold remapChain
  split
  · exact ⟨_, fun _ => rfl⟩
  · exact ⟨_, fun _ => rfl⟩
  · rename_i found hempty hfound
    split
    · rename_i e hrefused
      obtain ⟨text, rfl⟩ := inline_remaps_error hrefused
      exact ⟨text, fun _ => rfl⟩
    · rename_i transforms hinline
      have hentries := inline_remaps_ok_iff.mp hinline
      have hkeys := keys_through hentries fun _ _ hentry => hentry.1
      refine absurd ⟨⟨transforms, hkeys ▸ found.distinct⟩, found, hfound, ?_, hentries⟩ h
      intro hnil
      obtain ⟨items, distinct⟩ := found
      subst hnil
      exact hempty distinct rfl

/-- Whatever the config holds, the call ends. -/
theorem remap_chain_ends (config : Dict String PyVal) :
    ∃ rounds result, ∀ fuel, rounds ≤ fuel → remapChain fuel config = some result := by
  by_cases hinline : ∃ transforms, InlineRemaps config transforms
  · obtain ⟨transforms, hinline⟩ := hinline
    cases hup : upstreams transforms.items with
    | error e =>
      exact ⟨0, .error e, fun fuel _ => (remap_chain_inline hinline fuel).1 e hup⟩
    | ok upstream =>
      have hkeys := upstreams_keys hup
      obtain ⟨result, hends⟩ := chain_order_ends (hkeys ▸ transforms.distinct)
      refine ⟨upstream.length, result.map (inOrder transforms.items), ?_⟩
      intro fuel hfuel
      rw [(remap_chain_inline hinline fuel).2 upstream hup, hends fuel hfuel, Option.map_some]
  · obtain ⟨text, hrefused⟩ := remap_chain_refused hinline
    exact ⟨0, .error (.valueError text), fun fuel _ => hrefused fuel⟩

/-- What is accepted are the config's transforms, each once. -/
theorem remap_chain_accepted {fuel : Nat} {chain : List (String × Transform)}
    (h : remapChain fuel config = some (.ok chain)) :
    ∃ transforms, InlineRemaps config transforms ∧ chain.Perm transforms.items := by
  by_cases hinline : ∃ transforms, InlineRemaps config transforms
  · obtain ⟨transforms, hinline⟩ := hinline
    refine ⟨transforms, hinline, ?_⟩
    cases hup : upstreams transforms.items with
    | error e =>
      rw [(remap_chain_inline hinline fuel).1 e hup] at h
      cases h
    | ok upstream =>
      have hkeys := upstreams_keys hup
      simp only [(remap_chain_inline hinline fuel).2 upstream hup, Option.map_eq_some_iff,
        map_ok_iff] at h
      obtain ⟨_, hordered, order, rfl, rfl⟩ := h
      have hperm := (chain_order_ok (hkeys ▸ transforms.distinct) hordered).1
      rw [hkeys] at hperm
      exact in_order_perm hperm
  · obtain ⟨text, hrefused⟩ := remap_chain_refused hinline
    rw [hrefused] at h
    cases h

section
variable {transforms : Dict String Transform} {inputs : String → List String}

theorem remap_chain_texts (hinline : InlineRemaps config transforms)
    (htexts : TextInputs transforms inputs) (fuel : Nat) :
    remapChain fuel config =
      (chainOrder fuel (upstreamOf transforms inputs)).map fun order =>
        order.map (inOrder transforms.items) :=
  (remap_chain_inline hinline fuel).2 _ (upstreams_texts htexts)

/-- An accepted config is one path, and what is returned is the path. -/
theorem remap_chain_ok (hinline : InlineRemaps config transforms)
    (htexts : TextInputs transforms inputs) {fuel : Nat} {chain : List (String × Transform)}
    (h : remapChain fuel config = some (.ok chain)) :
    chain.Perm transforms.items ∧
      Trail (transformsAmong transforms inputs) (chain.map Prod.fst) ∧
      (∀ name ∈ transforms.keys, (transformsAmong transforms inputs name).Nodup) ∧
      SinglePath transforms.keys inputs (chain.map Prod.fst) := by
  simp only [remap_chain_texts hinline htexts, Option.map_eq_some_iff, map_ok_iff] at h
  obtain ⟨_, hordered, order, rfl, rfl⟩ := h
  obtain ⟨hperm, htrail⟩ := chain_order_ok upstream_of_distinct hordered
  have hpath := single_path_iff.mp (htrail.single_path hperm)
  rw [upstream_of_keys] at hperm
  rw [in_order_keys hperm.subset]
  have htrail' := htrail.congr fun name hname => before_upstream_of (hperm.subset hname)
  refine ⟨in_order_perm hperm, htrail', ?_, hpath⟩
  intro name hname
  exact htrail'.before_nodup (hperm.mem_iff.mpr hname)

theorem remap_chain_error (hinline : InlineRemaps config transforms)
    (htexts : TextInputs transforms inputs) {fuel : Nat} {e : PyException}
    (h : remapChain fuel config = some (.error e)) : e = notOneChain := by
  simp only [remap_chain_texts hinline htexts, Option.map_eq_some_iff, map_error_iff] at h
  obtain ⟨_, hordered, rfl⟩ := h
  exact chain_order_error upstream_of_distinct hordered

theorem remap_chain_of_path (hinline : InlineRemaps config transforms)
    (htexts : TextInputs transforms inputs)
    (honce : ∀ name ∈ transforms.keys, (transformsAmong transforms inputs name).Nodup)
    {path : List String} (h : SinglePath transforms.keys inputs path) {fuel : Nat}
    (hfuel : transforms.items.length ≤ fuel) :
    ∃ chain, remapChain fuel config = some (.ok chain) := by
  have hne : upstreamOf transforms inputs ≠ [] := by
    simpa [upstreamOf] using inline_remaps_nonempty hinline
  have hbefore : ∀ b ∈ (upstreamOf transforms inputs).map Prod.fst,
      beforeIn (upstreamOf transforms inputs) b ⊆ (upstreamOf transforms inputs).map Prod.fst ∧
        (beforeIn (upstreamOf transforms inputs) b).Nodup := by
    rw [upstream_of_keys]
    intro b hb
    rw [before_upstream_of hb]
    refine ⟨?_, honce b hb⟩
    intro a ha
    exact of_decide_eq_true (List.mem_filter.mp ha).2
  have hordered := chain_order_of_path upstream_of_distinct hne hbefore (single_path_iff.mpr h)
    ((List.length_map _).trans_le hfuel)
  rw [remap_chain_texts hinline htexts, hordered]
  exact ⟨_, rfl⟩

end

/-- The call always ends, in a `ValueError` where the transforms are not inline remaps. Of inline
remaps that list texts it returns an order exactly when what they list is one simple path through
all of them, no transform listed twice, and the order is that path; else it is a `ValueError`. -/
theorem remap_chain_single_chains (config : Dict String PyVal) :
    ∃ rounds result, (∀ fuel, rounds ≤ fuel → remapChain fuel config = some result) ∧
      ((¬∃ transforms, InlineRemaps config transforms) →
        ∃ text, result = .error (.valueError text)) ∧
      ∀ transforms inputs, InlineRemaps config transforms → TextInputs transforms inputs →
        ((∃ chain, result = .ok chain) ↔
          (∀ name ∈ transforms.keys, (transformsAmong transforms inputs name).Nodup) ∧
            ∃ path, SinglePath transforms.keys inputs path) ∧
        (∀ chain, result = .ok chain → chain.Perm transforms.items ∧
          Trail (transformsAmong transforms inputs) (chain.map Prod.fst)) ∧
        ((∀ chain, result ≠ .ok chain) → ∃ text, result = .error (.valueError text)) := by
  obtain ⟨rounds, result, hends⟩ := remap_chain_ends config
  refine ⟨rounds, result, hends, ?_, ?_⟩
  · intro hrefused
    obtain ⟨text, htext⟩ := remap_chain_refused hrefused
    refine ⟨text, ?_⟩
    have hboth := (hends rounds (Nat.le_refl _)).symm.trans (htext rounds)
    exact Option.some.inj hboth
  · intro transforms inputs hinline htexts
    have hresult := hends (max rounds transforms.items.length) (Nat.le_max_left ..)
    refine ⟨⟨?_, ?_⟩, ?_, ?_⟩
    · intro hsome
      obtain ⟨chain, rfl⟩ := hsome
      obtain ⟨_, _, honce, hpath⟩ := remap_chain_ok hinline htexts hresult
      exact ⟨honce, _, hpath⟩
    · intro hboth
      obtain ⟨honce, path, hpath⟩ := hboth
      obtain ⟨chain, hchain⟩ := remap_chain_of_path hinline htexts honce hpath
        (Nat.le_max_right rounds transforms.items.length)
      exact ⟨chain, Option.some.inj (hresult.symm.trans hchain)⟩
    · intro chain hok
      rw [hok] at hresult
      obtain ⟨hperm, htrail, _, _⟩ := remap_chain_ok hinline htexts hresult
      exact ⟨hperm, htrail⟩
    · intro hnone
      cases result with
      | ok chain => exact absurd rfl (hnone chain)
      | error e =>
        have he := remap_chain_error hinline htexts hresult
        exact ⟨_, congrArg Except.error he⟩

end

end VectorVrl.Proofs.RemapChain
