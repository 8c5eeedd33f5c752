import VectorVrl.Proofs.VectorPin

namespace VectorVrl.Proofs.PinRuns
open Lib.Greatest Lib.Matches Newlines Proofs.VectorPin

theorem current_first {conftest pin : List Char} (h : currentDockerTag conftest = some pin) :
    ∃ before after,
      pinPattern.first (universalNewlines conftest) = some (before, pin, after) := by
  rw [currentDockerTag, Option.map_eq_some_iff] at h
  obtain ⟨⟨before, pin', after⟩, hfirst, heq⟩ := h
  obtain rfl : pin' = pin := heq
  exact ⟨before, after, hfirst⟩

section
variable [PyChars] {day : PinDay} {conftest pin : List Char} {v : List Int}

/-- A day reads all its product tags, one at least, or it raises. -/
theorem day_reads (day : PinDay) :
    (∃ e, tagsNewestFirst day.tags = .error e) ∨
      productTags day.tags ≠ [] ∧ ∀ tag ∈ productTags day.tags, versionTuple tag ≠ none := by
  by_cases hproduct : productTags day.tags = []
  · exact Or.inl ⟨_, by rw [tagsNewestFirst, if_pos hproduct]⟩
  · by_cases hall : (productTags day.tags).all fun tag => (versionTuple tag).isSome
    · rw [List.all_eq_true] at hall
      exact Or.inr ⟨hproduct, fun tag htag => Option.isSome_iff_ne_none.mp (hall tag htag)⟩
    · exact Or.inl ⟨_, by rw [tagsNewestFirst, if_neg hproduct, if_neg hall]⟩

theorem raised_offers {e : PinError} (h : tagsNewestFirst day.tags = .error e) :
    offered day = [] := by
  rw [offered, h]

theorem raised_latest {e : PinError} (h : tagsNewestFirst day.tags = .error e) :
    latestVectorVersion day.tags day.releasePublishedAt day.now = .error e := by
  rw [latestVectorVersion, h]
  rfl

theorem mem_offered (hproduct : productTags day.tags ≠ [])
    (hread : ∀ tag ∈ productTags day.tags, versionTuple tag ≠ none) {tag : List Char} :
    tag ∈ offered day ↔
      tag ∈ productTags day.tags ∧ hasCleared day.releasePublishedAt day.now tag = true := by
  rw [offered, newest_ok hproduct hread]
  exact List.mem_filter.trans (and_congr_left' mem_descending)

/-- A tag that is offered is a product release, a week old, whose version is read. -/
theorem offered_tag {tag : List Char} (h : tag ∈ offered day) :
    isVectorTag tag = true ∧ versionTuple tag = some (tagKey tag) ∧
      hasCleared day.releasePublishedAt day.now tag = true := by
  rcases day_reads day with ⟨e, he⟩ | ⟨hproduct, hread⟩
  · rw [raised_offers he] at h
    cases h
  · obtain ⟨hmem, hcleared⟩ := (mem_offered hproduct hread).mp h
    exact ⟨(List.mem_filter.mp hmem).2, tuple_key (hread tag hmem), hcleared⟩

/-- What a day finds: nothing it could adopt, or the greatest of what it offers. -/
theorem day_latest (hproduct : productTags day.tags ≠ [])
    (hread : ∀ tag ∈ productTags day.tags, versionTuple tag ≠ none) :
    (latestVectorVersion day.tags day.releasePublishedAt day.now = .ok none ∧ offered day = []) ∨
      ∃ latest ∈ offered day, (∀ tag ∈ offered day, tagKey tag ≤ tagKey latest) ∧
        latestVectorVersion day.tags day.releasePublishedAt day.now = .ok (some latest) := by
  cases hfind : (descending tagKey (productTags day.tags)).find?
      (hasCleared day.releasePublishedAt day.now) with
  | none =>
    refine Or.inl ⟨by rw [latest_ok hproduct hread, hfind], ?_⟩
    apply List.eq_nil_iff_forall_not_mem.mpr
    intro tag htag
    obtain ⟨hmem, hcleared⟩ := (mem_offered hproduct hread).mp htag
    rw [find_none hfind hmem] at hcleared
    cases hcleared
  | some latest =>
    have hmem := mem_descending.mp (List.mem_of_find?_eq_some hfind)
    refine Or.inr ⟨latest, (mem_offered hproduct hread).mpr ⟨hmem, List.find?_some hfind⟩, ?_,
      by rw [latest_ok hproduct hread, hfind]⟩
    intro tag htag
    obtain ⟨htag, hcleared⟩ := (mem_offered hproduct hread).mp htag
    exact find_le hfind htag hcleared

/-- The pin of a file that was given a release. -/
theorem repinned_current {tag : List Char} (htag : isVectorTag tag = true)
    (hpin : currentDockerTag conftest = some pin) :
    currentDockerTag (repinned tag conftest) = some (newTag tag) := by
  obtain ⟨before, after, hfirst⟩ := current_first hpin
  rw [currentDockerTag, newlines_kept (repinned_no_return htag conftest), repinned,
    Pattern.first_sub (tag_stable htag), hfirst]
  rfl

/-- The pin of a file stands for the version that it followed the releases to. -/
theorem follows_pinned {offers : List (List Char)} {text : List Char} {w : List Int}
    (htags : ∀ tag ∈ offers, ∃ day, tag ∈ offered day)
    (hpin : currentDockerTag conftest = some pin)
    (hv : pinVersion pin = some v) (h : Follows offers v conftest text w) :
    ∃ pin', currentDockerTag text = some pin' ∧ pinVersion pin' = some w := by
  cases h with
  | stays => exact ⟨pin, hpin, hv⟩
  | adopts tag hmem =>
    obtain ⟨day, hday⟩ := htags tag hmem
    obtain ⟨htag, hversion, _⟩ := offered_tag hday
    exact ⟨newTag tag, repinned_current htag hpin, by rw [new_tag_version htag, hversion]⟩

/-- Two goes at the releases are one at all of them. -/
theorem follows_append {earlier later : List (List Char)} {text text' : List Char}
    {w w' : List Int} (htags : ∀ tag ∈ earlier, ∃ day, tag ∈ offered day)
    (h : Follows earlier v conftest text w) (h' : Follows later w text text' w') :
    Follows (earlier ++ later) v conftest text' w' := by
  cases h with
  | stays hle =>
    cases h' with
    | stays hle' =>
      apply Follows.stays
      exact List.forall_mem_append.mpr ⟨hle, hle'⟩
    | adopts tag hmem hlt hgreatest =>
      apply Follows.adopts tag (List.mem_append_right _ hmem) hlt
      refine List.forall_mem_append.mpr ⟨?_, hgreatest⟩
      exact fun other hother => le_trans (hle other hother) (le_of_lt hlt)
  | adopts tag hmem hlt hgreatest =>
    cases h' with
    | stays hle' =>
      apply Follows.adopts tag (List.mem_append_left _ hmem) hlt
      exact List.forall_mem_append.mpr ⟨hgreatest, hle'⟩
    | adopts tag' hmem' hlt' hgreatest' =>
      obtain ⟨day, hday⟩ := htags tag hmem
      -- The second replacement meets the pins where the first one has left them.
      have htag := (offered_tag hday).1
      have htwice : repinned tag' (repinned tag conftest) = repinned tag' conftest := by
        rw [repinned, newlines_kept (repinned_no_return htag conftest)]
        exact Pattern.sub_sub (tag_stable htag) _ _
      rw [htwice]
      apply Follows.adopts tag' (List.mem_append_right _ hmem') (lt_trans hlt hlt')
      refine List.forall_mem_append.mpr ⟨?_, hgreatest'⟩
      exact fun other hother => le_trans (hgreatest other hother) (le_of_lt hlt')

/-- A run of `update` follows the releases of its day. -/
theorem day_follows (day : PinDay) (hpin : currentDockerTag conftest = some pin)
    (hv : pinVersion pin = some v) :
    ∃ w, Follows (offered day) v conftest (updateOn conftest day) w := by
  rcases day_reads day with ⟨e, he⟩ | ⟨hproduct, hread⟩
  · rw [updateOn, update, raised_latest he, raised_offers he]
    exact ⟨v, Follows.stays (List.forall_mem_nil _)⟩
  · rw [updateOn, update]
    rcases day_latest hproduct hread with ⟨hlatest, hnil⟩ | ⟨latest, hoffered, hle, hlatest⟩
    · rw [hlatest, hnil]
      exact ⟨v, Follows.stays (List.forall_mem_nil _)⟩
    · obtain ⟨htag, hversion, _⟩ := offered_tag hoffered
      obtain ⟨before, after, hfirst⟩ := current_first hpin
      simp only [hlatest, hpin, hv, hversion, ge_iff_le]
      rcases lt_or_ge v (tagKey latest) with hlt | hge
      · rw [if_neg (not_le_of_gt hlt), written_behind htag hversion hfirst hv hlt]
        exact ⟨_, Follows.adopts latest hoffered hlt hle⟩
      · rw [if_pos hge]
        exact ⟨v, Follows.stays fun tag htag => le_trans (hle tag htag) hge⟩

/-- Over any days, in whatever order they come, a file either stays as it was or has all its
pins at the greatest release that any of the days offered, and its pin says which. -/
theorem pin_follows_releases (days : List PinDay)
    (hpin : currentDockerTag conftest = some pin)
    (hv : pinVersion pin = some v) :
    ∃ newPin w, Follows (days.flatMap offered) v conftest (days.foldl updateOn conftest) w ∧
      currentDockerTag (days.foldl updateOn conftest) = some newPin ∧
      pinVersion newPin = some w := by
  induction days generalizing conftest pin v with
  | nil => exact ⟨pin, v, Follows.stays (List.forall_mem_nil _), hpin, hv⟩
  | cons day days ih =>
    have htags : ∀ tag ∈ offered day, ∃ day, tag ∈ offered day := fun tag htag => ⟨day, htag⟩
    obtain ⟨w, hday⟩ := day_follows day hpin hv
    obtain ⟨pin', hpin', hw⟩ := follows_pinned htags hpin hv hday
    obtain ⟨newPin, w', hdays, hcurrent, hnew⟩ := ih hpin' hw
    exact ⟨newPin, w', follows_append htags hday hdays, hcurrent, hnew⟩

section
variable {latest : List Char} {w : List Int}

theorem check_compares
    (hlatest : latestVectorVersion day.tags day.releasePublishedAt day.now = .ok (some latest))
    (hpin : currentDockerTag conftest = some pin) (hv : pinVersion pin = some v)
    (hw : versionTuple latest = some w) :
    checkOn conftest day = .ok (if v < w then .stale pin latest else .current latest) := by
  rw [checkOn, check, hlatest]
  simp only [hpin, hv, hw]
  split <;> rfl

theorem update_compares
    (hlatest : latestVectorVersion day.tags day.releasePublishedAt day.now = .ok (some latest))
    (hpin : currentDockerTag conftest = some pin) (hv : pinVersion pin = some v)
    (hw : versionTuple latest = some w) :
    update day.tags day.releasePublishedAt day.now conftest =
      .ok (if v < w then written latest conftest else conftest) := by
  rw [update, hlatest]
  simp only [hpin, hv, hw, ge_iff_le, ← not_lt, ite_not]
  split <;> rfl

end

/-- The two agree on a day when nothing is written, if `check` does not warn of it. -/
theorem foretells_still
    (hraises : ∀ e, checkOn conftest day = .error e ↔
      update day.tags day.releasePublishedAt day.now conftest = .error e)
    (hstay : updateOn conftest day = conftest)
    (hquiet : ∀ dockerTag latest, checkOn conftest day ≠ .ok (.stale dockerTag latest)) :
    Foretells conftest day where
  raises := hraises
  warns := by
    constructor
    · intro hwarns
      obtain ⟨dockerTag, latest, h⟩ := hwarns
      exact absurd h (hquiet dockerTag latest)
    · exact fun h => absurd hstay h
  names dockerTag latest h := absurd h (hquiet dockerTag latest)
  settles := by
    rw [hstay]
    exact hquiet

theorem foretells_raised {e : PinError} (hcheck : checkOn conftest day = .error e)
    (hupdate : update day.tags day.releasePublishedAt day.now conftest = .error e) :
    Foretells conftest day := by
  apply foretells_still
  · exact fun e' => by rw [hcheck, hupdate, Except.error.injEq, Except.error.injEq]
  · rw [updateOn, hupdate]
  · rw [hcheck]
    exact fun _ _ h => nomatch h

theorem foretells_quiet {report : PinCheck} (hcheck : checkOn conftest day = .ok report)
    (hupdate : update day.tags day.releasePublishedAt day.now conftest = .ok conftest)
    (hquiet : ∀ dockerTag latest, report ≠ .stale dockerTag latest) : Foretells conftest day := by
  apply foretells_still
  · rw [hcheck, hupdate]
    exact fun e => iff_of_false (fun h => nomatch h) (fun h => nomatch h)
  · rw [updateOn, hupdate]
  · intro dockerTag latest h
    rw [hcheck, Except.ok.injEq] at h
    exact hquiet dockerTag latest h

/-- Where the pin is behind, `check` says which release `update` takes it to. -/
theorem foretells_behind {latest : List Char} {w : List Int}
    (hlatest : latestVectorVersion day.tags day.releasePublishedAt day.now = .ok (some latest))
    (htag : isVectorTag latest = true) (hw : versionTuple latest = some w)
    (hpin : currentDockerTag conftest = some pin) (hv : pinVersion pin = some v)
    (hlt : v < w) : Foretells conftest day := by
  have hcheck := check_compares hlatest hpin hv hw
  have hupdate := update_compares hlatest hpin hv hw
  obtain ⟨before, after, hfirst⟩ := current_first hpin
  have hkey : versionTuple latest = some (tagKey latest) :=
    tuple_key (hw.symm ▸ Option.some_ne_none w)
  have hlt' : v < tagKey latest := Option.some.inj (hw.symm.trans hkey) ▸ hlt
  rw [if_pos hlt] at hcheck hupdate
  rw [written_behind htag hkey hfirst hv hlt'] at hupdate
  have hmoved : updateOn conftest day = repinned latest conftest := by rw [updateOn, hupdate]
  have hcurrent := repinned_current htag hpin
  have hnew : pinVersion (newTag latest) = some w := by rw [new_tag_version htag, hw]
  constructor
  · rw [hcheck, hupdate]
    exact fun e => iff_of_false (fun h => nomatch h) (fun h => nomatch h)
  · refine ⟨fun _ => ?_, fun _ => ⟨pin, latest, hcheck⟩⟩
    rw [hmoved]
    intro hsame
    -- The two pins stand for different versions.
    rw [hsame, hpin, Option.some.injEq] at hcurrent
    rw [hcurrent, hnew, Option.some.injEq] at hv
    exact ne_of_gt hlt hv
  · intro dockerTag other h
    rw [hcheck, Except.ok.injEq, PinCheck.stale.injEq] at h
    rw [hmoved, ← h.1, ← h.2]
    exact ⟨hpin, hcurrent⟩
  · intro dockerTag other h
    rw [hmoved, check_compares hlatest hcurrent hnew hw, if_neg (lt_irrefl w)] at h
    cases h

/-- On any day and file `check` raises when `update` does, warns when it would write, names
the release it would pin, and has nothing more to warn of once it has. -/
theorem check_foretells (conftest : List Char) (day : PinDay) : Foretells conftest day := by
  rcases day_reads day with ⟨e, he⟩ | ⟨hproduct, hread⟩
  · have hlatest := raised_latest he
    exact foretells_raised (by rw [checkOn, check, hlatest]) (by rw [update, hlatest])
  · rcases day_latest hproduct hread with ⟨hlatest, _⟩ | ⟨latest, hoffered, _, hlatest⟩
    · have hcheck : checkOn conftest day = .ok .noneCleared := by rw [checkOn, check, hlatest]
      exact foretells_quiet hcheck (by rw [update, hlatest]) (by simp)
    · obtain ⟨htag, hw, _⟩ := offered_tag hoffered
      cases hpin : currentDockerTag conftest with
      | none =>
        have hsame : written latest conftest = conftest := by
          rw [written, repinned, Pattern.sub_unmatched (Option.map_eq_none_iff.mp hpin),
            if_pos rfl]
        have hcheck : checkOn conftest day = .ok (.current latest) := by
          simp only [checkOn, check, hlatest, hpin]
        exact foretells_quiet hcheck (by simp only [update, hlatest, hpin, hsame]) (by simp)
      | some pin =>
        cases hv : pinVersion pin with
        | none =>
          have hcheck : checkOn conftest day = .error .valueError := by
            simp only [checkOn, check, hlatest, hpin, hv]
          exact foretells_raised hcheck (by simp only [update, hlatest, hpin, hv])
        | some v =>
          rcases lt_or_ge v (tagKey latest) with hlt | hge
          · exact foretells_behind hlatest htag hw hpin hv hlt
          · have hcheck := check_compares hlatest hpin hv hw
            have hupdate := update_compares hlatest hpin hv hw
            rw [if_neg (not_lt_of_ge hge)] at hcheck hupdate
            exact foretells_quiet hcheck hupdate (by simp)

end

section
local instance : PyChars := asciiChars

def releaseDay : PinDay where
  tags := releaseTags
  releasePublishedAt _ := some 0
  now := 30 * 24 * 60 * 60 * 1000000

theorem pin_line_follows :
    ∃ newPin w, Follows ([releaseDay, releaseDay].flatMap offered) [0, 60, 0] pinLine
        ([releaseDay, releaseDay].foldl updateOn pinLine) w ∧
      currentDockerTag ([releaseDay, releaseDay].foldl updateOn pinLine) = some newPin ∧
      pinVersion newPin = some w := by
  have hpin : currentDockerTag pinLine = some "0.60.0-debian".toList := by decide +kernel
  exact pin_follows_releases [releaseDay, releaseDay] hpin (by decide +kernel)

end

end VectorVrl.Proofs.PinRuns
