import Mathlib.Tactic.NormNum
import Mathlib.Tactic.Linarith
import VectorVrl.Lib.Framing
import VectorVrl.Proofs.Newlines
import VectorVrl.VectorPin

namespace VectorVrl.Proofs.VectorPin
open Lib.Greatest Lib.Matches Newlines

/-- The age in days is exact at the week. -/
theorem age_days_iff {now released : Int} :
    ((now - released : Int) : ℚ) / 1000000 / 86400 ≥ cooldownDays ↔
      released + 7 * 24 * 60 * 60 * 1000000 ≤ now := by
  have hscale : ((7 : ℚ) * 86400 * 1000000 ≤ ((now - released : Int) : ℚ)) ↔
      (7 * 86400 * 1000000 : Int) ≤ now - released := by
    exact_mod_cast Iff.rfl
  rw [cooldownDays, ge_iff_le, le_div_iff₀ (by norm_num), le_div_iff₀ (by norm_num), hscale]
  omega

theorem first_cleared_find (releasePublishedAt : List Char → Option DateTime) (now : DateTime)
    (tags : List (List Char)) :
    firstClearedRelease (tags.map fun tag => (tag, releasePublishedAt tag)) now =
      tags.find? (hasCleared releasePublishedAt now) := by
  induction tags with
  | nil => rfl
  | cons tag rest ih =>
    rw [List.map_cons, List.find?_cons]
    cases hdate : releasePublishedAt tag with
    | none =>
      rw [firstClearedRelease, hasCleared, hdate]
      exact ih
    | some released =>
      rw [firstClearedRelease, hasCleared, hdate, Option.any_some, ih]
      by_cases hold : released + 7 * 24 * 60 * 60 * 1000000 ≤ now
      · simp only [age_days_iff, hold, decide_true, if_true]
      · simp only [age_days_iff, hold, decide_false, if_false]

/-- One tag at a time finds what the whole list finds. -/
theorem one_by_one_find (releasePublishedAt : List Char → Option DateTime) (now : DateTime)
    (tags : List (List Char)) :
    (tags.findSome? fun tag => firstClearedRelease [(tag, releasePublishedAt tag)] now) =
      tags.find? (hasCleared releasePublishedAt now) := by
  have hone : ∀ tag, firstClearedRelease [(tag, releasePublishedAt tag)] now =
      [tag].find? (hasCleared releasePublishedAt now) :=
    fun tag => first_cleared_find releasePublishedAt now [tag]
  induction tags with
  | nil => rfl
  | cons tag rest ih =>
    rw [List.findSome?_cons, hone, ih, List.find?_cons, List.find?_cons]
    cases hasCleared releasePublishedAt now tag <;> rfl

theorem remove_suffix_append (text ending : List Char) :
    removeSuffix ending (text ++ ending) = text := by
  rw [removeSuffix, if_pos (List.suffix_append _ _), List.length_append, Nat.add_sub_cancel,
    List.take_left']
  rfl

/-- The pin of a file is found in it where it is found in what is read of it. -/
theorem first_read (conftest : List Char) :
    pinPattern.first (universalNewlines conftest) = (pinPattern.first conftest).map fun found =>
      (universalNewlines found.1, universalNewlines found.2.1, universalNewlines found.2.2) :=
  first_newlines (by decide) (by decide) (by decide) (by decide) (by decide) conftest

theorem current_read {conftest before pin after : List Char}
    (h : pinPattern.first (universalNewlines conftest) = some (before, pin, after)) :
    currentDockerTag conftest = some pin := by
  rw [currentDockerTag, h]
  rfl

theorem current_tag {conftest before pin after : List Char}
    (h : pinPattern.first conftest = some (before, pin, after)) (hreturn : '\r' ∉ pin) :
    currentDockerTag conftest = some pin := by
  rw [currentDockerTag, first_read, h, Option.map_some, Option.map_some, newlines_kept hreturn]

section
variable [PyChars]

theorem decimal_some {text : List Char} (h : isNumber text = true) :
    ∀ c ∈ text, (PyChars.decimal c).isSome = true := by
  rw [isNumber, Bool.and_eq_true, List.all_eq_true] at h
  exact h.2

theorem number_trim {text : List Char} (h : isNumber text = true) : trim text = text := by
  have hspace : ∀ c ∈ text, isWhitespace c ≠ true := by
    intro c hc hspace
    have hsome := decimal_some h c hc
    rw [PyChars.decimal_not_space c hspace] at hsome
    cases hsome
  have hkept : ∀ l : List Char, (∀ c ∈ l, isWhitespace c ≠ true) → l.dropWhile isWhitespace = l := by
    intro l hl
    cases l with
    | nil => rfl
    | cons c rest => rw [List.dropWhile_cons_of_neg (hl c List.mem_cons_self)]
  rw [trim, hkept text hspace, hkept text.reverse (by simpa using hspace), List.reverse_reverse]

theorem number_ne {text : List Char} (h : isNumber text = true) {c : Char} (hc : c.toNat < 0x80)
    (hdigit : c.isDigit = false) : c ∉ text := by
  intro hmem
  have hsome := decimal_some h c hmem
  rw [PyChars.decimal_ascii c hc, hdigit] at hsome
  cases hsome

theorem decimals_length {text : List Char}
    (h : ∀ c ∈ text, (PyChars.decimal c).isSome = true) :
    ∃ digits, text.mapM PyChars.decimal = some digits ∧ digits.length = text.length := by
  induction text with
  | nil => exact ⟨[], rfl, rfl⟩
  | cons c rest ih =>
    rw [List.forall_mem_cons] at h
    obtain ⟨d, hd⟩ := Option.isSome_iff_exists.mp h.1
    obtain ⟨digits, hdigits, hlength⟩ := ih h.2
    refine ⟨d :: digits, ?_, by rw [List.length_cons, hlength, List.length_cons]⟩
    rw [List.mapM_cons, hd, hdigits]
    rfl

/-- A run of digits is read unless it is too long. -/
theorem number_read_iff {text : List Char} (h : isNumber text = true) :
    pyInt text ≠ none ↔ text.length ≤ maxIntDigits := by
  have hsign : splitSign text = (false, text) := by
    cases text with
    | nil => rfl
    | cons c rest =>
      have hminus : c ≠ '-' := by
        rintro rfl
        exact number_ne h (by decide) (by decide) List.mem_cons_self
      have hplus : c ≠ '+' := by
        rintro rfl
        exact number_ne h (by decide) (by decide) List.mem_cons_self
      rw [splitSign, if_neg hminus, if_neg hplus]
  have hgroups : text.splitOn '_' = [text] :=
    List.splitOn_eq_singleton (number_ne h (by decide) (by decide))
  have hne : text.isEmpty = false := by
    rw [isNumber, Bool.and_eq_true] at h
    simpa using h.1
  obtain ⟨digits, hdigits, hlength⟩ := decimals_length (decimal_some h)
  rw [pyInt, number_trim h]
  simp only [hsign, hgroups, List.any_cons, hne, List.any_nil, Bool.or_self, List.flatten_cons,
    List.flatten_nil, List.append_nil, hdigits, Option.bind_some, hlength]
  simp

theorem parts_read_iff {parts : List (List Char)} (h : ∀ part ∈ parts, isNumber part = true) :
    parts.mapM pyInt ≠ none ↔ ∀ part ∈ parts, part.length ≤ maxIntDigits := by
  induction parts with
  | nil => simp
  | cons part rest ih =>
    rw [List.forall_mem_cons] at h
    rw [List.forall_mem_cons, ← ih h.2, ← number_read_iff h.1, List.mapM_cons]
    cases pyInt part <;> cases rest.mapM pyInt <;> simp

/-- The version of a well-formed pin is read unless a number in it is too long. -/
theorem pin_read_iff {version : List Char} (h : isVersion version = true) :
    pinVersion (version ++ debian) ≠ none ↔
      ∀ part ∈ versionParts version, part.length ≤ maxIntDigits := by
  rw [isVersion, Bool.and_eq_true, List.all_eq_true] at h
  rw [pinVersion, remove_suffix_append]
  exact parts_read_iff h.2

theorem version_chars {version : List Char} (h : isVersion version = true) {c : Char}
    (hc : c.toNat < 0x80) (hdigit : c.isDigit = false) (hpoint : c ≠ '.') : c ∉ version := by
  intro hmem
  obtain ⟨part, hpart, hmem⟩ := Lib.Framing.mem_split '.' hpoint hmem
  rw [isVersion, Bool.and_eq_true, List.all_eq_true] at h
  exact number_ne (h.2 part hpart) hc hdigit hmem

/-- A tag that matches starts with a v and holds no quote and no carriage return. -/
theorem vector_tag {tag : List Char} (h : isVectorTag tag = true) :
    ∃ version, tag = 'v' :: version ∧ '"' ∉ version ∧ '\r' ∉ version := by
  rw [isVectorTag, Bool.and_eq_true, decide_eq_true_eq] at h
  obtain ⟨⟨version, rfl⟩, hversion⟩ := h
  rw [show ['v'] ++ version = 'v' :: version from rfl, List.drop_one, List.tail_cons] at hversion
  have hkept : ∀ c ∈ version, c ≠ '\n' → c ∈ removeSuffix ['\n'] version := by
    intro c hc hbreak
    rw [removeSuffix]
    split
    · rename_i hend
      obtain ⟨front, rfl⟩ := hend
      rw [List.mem_append, List.mem_singleton] at hc
      rw [List.length_append, Nat.add_sub_cancel, List.take_left' rfl]
      exact hc.resolve_right hbreak
    · exact hc
  refine ⟨version, rfl, ?_, ?_⟩
  · intro hmem
    exact version_chars hversion (by decide) (by decide) (by decide) (hkept _ hmem (by decide))
  · intro hmem
    exact version_chars hversion (by decide) (by decide) (by decide) (hkept _ hmem (by decide))

theorem tag_stable {latest : List Char} (h : isVectorTag latest = true) :
    pinPattern.Stable (newTag latest) := by
  obtain ⟨version, rfl, hquote, _⟩ := vector_tag h
  have htag : newTag ('v' :: version) = version ++ debian := rfl
  apply Pattern.delimited_stable (by decide)
  · rw [htag]
    exact List.append_ne_nil_of_right_ne_nil _ (by decide)
  · rw [htag, List.mem_append, not_or]
    exact ⟨hquote, by decide⟩

/-- What is written has no carriage return, whatever the file has. -/
theorem repinned_no_return {latest : List Char} (h : isVectorTag latest = true)
    (conftest : List Char) : '\r' ∉ repinned latest conftest := by
  obtain ⟨version, rfl, _, hversion⟩ := vector_tag h
  have htag : newTag ('v' :: version) = version ++ debian := rfl
  intro hmem
  rcases Pattern.mem_sub hmem with hnew | hold
  · rw [htag, pinPattern, Pattern.delimited] at hnew
    simp only [List.mem_append, List.mem_singleton] at hnew
    rcases hnew with hstart | (hnew | hdebian) | hquote
    · exact absurd hstart (by decide)
    · exact hversion hnew
    · exact absurd hdebian (by decide)
    · exact absurd hquote (by decide)
  · exact newlines_no_return conftest hold

theorem new_tag_version {latest : List Char} (h : isVectorTag latest = true) :
    pinVersion (newTag latest) = versionTuple latest := by
  obtain ⟨version, rfl, _⟩ := vector_tag h
  have htag : newTag ('v' :: version) = version ++ debian := rfl
  rw [pinVersion, htag, remove_suffix_append]

section
variable {tags : List (List Char)} {releasePublishedAt : List Char → Option DateTime}
  {now : DateTime} {conftest : List Char}

theorem newest_ok (hproduct : productTags tags ≠ [])
    (hread : ∀ tag ∈ productTags tags, versionTuple tag ≠ none) :
    tagsNewestFirst tags = .ok (descending tagKey (productTags tags)) := by
  have hall : ((productTags tags).all fun tag => (versionTuple tag).isSome) = true := by
    rw [List.all_eq_true]
    intro tag htag
    exact Option.isSome_iff_ne_none.mpr (hread tag htag)
  rw [tagsNewestFirst, if_neg hproduct, if_pos hall]

theorem latest_ok (hproduct : productTags tags ≠ [])
    (hread : ∀ tag ∈ productTags tags, versionTuple tag ≠ none) :
    latestVectorVersion tags releasePublishedAt now =
      .ok ((descending tagKey (productTags tags)).find? (hasCleared releasePublishedAt now)) := by
  rw [latestVectorVersion, newest_ok hproduct hread, Except.map, one_by_one_find]

/-- A version that `int` does not read leaves no latest one. -/
theorem latest_unread {tag : List Char} (htag : tag ∈ productTags tags)
    (hnone : versionTuple tag = none) (latest : Option (List Char)) :
    latestVectorVersion tags releasePublishedAt now ≠ .ok latest := by
  have hproduct : productTags tags ≠ [] := List.ne_nil_of_mem htag
  have hall : ((productTags tags).all fun tag => (versionTuple tag).isSome) ≠ true := by
    rw [ne_eq, List.all_eq_true]
    intro hall
    have hsome := hall tag htag
    rw [hnone] at hsome
    cases hsome
  rw [latestVectorVersion, tagsNewestFirst, if_neg hproduct, if_neg hall]
  intro h
  cases h

theorem tuple_key {tag : List Char} (h : versionTuple tag ≠ none) :
    versionTuple tag = some (tagKey tag) := by
  obtain ⟨v, hv⟩ := Option.ne_none_iff_exists'.mp h
  rw [tagKey, hv, Option.getD_some]

theorem latest_greatest (hread : ∀ tag ∈ productTags tags, versionTuple tag ≠ none)
    {latest : List Char}
    (h : FirstGreatest tagKey (hasCleared releasePublishedAt now) (productTags tags) latest) :
    IsLatest tags releasePublishedAt now (some latest) := by
  refine ⟨h.mem, h.holds, ?_⟩
  intro tag htag hcleared
  exact ⟨_, _, tuple_key (hread tag htag), tuple_key (hread latest h.mem), h.le htag hcleared⟩

/-- Nothing is done where no version that has cleared is above the pinned one. -/
theorem update_stays (hproduct : productTags tags ≠ [])
    (hread : ∀ tag ∈ productTags tags, versionTuple tag ≠ none) {pin : List Char}
    (hpin : currentDockerTag conftest = some pin)
    (hle : ∀ tag ∈ productTags tags, hasCleared releasePublishedAt now tag = true →
      ∃ v, pinVersion pin = some v ∧ tagKey tag ≤ v) :
    update tags releasePublishedAt now conftest = .ok conftest := by
  rw [update, latest_ok hproduct hread]
  cases hfind : (descending tagKey (productTags tags)).find? (hasCleared releasePublishedAt now) with
  | none => rfl
  | some latest =>
    have hmem := mem_descending.mp (List.mem_of_find?_eq_some hfind)
    obtain ⟨v, hv, hge⟩ := hle latest hmem (List.find?_some hfind)
    simp only [hpin, hv, tuple_key (hread latest hmem), ge_iff_le, if_pos hge]

theorem product_perm {again : List (List Char)} (h : again.Perm tags) :
    (productTags again).Perm (productTags tags) := h.filter isVectorTag

/-- Nothing more is done once the pin is not below the greatest. -/
theorem again_stays (hproduct : productTags tags ≠ [])
    (hread : ∀ tag ∈ productTags tags, versionTuple tag ≠ none) {pin : List Char}
    (hpin : currentDockerTag conftest = some pin)
    (hle : ∀ tag ∈ productTags tags, hasCleared releasePublishedAt now tag = true →
      ∃ v, pinVersion pin = some v ∧ tagKey tag ≤ v)
    {again : List (List Char)} (hperm : again.Perm tags) :
    update again releasePublishedAt now conftest = .ok conftest := by
  have hsame := product_perm hperm
  have hmem : ∀ tag, tag ∈ productTags again → tag ∈ productTags tags := fun tag => hsame.mem_iff.mp
  apply update_stays _ _ hpin
  · intro tag htag
    exact hle tag (hmem tag htag)
  · intro hnil
    rw [hnil] at hsame
    exact hproduct hsame.symm.eq_nil
  · intro tag htag
    exact hread tag (hmem tag htag)

variable {before pin after : List Char}

/-- A pin that is not behind is kept with all else. -/
theorem kept_unchanged (hproduct : productTags tags ≠ [])
    (hread : ∀ tag ∈ productTags tags, versionTuple tag ≠ none)
    (hpin : pinPattern.first conftest = some (before, pin, after)) (hreturn : '\r' ∉ pin)
    {latest : Option (List Char)}
    (hfind : (descending tagKey (productTags tags)).find? (hasCleared releasePublishedAt now) =
      latest)
    (hlatest : IsLatest tags releasePublishedAt now latest)
    (hgreater : IsGreater pin latest pin)
    (hle : ∀ tag ∈ productTags tags, hasCleared releasePublishedAt now tag = true →
      ∃ v, pinVersion pin = some v ∧ tagKey tag ≤ v) :
    PinKept tags releasePublishedAt now conftest before pin after latest pin := by
  have htext := (Pattern.first_some hpin).1
  have hcurrent := current_tag hpin hreturn
  constructor
  · rw [latest_ok hproduct hread, hfind]
  · exact hlatest
  · rw [newest_ok hproduct hread, Except.map, first_cleared_find, hfind]
  · rw [← htext]
    exact update_stays hproduct hread hcurrent hle
  · rw [← htext]
    exact hcurrent
  · exact hgreater
  · rw [← htext]
    exact fun again hperm => again_stays hproduct hread hcurrent hle hperm

/-- A file whose pin is behind is written. -/
theorem written_behind {latest : List Char} (htag : isVectorTag latest = true)
    (hversion : versionTuple latest = some (tagKey latest))
    (hpin : pinPattern.first (universalNewlines conftest) = some (before, pin, after))
    {pinned : List Int} (hpinned : pinVersion pin = some pinned) (hlt : pinned < tagKey latest) :
    written latest conftest = repinned latest conftest := by
  have hne : repinned latest conftest ≠ universalNewlines conftest := by
    intro hsame
    -- The two pins stand for different versions.
    have hnew := Pattern.first_sub (tag_stable htag) (universalNewlines conftest)
    rw [← repinned, hsame, hpin, Option.map_some, Option.some.injEq, Prod.mk.injEq,
      Prod.mk.injEq] at hnew
    rw [hnew.2.1, new_tag_version htag, hversion, Option.some.injEq] at hpinned
    exact ne_of_gt hlt hpinned
  rw [written, if_neg hne]

/-- A pin that is behind is replaced in what was read, and with it every later match. -/
theorem update_repins (hproduct : productTags tags ≠ [])
    (hread : ∀ tag ∈ productTags tags, versionTuple tag ≠ none)
    (hpin : pinPattern.first (universalNewlines conftest) = some (before, pin, after))
    {latest : List Char}
    (hfind : (descending tagKey (productTags tags)).find? (hasCleared releasePublishedAt now) =
      some latest)
    {pinned : List Int} (hpinned : pinVersion pin = some pinned) (hlt : pinned < tagKey latest) :
    update tags releasePublishedAt now conftest = .ok (before ++
      (pinPattern.spell (newTag latest) ++
        pinPattern.sub (pinPattern.spell (newTag latest)) after)) := by
  have hmem := mem_descending.mp (List.mem_of_find?_eq_some hfind)
  have hversion := tuple_key (hread latest hmem)
  rw [update, latest_ok hproduct hread, hfind]
  simp only [current_read hpin, hpinned, hversion, ge_iff_le, if_neg (not_le_of_gt hlt)]
  rw [written_behind (List.mem_filter.mp hmem).2 hversion hpin hpinned hlt, repinned,
    Pattern.sub_first _ hpin]

omit [PyChars] in
/-- A file without carriage returns is read as it is. -/
theorem first_as_read (hpin : pinPattern.first conftest = some (before, pin, after))
    (hbefore : '\r' ∉ before) (hreturn : '\r' ∉ pin) (hafter : '\r' ∉ after) :
    pinPattern.first (universalNewlines conftest) = some (before, pin, after) := by
  rw [first_read, hpin, Option.map_some, newlines_kept hbefore, newlines_kept hreturn,
    newlines_kept hafter]

theorem kept_repinned (hproduct : productTags tags ≠ [])
    (hread : ∀ tag ∈ productTags tags, versionTuple tag ≠ none)
    (hpin : pinPattern.first conftest = some (before, pin, after)) (hreturn : '\r' ∉ pin)
    {latest : List Char}
    (hfind : (descending tagKey (productTags tags)).find? (hasCleared releasePublishedAt now) =
      some latest)
    (hgreatest : FirstGreatest tagKey (hasCleared releasePublishedAt now) (productTags tags) latest)
    {pinned : List Int} (hpinned : pinVersion pin = some pinned) (hlt : pinned < tagKey latest)
    (hother : ∀ other ∈ pinPattern.found after, other = newTag latest)
    (hbefore : '\r' ∉ before) (hafter : '\r' ∉ after) :
    PinKept tags releasePublishedAt now conftest before pin after (some latest)
      (newTag latest) := by
  have htag := (List.mem_filter.mp hgreatest.mem).2
  have hstable := tag_stable htag
  have hversion : versionTuple latest = some (tagKey latest) :=
    tuple_key (hread latest hgreatest.mem)
  have hnew : pinVersion (newTag latest) = some (tagKey latest) := by
    rw [new_tag_version htag, hversion]
  have hpin' := first_as_read hpin hbefore hreturn hafter
  have hsub := (Pattern.sub_eq_iff hstable after).mpr hother
  have hupdate := update_repins hproduct hread hpin' hfind hpinned hlt
  rw [hsub] at hupdate
  have hwritten : repinned latest conftest =
      before ++ (pinPattern.spell (newTag latest) ++ after) := by
    rw [repinned, Pattern.sub_first _ hpin', hsub]
  have hkept : universalNewlines (before ++ (pinPattern.spell (newTag latest) ++ after)) =
      before ++ (pinPattern.spell (newTag latest) ++ after) :=
    newlines_kept (hwritten ▸ repinned_no_return htag conftest)
  have hcurrent : currentDockerTag (before ++ (pinPattern.spell (newTag latest) ++ after)) =
      some (newTag latest) := by
    apply current_read
    rw [hkept]
    exact Pattern.first_replaced hstable hpin after
  have hle : ∀ tag ∈ productTags tags, hasCleared releasePublishedAt now tag = true →
      ∃ v, pinVersion (newTag latest) = some v ∧ tagKey tag ≤ v :=
    fun tag hmem hcleared => ⟨_, hnew, hgreatest.le hmem hcleared⟩
  constructor
  · rw [latest_ok hproduct hread, hfind]
  · exact latest_greatest hread hgreatest
  · rw [newest_ok hproduct hread, Except.map, first_cleared_find, hfind]
  · exact hupdate
  · exact hcurrent
  · refine ⟨pinned, tagKey latest, hpinned, hversion, ?_⟩
    rw [hnew, max_eq_right (le_of_lt hlt)]
  · exact fun again hperm => again_stays hproduct hread hcurrent hle hperm

/-- A file that comes out with all but its pin as it was had no carriage return. -/
theorem kept_no_return {latest newPin : List Char} (htag : isVectorTag latest = true)
    (h : repinned latest conftest = before ++ (pinPattern.spell newPin ++ after)) :
    '\r' ∉ before ∧ '\r' ∉ after := by
  have hnone := repinned_no_return htag conftest
  rw [h, List.mem_append, List.mem_append, not_or, not_or] at hnone
  exact ⟨hnone.1, hnone.2.2⟩

/-- An update keeps the pin and the rest of its file exactly when it fits. -/
theorem pin_kept_iff (hset : tags.Nodup) (hproduct : productTags tags ≠ [])
    (hpin : pinPattern.first conftest = some (before, pin, after)) (hreturn : '\r' ∉ pin) :
    (∃ latest newPin, PinKept tags releasePublishedAt now conftest before pin after latest newPin) ↔
      PinFits tags releasePublishedAt now before pin after := by
  have hnodup : (productTags tags).Nodup := hset.filter _
  constructor
  · rintro ⟨latest, newPin, hkept⟩
    have hread : ∀ tag ∈ productTags tags, versionTuple tag ≠ none :=
      fun tag hmem hnone => latest_unread hmem hnone latest hkept.found
    refine ⟨hread, ?_⟩
    intro greatest hgreatest
    have hfound := hkept.found
    rw [latest_ok hproduct hread, Except.ok.injEq] at hfound
    cases latest with
    | none =>
      have hnot := find_none hfound hgreatest.mem
      rw [hgreatest.holds] at hnot
      cases hnot
    | some latest =>
      obtain rfl := (find_descending hnodup hfound).unique hgreatest
      obtain ⟨v, w, hv, _, _⟩ := hkept.greater
      refine ⟨v, hv, ?_⟩
      intro hlt
      have htag := (List.mem_filter.mp hgreatest.mem).2
      have hstable := tag_stable htag
      have hupdated := hkept.updated
      have hfirst := first_read conftest
      rw [hpin, Option.map_some, newlines_kept hreturn] at hfirst
      rw [update_repins hproduct hread hfirst hfound hv hlt, Except.ok.injEq] at hupdated
      have hrepinned : repinned latest conftest = before ++ (pinPattern.spell newPin ++ after) := by
        rw [← hupdated, repinned, Pattern.sub_first _ hfirst]
      obtain ⟨hbefore, hafter⟩ := kept_no_return htag hrepinned
      rw [newlines_kept hbefore, newlines_kept hafter, List.append_cancel_left_eq] at hupdated
      refine ⟨?_, hbefore, hafter⟩
      have hnew : newTag latest = newPin := by
        have hpinned := hkept.pinned
        rw [← hrepinned, currentDockerTag, newlines_kept (repinned_no_return htag conftest),
          repinned, Pattern.first_sub hstable, hfirst, Option.map_some, Option.map_some,
          Option.some.injEq] at hpinned
        exact hpinned
      rw [hnew, List.append_cancel_left_eq] at hupdated
      rw [hnew]
      exact (Pattern.sub_eq_iff (hnew ▸ hstable) after).mp hupdated
  · rintro ⟨hread, hdue⟩
    cases hfind : (descending tagKey (productTags tags)).find?
        (hasCleared releasePublishedAt now) with
    | none =>
      have hnone : ∀ tag ∈ productTags tags, hasCleared releasePublishedAt now tag = false :=
        fun tag hmem => find_none hfind hmem
      refine ⟨none, pin, kept_unchanged hproduct hread hpin hreturn hfind hnone rfl ?_⟩
      intro tag hmem hcleared
      rw [hnone tag hmem] at hcleared
      cases hcleared
    | some latest =>
      have hgreatest := find_descending hnodup hfind
      obtain ⟨pinned, hpinned, hafter⟩ := hdue latest hgreatest
      rcases lt_or_ge pinned (tagKey latest) with hlt | hge
      · obtain ⟨hother, hbefore, hafter⟩ := hafter hlt
        exact ⟨some latest, newTag latest, kept_repinned hproduct hread hpin hreturn hfind hgreatest
          hpinned hlt hother hbefore hafter⟩
      · refine ⟨some latest, pin, kept_unchanged hproduct hread hpin hreturn hfind
          (latest_greatest hread hgreatest) ?_ ?_⟩
        · exact ⟨pinned, _, hpinned, tuple_key (hread latest hgreatest.mem),
            by rw [hpinned, max_eq_left hge]⟩
        · intro tag hmem hcleared
          exact ⟨pinned, hpinned, le_trans (hgreatest.le hmem hcleared) hge⟩

end

end

section
local instance : PyChars := asciiChars

def releaseTags : List (List Char) := ["v0.61.0".toList, "vdev-v0.3.16".toList, "v0.60.0".toList]

theorem release_tags_newest :
    descending tagKey (productTags releaseTags) = ["v0.61.0".toList, "v0.60.0".toList] := by
  have hproduct : productTags releaseTags = ["v0.61.0".toList, "v0.60.0".toList] := by
    decide +kernel
  rw [hproduct, descending, List.mergeSort_of_pairwise (by decide +kernel)]

theorem release_tags_read : ∀ tag ∈ productTags releaseTags, versionTuple tag ≠ none := by
  decide +kernel

def pinLine : List Char := "_VECTOR_TAG = \"0.60.0-debian\"\n".toList

def oldPinLine : List Char := "OLD_VECTOR_TAG = \"0.50.0-debian\"\n".toList

/-- An update rewrites another tag that the pattern matches. -/
theorem other_tag_rewritten :
    update releaseTags (fun _ => some 0) (30 * 24 * 60 * 60 * 1000000) (pinLine ++ oldPinLine) =
      .ok "_VECTOR_TAG = \"0.61.0-debian\"\nOLD_VECTOR_TAG = \"0.61.0-debian\"\n".toList ∧
    ¬∃ latest newPin, PinKept releaseTags (fun _ => some 0) (30 * 24 * 60 * 60 * 1000000)
      (pinLine ++ oldPinLine) [] "0.60.0-debian".toList ('\n' :: oldPinLine) latest newPin := by
  have hpin : pinPattern.first (pinLine ++ oldPinLine) =
      some ([], "0.60.0-debian".toList, '\n' :: oldPinLine) := by decide +kernel
  have hupdate : update releaseTags (fun _ => some 0) (30 * 24 * 60 * 60 * 1000000)
      (pinLine ++ oldPinLine) =
        .ok "_VECTOR_TAG = \"0.61.0-debian\"\nOLD_VECTOR_TAG = \"0.61.0-debian\"\n".toList := by
    have hread : universalNewlines (pinLine ++ oldPinLine) = pinLine ++ oldPinLine :=
      newlines_kept (by decide +kernel)
    rw [update_repins (by decide +kernel) release_tags_read (hread.symm ▸ hpin)
      (show _ = some "v0.61.0".toList by rw [release_tags_newest]; decide +kernel)
      (show _ = some [0, 60, 0] by decide +kernel) (by decide +kernel)]
    decide +kernel
  refine ⟨hupdate, ?_⟩
  rintro ⟨latest, newPin, hkept⟩
  have hupdated := hkept.updated
  rw [hupdate, Except.ok.injEq] at hupdated
  have hpinned := hkept.pinned
  rw [← hupdated] at hpinned
  have hcurrent : currentDockerTag
      "_VECTOR_TAG = \"0.61.0-debian\"\nOLD_VECTOR_TAG = \"0.61.0-debian\"\n".toList =
        some "0.61.0-debian".toList := by decide +kernel
  obtain rfl : "0.61.0-debian".toList = newPin := Option.some.inj (hcurrent.symm.trans hpinned)
  exact absurd hupdated (by decide +kernel)

/-- A pin that is alone goes to the newest release. -/
theorem lone_pin_kept :
    ∃ latest newPin, PinKept releaseTags (fun _ => some 0) (30 * 24 * 60 * 60 * 1000000)
      pinLine [] "0.60.0-debian".toList ['\n'] latest newPin := by
  refine (pin_kept_iff (by decide +kernel) (by decide +kernel) (by decide +kernel)
    (by decide +kernel)).mpr ⟨release_tags_read, ?_⟩
  intro latest _
  refine ⟨[0, 60, 0], by decide +kernel, ?_⟩
  intro _
  refine ⟨?_, by decide, by decide⟩
  intro other hother
  have hnone : pinPattern.found ['\n'] = [] := by decide +kernel
  rw [hnone] at hother
  cases hother

end

end VectorVrl.Proofs.VectorPin
