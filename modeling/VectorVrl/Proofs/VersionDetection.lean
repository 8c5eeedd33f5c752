import VectorVrl.VersionDetection

namespace VectorVrl.Proofs.VersionDetection
open Lib.Versions

theorem below_irrefl {α : Type} [Zero α] [LinearOrder α] (a : List (Option α)) : ¬Below a a := by
  rintro ⟨i, x, y, _, hx, hy, hlt⟩
  rw [hx] at hy
  cases hy
  exact lt_irrefl x hlt

theorem slice_subset {α : Type} {n : Int} {items : List α} {a : α} (h : a ∈ sliceTo n items) :
    a ∈ items := by
  unfold sliceTo at h
  split at h <;> exact List.mem_of_mem_take h

theorem slice_all {α : Type} {n : Nat} {items : List α} (h : items.length ≤ n) :
    sliceTo n items = items := by
  rw [sliceTo, if_neg (by omega), Int.toNat_natCast, List.take_of_length_le h]

theorem configured_none : configured none = none := rfl

section
variable [PyChars]

theorem numbers_map {parts : List (List Char)} {numbers : List Int}
    (h : parts.mapM pyInt = some numbers) : parts.map pyInt = numbers.map some := by
  induction parts generalizing numbers with
  | nil =>
    cases h
    rfl
  | cons part parts ih =>
    rw [List.mapM_cons] at h
    cases hpart : pyInt part with
    | none =>
      rw [hpart] at h
      cases h
    | some n =>
      cases hparts : parts.mapM pyInt with
      | none =>
        rw [hpart, hparts] at h
        cases h
      | some more =>
        rw [hpart, hparts] at h
        cases h
        rw [List.map_cons, List.map_cons, hpart, ih hparts]

theorem all_numbers_ne {bound : String} (h : AllNumbers bound.toList) : bound ≠ "" := by
  rintro rfl
  obtain ⟨numbers, hnumbers, _⟩ := h
  cases hnumbers

theorem configured_some {bound : String} (h : AllNumbers bound.toList) :
    configured (some bound) = some bound := by
  rw [configured, Option.filter_some, if_pos (by simpa using all_numbers_ne h)]

/-- A version that cannot be read passes any bounds. -/
theorem unreadable_compatible (detector : VectorVersionDetector) {version : List Char}
    (h : versionNumbers version = none) : isVersionCompatible detector version = true := by
  rw [isVersionCompatible]
  split
  · rfl
  · rw [h]

section
variable {detector : VectorVersionDetector} {version : List Char} {numbers : List Int}

/-- The check compares the numbers as lists. -/
theorem compatible_iff (hwell : detector.WellFormed) (h : versionNumbers version = some numbers) :
    isVersionCompatible detector version = true ↔
      (∀ min, detector.minVersion = some min → ∀ m, versionNumbers min.toList = some m →
        ¬numbers < m) ∧
      (∀ max, detector.maxVersion = some max → ∀ m, versionNumbers max.toList = some m →
        ¬m < numbers) := by
  rw [isVersionCompatible, h]
  cases hmin : detector.minVersion with
  | none =>
    cases hmax : detector.maxVersion with
    | none => simp [configured_none]
    | some max =>
      have hnumbers := hwell.max max hmax
      obtain ⟨m, hm, _⟩ := id hnumbers
      simp [configured_some hnumbers, configured_none, boundExceeded, hm]
  | some min =>
    have hnumbers := hwell.min min hmin
    obtain ⟨m, hm, _⟩ := id hnumbers
    cases hmax : detector.maxVersion with
    | none =>
      rcases lt_or_ge numbers m with hlt | hle
      · simp [configured_some hnumbers, configured_none, boundExceeded, hm, hlt]
      · simp [configured_some hnumbers, configured_none, boundExceeded, hm, not_lt.mpr hle, hle]
    | some max =>
      have hnumbers' := hwell.max max hmax
      obtain ⟨m', hm', _⟩ := id hnumbers'
      rcases lt_or_ge numbers m with hlt | hle
      · simp [configured_some hnumbers, configured_some hnumbers', boundExceeded, hm, hlt]
      · simp [configured_some hnumbers, configured_some hnumbers', boundExceeded, hm, hm',
          not_lt.mpr hle, hle]

theorem not_below_of_numbers {a b : List Char} {l m : List Int} (ha : versionNumbers a = some l)
    (hb : versionNumbers b = some m) (hpos : ∀ n ∈ l, 0 ≤ n) (h : ¬l < m) : ¬VersionBelow a b := by
  rw [VersionBelow, numbers_map ha, numbers_map hb]
  exact fun hbelow => h (lt_of_below hpos hbelow)

/-- What passes the check, in numbers throughout, is within the bounds. -/
theorem within_of_compatible (hwell : detector.WellFormed) (hall : AllNumbers version)
    (h : isVersionCompatible detector version = true) : detector.Within version := by
  obtain ⟨numbers, hnumbers, hpos⟩ := hall
  obtain ⟨hmin, hmax⟩ := (compatible_iff hwell hnumbers).mp h
  constructor
  · intro min hset
    obtain ⟨m, hm, _⟩ := hwell.min min hset
    exact not_below_of_numbers hnumbers hm hpos (hmin min hset m hm)
  · intro max hset
    obtain ⟨m, hm, hmpos⟩ := hwell.max max hset
    exact not_below_of_numbers hm hnumbers hmpos (hmax max hset m hm)

/-- What is within the bounds passes the check, unless it is a bound but for zeros. -/
theorem compatible_of_within (hwell : detector.WellFormed)
    (hread : versionNumbers version = none ∨ AllNumbers version)
    (hwithin : detector.Within version) (hapart : ¬detector.ZerosApart version) :
    isVersionCompatible detector version = true := by
  rcases hread with hnone | ⟨numbers, hnumbers, hpos⟩
  · exact unreadable_compatible detector hnone
  rw [compatible_iff hwell hnumbers]
  constructor
  · intro min hset m hm hlt
    obtain ⟨m', hm', hmpos⟩ := hwell.min min hset
    obtain rfl : m = m' := Option.some.inj (hm.symm.trans hm')
    have hbelow := hwithin.min min hset
    rw [VersionBelow, numbers_map hnumbers, numbers_map hm] at hbelow
    obtain ⟨zeros, hne, hzeros, heq⟩ := zeros_of_lt hmpos hlt hbelow
    exact hapart ⟨numbers, min, m, zeros, hnumbers, Or.inl hset, hm, hne, hzeros, Or.inl heq⟩
  · intro max hset m hm hlt
    have hbelow := hwithin.max max hset
    rw [VersionBelow, numbers_map hnumbers, numbers_map hm] at hbelow
    obtain ⟨zeros, hne, hzeros, heq⟩ := zeros_of_lt hpos hlt hbelow
    exact hapart ⟨numbers, max, m, zeros, hnumbers, Or.inr hset, hm, hne, hzeros, Or.inr heq⟩

end

section
variable {detector : VectorVersionDetector} {releases : List Release} {tag : String}

theorem mem_compatible {count : Option Int}
    (h : tag ∈ getCompatibleVersions detector releases count) :
    tag ∈ versionTags releases ∧ isVersionCompatible detector (tagVersion tag) = true :=
  List.mem_filter.mp (slice_subset h)

theorem all_compatible (hmem : tag ∈ versionTags releases)
    (h : isVersionCompatible detector (tagVersion tag) = true) :
    tag ∈ getCompatibleVersions detector releases (some releases.length) := by
  have hlength : (versionTags releases).length ≤ releases.length := by
    rw [versionTags]
    exact (List.length_filter_le _ _).trans (List.length_map _).le
  have hpos : releases.length ≠ 0 := by
    intro hzero
    rw [List.eq_nil_of_length_eq_zero hzero] at hmem
    cases hmem
  simp only [getCompatibleVersions, Option.getD_some, Int.natCast_eq_zero, if_neg hpos]
  rw [slice_all ((List.length_filter_le _ _).trans hlength), List.mem_filter]
  exact ⟨hmem, h⟩

theorem latest_find (detector : VectorVersionDetector) (releases : List Release) :
    getLatestCompatibleVersion detector releases =
      (versionTags releases).find? fun tag => isVersionCompatible detector (tagVersion tag) := by
  simp only [getLatestCompatibleVersion, getCompatibleVersions, Option.getD_some]
  rw [if_neg (by decide), show sliceTo 1 _ = List.take 1 _ from rfl, List.head?_take,
    if_neg (by decide), List.head?_filter]

/-- With the newest first, the first that passes is below none that passes. -/
theorem latest_not_below (hnewest : NewestFirst releases) (hmem : tag ∈ versionTags releases)
    (h : isVersionCompatible detector (tagVersion tag) = true) :
    ∃ latest, getLatestCompatibleVersion detector releases = some latest ∧
      ¬VersionBelow (tagVersion latest) (tagVersion tag) := by
  cases hlatest : getLatestCompatibleVersion detector releases with
  | none =>
    rw [latest_find, List.find?_eq_none] at hlatest
    exact absurd h (hlatest tag hmem)
  | some latest =>
    refine ⟨latest, rfl, ?_⟩
    rw [latest_find, List.find?_eq_some_iff_append] at hlatest
    obtain ⟨_, before, after, hsplit, hbefore⟩ := hlatest
    rw [NewestFirst, hsplit, List.pairwise_append, List.pairwise_cons] at hnewest
    rw [hsplit, List.mem_append, List.mem_cons] at hmem
    rcases hmem with hmem | rfl | hmem
    · have hnot := hbefore tag hmem
      rw [h] at hnot
      cases hnot
    · apply below_irrefl
    · exact hnewest.2.1.1 tag hmem

end

/-- What is detected keeps to the bounds but for tags that cannot be read, which
pass any; the latest of a list with the newest first is the greatest within them. -/
theorem detected_within {detector : VectorVersionDetector} (hwell : detector.WellFormed)
    (releases : List Release) :
    (∀ count, ∀ tag ∈ getCompatibleVersions detector releases count,
      AllNumbers (tagVersion tag) → detector.Within (tagVersion tag)) ∧
    (∀ tag ∈ versionTags releases, versionNumbers (tagVersion tag) = none →
      tag ∈ getCompatibleVersions detector releases (some releases.length)) ∧
    (NewestFirst releases → ∀ tag ∈ versionTags releases, detector.Within (tagVersion tag) →
      (versionNumbers (tagVersion tag) = none ∨ AllNumbers (tagVersion tag)) →
      ¬detector.ZerosApart (tagVersion tag) →
      ∃ latest, getLatestCompatibleVersion detector releases = some latest ∧
        ¬VersionBelow (tagVersion latest) (tagVersion tag)) := by
  refine ⟨?_, ?_, ?_⟩
  · intro count tag hmem hall
    exact within_of_compatible hwell hall (mem_compatible hmem).2
  · intro tag hmem hnone
    exact all_compatible hmem (unreadable_compatible detector hnone)
  · intro hnewest tag hmem hwithin hread hapart
    exact latest_not_below hnewest hmem (compatible_of_within hwell hread hwithin hapart)

end

local instance asciiTags : PyChars := asciiChars

def tagged (tags : List String) : List Release := tags.map fun tag => ⟨some tag⟩

/-- A tag that cannot be read passes below the least version, the latest is the
first of the list, and a version without its last zero fails its own bound. -/
theorem bounds_missed :
    (getCompatibleVersions ⟨3, some "0.5.0", none⟩ (tagged ["v0.1.0.post1"]) none =
        ["v0.1.0.post1"] ∧
      VersionBelow (tagVersion "v0.1.0.post1") "0.5.0".toList) ∧
    (getLatestCompatibleVersion ⟨3, none, none⟩ (tagged ["v0.46.1", "v0.47.0"]) =
        some "v0.46.1" ∧
      VersionBelow (tagVersion "v0.46.1") (tagVersion "v0.47.0")) ∧
    (getLatestCompatibleVersion ⟨3, some "1.2.0", none⟩ (tagged ["v1.2"]) = none ∧
      VectorVersionDetector.Within ⟨3, some "1.2.0", none⟩ (tagVersion "v1.2")) := by
  refine ⟨⟨by decide +kernel, ?_⟩, ⟨by decide +kernel, ?_⟩, by decide +kernel, ?_⟩
  · have hlow : (versionParts (tagVersion "v0.1.0.post1")).map pyInt =
        [some 0, some 1, some 0, none] := by decide +kernel
    have hhigh : (versionParts "0.5.0".toList).map pyInt = [some 0, some 5, some 0] := by
      decide +kernel
    rw [VersionBelow, hlow, hhigh]
    exact below_tail 0 (below_head (by decide) _ _)
  · have hlow : (versionParts (tagVersion "v0.46.1")).map pyInt =
        [some 0, some 46, some 1] := by decide +kernel
    have hhigh : (versionParts (tagVersion "v0.47.0")).map pyInt =
        [some 0, some 47, some 0] := by decide +kernel
    rw [VersionBelow, hlow, hhigh]
    exact below_tail 0 (below_head (by decide) _ _)
  · have hshort : (versionParts (tagVersion "v1.2")).map pyInt = [some 1, some 2] := by
      decide +kernel
    have hlong : (versionParts "1.2.0".toList).map pyInt = [some 1, some 2, some 0] := by
      decide +kernel
    refine ⟨?_, fun max hmax => nomatch hmax⟩
    rintro min hmin
    cases hmin
    rw [VersionBelow, hshort, hlong]
    rintro ⟨i, x, y, _, hx, hy, hlt⟩
    have hsame : component [some (1 : Int), some 2] i = component [some 1, some 2, some 0] i := by
      rcases i with _ | _ | _ | i <;> rfl
    rw [hsame, hy] at hx
    cases hx
    exact lt_irrefl _ hlt

/-- The first of a list with the newest first is the one to take. -/
theorem newest_detected :
    ∃ latest, getLatestCompatibleVersion ⟨3, some "0.46.0", none⟩
      (tagged ["v0.47.0", "v0.47.0-rc.1", "v0.46.1"]) = some latest ∧
        ¬VersionBelow (tagVersion latest) (tagVersion "v0.46.1") := by
  have htags : versionTags (tagged ["v0.47.0", "v0.47.0-rc.1", "v0.46.1"]) =
      ["v0.47.0", "v0.46.1"] := by decide +kernel
  have hnumbers : versionNumbers (tagVersion "v0.46.1") = some [0, 46, 1] := by decide +kernel
  have hnewer : versionNumbers (tagVersion "v0.47.0") = some [0, 47, 0] := by decide +kernel
  have hbound : versionNumbers "0.46.0".toList = some [0, 46, 0] := by decide +kernel
  have hwell : VectorVersionDetector.WellFormed ⟨3, some "0.46.0", none⟩ := by
    refine ⟨fun min hset => ?_, fun max hset => nomatch hset⟩
    cases hset
    exact ⟨_, hbound, by decide⟩
  refine (detected_within hwell _).2.2 ?_ "v0.46.1" (by decide +kernel)
    ⟨fun min hset => ?_, fun max hset => nomatch hset⟩ (Or.inr ⟨_, hnumbers, by decide⟩) ?_
  · rw [NewestFirst, htags, List.pairwise_pair]
    exact not_below_of_numbers hnewer hnumbers (by decide) (by decide)
  · cases hset
    exact not_below_of_numbers hnumbers hbound (by decide) (by decide)
  · rintro ⟨numbers, bound, m, zeros, hread, hset | hset, hm, _, _, heq⟩
    · cases hset
      rw [hnumbers, Option.some.injEq] at hread
      rw [hbound, Option.some.injEq] at hm
      subst hread hm
      rcases heq with heq | heq <;> cases heq
    · cases hset

end VectorVrl.Proofs.VersionDetection
