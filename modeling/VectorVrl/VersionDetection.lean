import Mathlib.Algebra.Order.Ring.Int
import Mathlib.Data.List.Infix
import VectorVrl.Lib.Versions
import VectorVrl.PyInt

namespace VectorVrl
open Lib.Versions

/-- A release as the API gives it, with the tag if it has one. -/
structure Release where
  tagName : Option String

/-- What the detector is configured with. -/
structure VectorVersionDetector where
  fallbackCount : Int
  minVersion : Option String
  maxVersion : Option String

/-- A bound that is set: an empty one is not. -/
def configured (bound : Option String) : Option String := bound.filter (· ≠ "")

/-- `items[:n]`. -/
def sliceTo {α : Type} (n : Int) (items : List α) : List α :=
  if n < 0 then items.take (items.length - n.natAbs) else items.take n.toNat

/-- The version of a tag: the tag without its first character. -/
def tagVersion (tag : String) : List Char := tag.toList.drop 1

section
variable [chars : PyChars]

/-- What the tag of a development or test version holds. -/
def preReleaseMarks : List String := ["dev", "rc", "alpha", "beta"]

def isStableTag (tag : String) : Bool :=
  ['v'] <+: tag.toList &&
    !preReleaseMarks.any fun x => x.toList <:+: chars.lower tag.toList

def isSemanticVersion (version : List Char) : Bool :=
  let parts := versionParts version
  2 ≤ parts.length && (parts.take 3).all pyIsDigit &&
    (pyInt (parts.getD 0 [])).any (0 ≤ ·) && (pyInt (parts.getD 1 [])).any (0 ≤ ·)

/-- Whether a bound is on that side of the version; none for a `ValueError`. -/
def boundExceeded (outside : List Int → List Int → Bool) (versionParts : List Int) :
    Option String → Option Bool
  | none => some false
  | some bound => (versionNumbers bound.toList).map (outside versionParts)

def isVersionCompatible (detector : VectorVersionDetector) (version : List Char) : Bool :=
  let minVersion := configured detector.minVersion
  let maxVersion := configured detector.maxVersion
  if minVersion = none ∧ maxVersion = none then true
  else
    match versionNumbers version with
    | none => true
    | some versionParts =>
      match boundExceeded (fun version min => version < min) versionParts minVersion with
      | none => true
      | some true => false
      | some false =>
        match boundExceeded (fun version max => version > max) versionParts maxVersion with
        | none => true
        | some exceeded => !exceeded

/-- The tags of a list of releases that are stable and shaped like a version. -/
def versionTags (releases : List Release) : List String :=
  (releases.map fun release => release.tagName.getD "").filter fun tag =>
    isStableTag tag && isSemanticVersion (tagVersion tag)

def getCompatibleVersions (detector : VectorVersionDetector) (releases : List Release)
    (count : Option Int) : List String :=
  let versions := (versionTags releases).filter fun tag =>
    isVersionCompatible detector (tagVersion tag)
  let maxCount := if count.getD 0 = 0 then detector.fallbackCount else count.getD 0
  sliceTo maxCount versions

def getLatestCompatibleVersion (detector : VectorVersionDetector) (releases : List Release) :
    Option String :=
  (getCompatibleVersions detector releases (some 1)).head?

/-- One version is below another, component by component. -/
def VersionBelow (a b : List Char) : Prop :=
  Below ((versionParts a).map pyInt) ((versionParts b).map pyInt)

/-- Every component of the version is a number, and none is negative. -/
def AllNumbers (version : List Char) : Prop :=
  ∃ numbers, versionNumbers version = some numbers ∧ ∀ n ∈ numbers, 0 ≤ n

namespace VectorVersionDetector

/-- The version is neither below the least one nor above the greatest one. -/
structure Within (detector : VectorVersionDetector) (version : List Char) : Prop where
  min : ∀ min, detector.minVersion = some min → ¬VersionBelow version min.toList
  max : ∀ max, detector.maxVersion = some max → ¬VersionBelow max.toList version

/-- The bounds that are given are versions. -/
structure WellFormed (detector : VectorVersionDetector) : Prop where
  min : ∀ min, detector.minVersion = some min → AllNumbers min.toList
  max : ∀ max, detector.maxVersion = some max → AllNumbers max.toList

/-- The version is a bound but for zeros at the end. -/
def ZerosApart (detector : VectorVersionDetector) (version : List Char) : Prop :=
  ∃ numbers bound m zeros, versionNumbers version = some numbers ∧
    (detector.minVersion = some bound ∨ detector.maxVersion = some bound) ∧
    versionNumbers bound.toList = some m ∧ zeros ≠ [] ∧ (∀ z ∈ zeros, z = 0) ∧
    (m = numbers ++ zeros ∨ numbers = m ++ zeros)

end VectorVersionDetector

/-- No release comes after one it is above. -/
def NewestFirst (releases : List Release) : Prop :=
  (versionTags releases).Pairwise fun a b => ¬VersionBelow (tagVersion a) (tagVersion b)

end

end VectorVrl
