import Mathlib.Algebra.Order.Group.Int
import Mathlib.Data.List.Lex
import Mathlib.Data.Rat.Defs
import VectorVrl.Lib.Greatest
import VectorVrl.Lib.Matches
import VectorVrl.PyInt
import VectorVrl.Runner

namespace VectorVrl
open Lib.Greatest Lib.Matches

inductive PinError where
  | runtimeError (text : String)
  | valueError
deriving DecidableEq, Repr

/-- A time of the clock, in microseconds. -/
abbrev DateTime := Int

/-- What `check` reports; the tag it warns of is one that the pin is behind. -/
inductive PinCheck where
  | noneCleared
  | stale (dockerTag latest : List Char)
  | current (latest : List Char)
deriving DecidableEq, Repr

structure PinDay where
  tags : List (List Char)
  releasePublishedAt : List Char → Option DateTime
  now : DateTime

def cooldownDays : ℚ := 7

def removePrefix (start text : List Char) : List Char :=
  if start <+: text then text.drop start.length else text

def removeSuffix (ending text : List Char) : List Char :=
  if ending <:+ text then text.take (text.length - ending.length) else text

def debian : List Char := "-debian".toList

/-- The first release published long enough before `now`; one without a date is skipped. -/
def firstClearedRelease :
    List (List Char × Option DateTime) → (now : DateTime) → Option (List Char)
  | [], _ => none
  | (tag, publishedAt) :: rest, now =>
    match publishedAt with
    | none => firstClearedRelease rest now
    | some released =>
      let ageDays : ℚ := (now - released : Int) / 1000000 / 86400
      if ageDays ≥ cooldownDays then some tag else firstClearedRelease rest now

def pinPattern : Pattern Char (List Char) := .delimited "_VECTOR_TAG = \"".toList '"'

/-- The tag that conftest.py pins, which is read with every line end a newline. -/
def currentDockerTag (conftest : List Char) : Option (List Char) :=
  (pinPattern.first (universalNewlines conftest)).map fun found => found.2.1

def newTag (latest : List Char) : List Char := removePrefix ['v'] latest ++ debian

def repinned (latest conftest : List Char) : List Char :=
  pinPattern.sub (pinPattern.spell (newTag latest)) (universalNewlines conftest)

/-- The file once `new_src` is written, which it is where it is not what was read. The
system's own line end is taken to be a newline. -/
def written (latest conftest : List Char) : List Char :=
  if repinned latest conftest = universalNewlines conftest then conftest
  else repinned latest conftest

section
variable [chars : PyChars]

def isNumber (text : List Char) : Bool :=
  !text.isEmpty && text.all fun c => (chars.decimal c).isSome

def isVersion (text : List Char) : Bool :=
  (versionParts text).length = 3 && (versionParts text).all isNumber

/-- What `VECTOR_TAG_RE` matches; its `$` also stands before a newline at the end. -/
def isVectorTag (tag : List Char) : Bool :=
  ['v'] <+: tag && isVersion (removeSuffix ['\n'] (tag.drop 1))

def versionTuple (tag : List Char) : Option (List Int) := versionNumbers (removePrefix ['v'] tag)

def tagKey (tag : List Char) : List Int := (versionTuple tag).getD []

def productTags (tags : List (List Char)) : List (List Char) := tags.filter isVectorTag

def tagsNewestFirst (tags : List (List Char)) : Except PinError (List (List Char)) :=
  if productTags tags = [] then
    .error (.runtimeError "no vX.Y.Z tags found on vectordotdev/vector - check the filter")
  else if (productTags tags).all fun tag => (versionTuple tag).isSome then
    .ok (descending tagKey (productTags tags))
  else .error .valueError

def latestVectorVersion (tags : List (List Char))
    (releasePublishedAt : List Char → Option DateTime) (now : DateTime) :
    Except PinError (Option (List Char)) :=
  (tagsNewestFirst tags).map fun newest => newest.findSome? fun tag =>
    firstClearedRelease [(tag, releasePublishedAt tag)] now

def pinVersion (dockerTag : List Char) : Option (List Int) :=
  versionTuple ('v' :: removeSuffix debian dockerTag)

def update (tags : List (List Char)) (releasePublishedAt : List Char → Option DateTime)
    (now : DateTime) (conftest : List Char) : Except PinError (List Char) :=
  match latestVectorVersion tags releasePublishedAt now with
  | .error e => .error e
  | .ok none => .ok conftest
  | .ok (some latest) =>
    match currentDockerTag conftest with
    | none => .ok (written latest conftest)
    | some dockerTag =>
      match pinVersion dockerTag, versionTuple latest with
      | some pinned, some version =>
        if pinned ≥ version then .ok conftest else .ok (written latest conftest)
      | _, _ => .error .valueError

/-- Where the pin is behind the latest version, `check` warns; it never writes. -/
def check (tags : List (List Char)) (releasePublishedAt : List Char → Option DateTime)
    (now : DateTime) (conftest : List Char) : Except PinError PinCheck :=
  match latestVectorVersion tags releasePublishedAt now with
  | .error e => .error e
  | .ok none => .ok .noneCleared
  | .ok (some latest) =>
    match currentDockerTag conftest with
    | none => .ok (.current latest)
    | some dockerTag =>
      match pinVersion dockerTag, versionTuple latest with
      | some pinned, some version =>
        if pinned < version then .ok (.stale dockerTag latest) else .ok (.current latest)
      | _, _ => .error .valueError

def updateOn (conftest : List Char) (day : PinDay) : List Char :=
  match update day.tags day.releasePublishedAt day.now conftest with
  | .ok text => text
  | .error _ => conftest

def hasCleared (releasePublishedAt : List Char → Option DateTime) (now : DateTime)
    (tag : List Char) : Bool :=
  (releasePublishedAt tag).any fun released => released + 7 * 24 * 60 * 60 * 1000000 ≤ now

def checkOn (conftest : List Char) (day : PinDay) : Except PinError PinCheck :=
  check day.tags day.releasePublishedAt day.now conftest

/-- The releases that a run could adopt: none where it raises before it has the latest. -/
def offered (day : PinDay) : List (List Char) :=
  match tagsNewestFirst day.tags with
  | .ok newest => newest.filter (hasCleared day.releasePublishedAt day.now)
  | .error _ => []

/-- A file and the version it pins after it could have adopted some releases: those it had
where none of them is above, else the greatest of them. -/
inductive Follows (offers : List (List Char)) (v : List Int) (conftest : List Char) :
    List Char → List Int → Prop
  | stays : (∀ tag ∈ offers, tagKey tag ≤ v) → Follows offers v conftest conftest v
  | adopts (tag : List Char) : tag ∈ offers → v < tagKey tag →
      (∀ other ∈ offers, tagKey other ≤ tagKey tag) →
      Follows offers v conftest (repinned tag conftest) (tagKey tag)

/-- What `check` says of a day is what `update` would do on it. -/
structure Foretells (conftest : List Char) (day : PinDay) : Prop where
  raises : ∀ e, checkOn conftest day = .error e ↔
    update day.tags day.releasePublishedAt day.now conftest = .error e
  warns : (∃ dockerTag latest, checkOn conftest day = .ok (.stale dockerTag latest)) ↔
    updateOn conftest day ≠ conftest
  names : ∀ dockerTag latest, checkOn conftest day = .ok (.stale dockerTag latest) →
    currentDockerTag conftest = some dockerTag ∧
      currentDockerTag (updateOn conftest day) = some (newTag latest)
  settles : ∀ dockerTag latest,
    checkOn (updateOn conftest day) day ≠ .ok (.stale dockerTag latest)

section
variable (tags : List (List Char)) (releasePublishedAt : List Char → Option DateTime)
  (now : DateTime)

/-- The greatest product tag that has cleared, none if there is none. -/
def IsLatest (latest : Option (List Char)) : Prop :=
  match latest with
  | none => ∀ tag ∈ productTags tags, hasCleared releasePublishedAt now tag = false
  | some latest => latest ∈ productTags tags ∧ hasCleared releasePublishedAt now latest = true ∧
    ∀ tag ∈ productTags tags, hasCleared releasePublishedAt now tag = true →
      ∃ v w, versionTuple tag = some v ∧ versionTuple latest = some w ∧ v ≤ w

def IsGreater (pin : List Char) (latest : Option (List Char)) (newPin : List Char) : Prop :=
  match latest with
  | none => newPin = pin
  | some latest => ∃ v w, pinVersion pin = some v ∧ versionTuple latest = some w ∧
    pinVersion newPin = some (max v w)

/-- An update takes the pin to the greater version and leaves all else as it was. -/
structure PinKept (conftest before pin after : List Char) (latest : Option (List Char))
    (newPin : List Char) : Prop where
  found : latestVectorVersion tags releasePublishedAt now = .ok latest
  greatest : IsLatest tags releasePublishedAt now latest
  agrees : (tagsNewestFirst tags).map (fun newest => firstClearedRelease
    (newest.map fun tag => (tag, releasePublishedAt tag)) now) = .ok latest
  updated : update tags releasePublishedAt now conftest =
    .ok (before ++ (pinPattern.spell newPin ++ after))
  pinned : currentDockerTag (before ++ (pinPattern.spell newPin ++ after)) = some newPin
  greater : IsGreater pin latest newPin
  again : ∀ tags' : List (List Char), tags'.Perm tags →
    update tags' releasePublishedAt now (before ++ (pinPattern.spell newPin ++ after)) =
      .ok (before ++ (pinPattern.spell newPin ++ after))

/-- What an update relies on: `int` reads the versions it compares, and where the
pin is behind, every later match of the pattern is the new pin already and no carriage
return is in the file. -/
structure PinFits (before pin after : List Char) : Prop where
  readable : ∀ tag ∈ productTags tags, versionTuple tag ≠ none
  due : ∀ latest, FirstGreatest tagKey (hasCleared releasePublishedAt now) (productTags tags)
    latest → ∃ pinned, pinVersion pin = some pinned ∧
      (pinned < tagKey latest → (∀ other ∈ pinPattern.found after, other = newTag latest) ∧
        '\r' ∉ before ∧ '\r' ∉ after)

end

end

end VectorVrl
