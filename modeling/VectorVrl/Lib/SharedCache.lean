import VectorVrl.Lib.OrderedDict

namespace Lib.SharedCache
open Lib.OrderedDict

variable {κ ε α : Type*}

/-- What a name gives that has a content of its own, or else is read. -/
def valueAt (slots : κ → Option α) (read : κ → Except ε α) (name : κ) : Except ε α :=
  match slots name with
  | some content => .ok content
  | none => read name

section
variable {slots : κ → Option α} {name : κ}

theorem value_some {content : α} (h : slots name = some content) (read : κ → Except ε α) :
    valueAt slots read name = .ok content := by
  rw [valueAt, h]

theorem value_none (h : slots name = none) (read : κ → Except ε α) :
    valueAt slots read name = read name := by
  rw [valueAt, h]

end

variable [DecidableEq κ]

/-- Objects by their numbers, and a cache that gives names objects of their own. -/
structure Store (κ α : Type*) [DecidableEq κ] where
  objects : List α
  cache : Dict κ Nat
  inside : ∀ name ref, cache.get? name = some ref → ref < objects.length
  apart : ∀ name name' ref, cache.get? name = some ref → cache.get? name' = some ref → name = name'

namespace Store

def empty : Store κ α where
  objects := []
  cache := .empty
  inside _ _ h := nomatch h
  apart _ _ _ h := nomatch h

/-- Make an object and give it to a name. -/
def put (s : Store κ α) (name : κ) (content : α) : Store κ α where
  objects := s.objects ++ [content]
  cache := s.cache.set name s.objects.length
  inside name' ref h := by
    rw [Dict.get_set] at h
    rw [List.length_append, List.length_singleton]
    split at h
    · cases h
      exact Nat.lt_succ_self _
    · exact Nat.lt_succ_of_lt (s.inside name' ref h)
  apart name' name'' ref h h' := by
    rw [Dict.get_set] at h h'
    by_cases hname : name' = name
    · by_cases hname' : name'' = name
      · exact hname.trans hname'.symm
      · rw [if_pos hname, Option.some.injEq] at h
        rw [if_neg hname', ← h] at h'
        exact absurd (s.inside _ _ h') (Nat.lt_irrefl _)
    · rw [if_neg hname] at h
      by_cases hname' : name'' = name
      · rw [if_pos hname', Option.some.injEq] at h'
        rw [← h'] at h
        exact absurd (s.inside _ _ h) (Nat.lt_irrefl _)
      · rw [if_neg hname'] at h'
        exact s.apart _ _ _ h h'

/-- The object of a name and its content, made from what is read if the name has none yet. -/
def load (s : Store κ α) (name : κ) (read : Except ε α) : Store κ α × Except ε (Nat × α) :=
  match h : s.cache.get? name with
  | some ref => (s, .ok (ref, s.objects.get ⟨ref, s.inside name ref h⟩))
  | none =>
    match read with
    | .error e => (s, .error e)
    | .ok content => (s.put name content, .ok (s.objects.length, content))

/-- Change the content of an object where it is. -/
def change (s : Store κ α) (ref : Nat) (f : α → α) : Store κ α where
  objects := s.objects.modify ref f
  cache := s.cache
  inside name ref' h := by
    rw [List.length_modify]
    exact s.inside name ref' h
  apart := s.apart

/-- The content of a name's object. -/
def slot (s : Store κ α) (name : κ) : Option α := (s.cache.get? name).bind (s.objects[·]?)

end Store

/-- The contents after some names are asked for, each read the first time if it can be. -/
def opened (slots : κ → Option α) (read : κ → Except ε α) (names : List κ) (name : κ) : Option α :=
  if name ∈ names then (valueAt slots read name).toOption else slots name

section
variable {slots : κ → Option α} {read : κ → Except ε α} {names : List κ} {name : κ}

theorem opened_mem (h : name ∈ names) :
    opened slots read names name = (valueAt slots read name).toOption := if_pos h

theorem opened_other (h : name ∉ names) : opened slots read names name = slots name := if_neg h

/-- Asking for names does not change what a name gives, as long as they read the same. -/
theorem value_opened (slots : κ → Option α) (read : κ → Except ε α) (names : List κ) (name : κ) :
    valueAt (opened slots read names) read name = valueAt slots read name := by
  by_cases hmem : name ∈ names
  · cases hvalue : valueAt slots read name with
    | ok content => exact value_some ((opened_mem hmem).trans (by rw [hvalue]; rfl)) read
    | error e =>
      rw [value_none ((opened_mem hmem).trans (by rw [hvalue]; rfl)) read, ← hvalue]
      cases hslot : slots name with
      | some content =>
        rw [value_some hslot] at hvalue
        cases hvalue
      | none => exact (value_none hslot read).symm
  · rw [valueAt, opened_other hmem]
    rfl

theorem opened_append (names names' : List κ) :
    opened (opened slots read names) read names' = opened slots read (names ++ names') := by
  funext name
  by_cases h' : name ∈ names'
  · rw [opened_mem h', value_opened, opened_mem (List.mem_append_right _ h')]
  · rw [opened_other h']
    by_cases h : name ∈ names
    · rw [opened_mem h, opened_mem (List.mem_append_left _ h)]
    · have hnot : name ∉ names ++ names' := by simp [h, h']
      rw [opened_other h, opened_other hnot]

theorem opened_nil : opened slots read [] = slots :=
  funext fun _ => opened_other List.not_mem_nil

end

section
variable {s : Store κ α} {name other : κ}

theorem slot_none_iff : s.slot name = none ↔ s.cache.get? name = none := by
  rw [Store.slot]
  cases h : s.cache.get? name with
  | none => exact iff_of_true rfl rfl
  | some ref =>
    apply iff_of_false
    · rw [Option.bind_some, List.getElem?_eq_none_iff, Nat.not_le]
      exact s.inside name ref h
    · exact fun hnone => nomatch hnone

theorem slot_put (s : Store κ α) (name : κ) (content : α) (other : κ) :
    (s.put name content).slot other = if other = name then some content else s.slot other := by
  rw [Store.slot, Store.put, Dict.get_set]
  split
  · rw [Option.bind_some, List.getElem?_concat_length]
  · rw [Store.slot]
    cases h : s.cache.get? other with
    | none => rfl
    | some ref => exact List.getElem?_append_left (s.inside other ref h)

theorem load_cached {ref : Nat} {content : α} (href : s.cache.get? name = some ref)
    (hcontent : s.slot name = some content) (read : Except ε α) :
    s.load name read = (s, .ok (ref, content)) := by
  rw [Store.slot, href, Option.bind_some] at hcontent
  obtain ⟨_, hget⟩ := List.getElem?_eq_some_iff.mp hcontent
  rw [Store.load.eq_def]
  split
  · rename_i found hfound
    obtain rfl : ref = found := Option.some.inj (href.symm.trans hfound)
    exact congrArg (fun value => (s, Except.ok (ref, value))) hget
  · rename_i hnone
    rw [href] at hnone
    cases hnone

theorem load_new (h : s.slot name = none) (read : Except ε α) :
    s.load name read =
      match read with
      | .error e => (s, .error e)
      | .ok content => (s.put name content, .ok (s.objects.length, content)) := by
  rw [slot_none_iff] at h
  rw [Store.load.eq_def]
  split
  · rename_i ref href
    rw [h] at href
    cases href
  · rfl

theorem exists_cached {content : α} (h : s.slot name = some content) :
    ∃ ref, s.cache.get? name = some ref :=
  (Option.bind_eq_some_iff.mp h).imp fun _ href => href.1

/-- Asking for a name reads it if it has no object yet, and changes nothing for another. -/
theorem slot_load (s : Store κ α) (read : κ → Except ε α) (name : κ) :
    (s.load name (read name)).1.slot = opened s.slot read [name] := by
  funext other
  by_cases hother : other = name
  · rw [hother, opened_mem (List.mem_singleton_self name)]
    cases hslot : s.slot name with
    | some content =>
      obtain ⟨ref, href⟩ := exists_cached hslot
      rw [load_cached href hslot, value_some hslot, hslot]
      rfl
    | none =>
      rw [load_new hslot, value_none hslot]
      cases hread : read name with
      | error e => exact hslot
      | ok content => exact (slot_put s name content name).trans (if_pos rfl)
  · have hnot : other ∉ [name] := by simp [hother]
    rw [opened_other hnot]
    cases hslot : s.slot name with
    | some content =>
      obtain ⟨ref, href⟩ := exists_cached hslot
      rw [load_cached href hslot]
    | none =>
      rw [load_new hslot]
      cases hread : read name with
      | error e => rfl
      | ok content => exact (slot_put s name content other).trans (if_neg hother)

theorem load_value (s : Store κ α) (read : κ → Except ε α) (name : κ) :
    (s.load name (read name)).2.map Prod.snd = valueAt s.slot read name := by
  cases hslot : s.slot name with
  | some content =>
    obtain ⟨ref, href⟩ := exists_cached hslot
    rw [load_cached href hslot, value_some hslot]
    rfl
  | none =>
    rw [load_new hslot, value_none hslot]
    cases read name <;> rfl

/-- A name that was asked for gives the object in the cache. -/
theorem load_ref {ref : Nat} {content : α} (s : Store κ α) (name : κ) (read : Except ε α)
    (h : (s.load name read).2 = .ok (ref, content)) :
    (s.load name read).1.cache.get? name = some ref := by
  cases hslot : s.slot name with
  | some old =>
    obtain ⟨ref', href⟩ := exists_cached hslot
    rw [load_cached href hslot] at h ⊢
    cases h
    exact href
  | none =>
    rw [load_new hslot] at h ⊢
    cases read with
    | error e => cases h
    | ok content' =>
      cases h
      exact (Dict.get_set _ _ _ _).trans (if_pos rfl)

/-- A name keeps its object. -/
theorem load_keeps {ref : Nat} (name : κ) (read : Except ε α)
    (h : s.cache.get? other = some ref) : (s.load name read).1.cache.get? other = some ref := by
  cases hslot : s.slot name with
  | some old =>
    obtain ⟨ref', href⟩ := exists_cached hslot
    rw [load_cached href hslot]
    exact h
  | none =>
    have hnone := slot_none_iff.mp hslot
    rw [load_new hslot]
    cases read with
    | error e => exact h
    | ok content =>
      apply (Dict.get_set _ _ _ _).trans
      rw [if_neg, h]
      intro heq
      rw [heq, hnone] at h
      cases h

/-- A change of a name's object is one of that name's content and of no other's. -/
theorem slot_change {ref : Nat} (h : s.cache.get? name = some ref) (f : α → α) (other : κ) :
    (s.change ref f).slot other =
      if other = name then (s.slot name).map f else s.slot other := by
  rw [Store.slot, Store.change]
  split
  · rename_i heq
    rw [heq, h, Store.slot, h, Option.bind_some, Option.bind_some, List.getElem?_modify_eq]
    rfl
  · rename_i hne
    rw [Store.slot]
    cases hother : s.cache.get? other with
    | none => rfl
    | some ref' =>
      have href : ref ≠ ref' := by
        intro heq
        exact hne (s.apart other name ref' hother (heq ▸ h))
      exact List.getElem?_modify_ne f _ href

end

end Lib.SharedCache
