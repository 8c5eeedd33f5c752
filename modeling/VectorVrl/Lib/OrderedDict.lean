import Mathlib.Data.List.Basic
import Mathlib.Data.List.Nodup

namespace Lib.OrderedDict

/-- A dict that remembers the order its keys were first set in. -/
structure Dict (κ α : Type*) where
  items : List (κ × α)
  distinct : (items.map Prod.fst).Nodup

namespace Dict
variable {κ α : Type*}

def empty : Dict κ α := ⟨[], List.nodup_nil⟩

def single (k : κ) (v : α) : Dict κ α := ⟨[(k, v)], List.nodup_singleton k⟩

def keys (d : Dict κ α) : List κ := d.items.map Prod.fst

theorem mem_keys_iff {d : Dict κ α} {k : κ} : k ∈ d.keys ↔ ∃ v, (k, v) ∈ d.items := by
  simp [keys]

/-- A key has one value. -/
theorem value_unique {d : Dict κ α} {k : κ} {v w : α} (hv : (k, v) ∈ d.items)
    (hw : (k, w) ∈ d.items) : v = w := by
  have hsame := List.inj_on_of_nodup_map d.distinct hv hw rfl
  exact congrArg Prod.snd hsame

theorem lookup_eq_some_iff [BEq κ] [LawfulBEq κ] {items : List (κ × α)}
    (h : (items.map Prod.fst).Nodup) {k : κ} {v : α} :
    items.lookup k = some v ↔ (k, v) ∈ items := by
  rw [List.lookup_eq_some_iff]
  constructor
  · intro hsplit
    obtain ⟨before, after, rfl, _⟩ := hsplit
    simp
  · intro hmem
    obtain ⟨before, after, rfl⟩ := List.append_of_mem hmem
    refine ⟨before, after, rfl, ?_⟩
    intro entry hentry
    rw [List.map_append, List.nodup_append] at h
    have hne := h.2.2 entry.1 (List.mem_map_of_mem hentry) k (by simp)
    simpa using hne.symm

theorem keys_appended {d : Dict κ α} {k : κ} (h : k ∉ d.keys) (v : α) :
    ((d.items ++ [(k, v)]).map Prod.fst).Nodup := by
  rw [List.map_append]
  refine List.nodup_append.mpr ⟨d.distinct, List.nodup_singleton k, ?_⟩
  intro a ha b hb
  rw [List.map_singleton, List.mem_singleton] at hb
  intro heq
  rw [heq, hb] at ha
  exact h ha

variable [DecidableEq κ]

def get? (d : Dict κ α) (k : κ) : Option α := (d.items.find? (·.1 = k)).map Prod.snd

theorem get_eq_some_iff {d : Dict κ α} {k : κ} {v : α} :
    d.get? k = some v ↔ (k, v) ∈ d.items := by
  rw [get?, Option.map_eq_some_iff]
  constructor
  · intro hsome
    obtain ⟨⟨k', w⟩, hfound, rfl⟩ := hsome
    have hk : k' = k := by simpa using List.find?_some hfound
    subst hk
    exact List.mem_of_find?_eq_some hfound
  · intro hmem
    cases hf : d.items.find? (·.1 = k) with
    | none =>
      have hno := List.find?_eq_none.mp hf _ hmem
      simp at hno
    | some item =>
      obtain ⟨k', w⟩ := item
      have hk : k' = k := by simpa using List.find?_some hf
      subst hk
      exact ⟨_, rfl, value_unique (List.mem_of_find?_eq_some hf) hmem⟩

theorem keys_replaced (d : Dict κ α) (k : κ) (v : α) :
    (d.items.map fun item => if item.1 = k then (k, v) else item).map Prod.fst = d.keys := by
  rw [List.map_map]
  apply List.map_congr_left
  intro item _
  by_cases hk : item.1 = k <;> simp [hk]

/-- Set a key where it stands, or at the end when it is new. -/
def set (d : Dict κ α) (k : κ) (v : α) : Dict κ α :=
  if h : k ∈ d.keys then
    ⟨d.items.map fun item => if item.1 = k then (k, v) else item, by
      rw [keys_replaced]
      exact d.distinct⟩
  else ⟨d.items ++ [(k, v)], keys_appended h v⟩

theorem set_new {d : Dict κ α} {k : κ} (h : k ∉ d.keys) (v : α) :
    (d.set k v).items = d.items ++ [(k, v)] := by
  rw [set, dif_neg h]

theorem mem_set_iff {d : Dict κ α} {k k' : κ} {v w : α} :
    (k', w) ∈ (d.set k v).items ↔ k' = k ∧ w = v ∨ k' ≠ k ∧ (k', w) ∈ d.items := by
  by_cases h : k ∈ d.keys
  · rw [set, dif_pos h, List.mem_map]
    obtain ⟨old, hold⟩ := mem_keys_iff.mp h
    constructor
    · intro hsome
      obtain ⟨item, hitem, heq⟩ := hsome
      by_cases hk : item.1 = k
      · rw [if_pos hk] at heq
        cases heq
        exact Or.inl ⟨rfl, rfl⟩
      · rw [if_neg hk] at heq
        subst heq
        exact Or.inr ⟨hk, hitem⟩
    · intro hor
      rcases hor with ⟨rfl, rfl⟩ | ⟨hk, hitem⟩
      · exact ⟨(k', old), hold, by simp⟩
      · exact ⟨(k', w), hitem, by simp [hk]⟩
  · rw [set_new h, List.mem_append, List.mem_singleton, Prod.mk.injEq]
    constructor
    · intro hor
      rcases hor with hitem | hnew
      · refine Or.inr ⟨?_, hitem⟩
        intro hk
        exact h (hk ▸ mem_keys_iff.mpr ⟨w, hitem⟩)
      · exact Or.inl hnew
    · intro hor
      rcases hor with hnew | ⟨_, hitem⟩
      · exact Or.inr hnew
      · exact Or.inl hitem

theorem get_set (d : Dict κ α) (k k' : κ) (v : α) :
    (d.set k v).get? k' = if k' = k then some v else d.get? k' := by
  apply Option.ext
  intro w
  rw [get_eq_some_iff, mem_set_iff]
  by_cases hk : k' = k
  · simp [hk, eq_comm]
  · simp [hk, get_eq_some_iff]

end Dict

end Lib.OrderedDict
