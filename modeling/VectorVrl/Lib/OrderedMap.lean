import Mathlib.Data.List.Basic
import Mathlib.Data.List.Nodup
import Mathlib.Data.List.OfFn
import Mathlib.Data.List.Sort

namespace Lib.OrderedMap
open Std

/-- Distinct keys in increasing order. -/
structure Keys (κ : Type*) [Ord κ] where
  names : List κ
  sorted : names.Pairwise (fun a b => compare a b = .lt)

def Keys.size {κ : Type*} [Ord κ] (ks : Keys κ) : Nat := ks.names.length

def Keys.name {κ : Type*} [Ord κ] (ks : Keys κ) (i : Fin ks.size) : κ := ks.names.get i

def Keys.find? {κ : Type*} [Ord κ] [DecidableEq κ] (ks : Keys κ) (k : κ) :
    Option (Fin ks.size) := ks.names.finIdxOf? k

/-- Keys with values are equal when they agree name by name. -/
theorem sigma_ext {κ α : Type*} [Ord κ] {ks ls : Keys κ} {f : Fin ks.size → α}
    {g : Fin ls.size → α} (hn : ks.names = ls.names)
    (hf : ∀ i j, ks.name i = ls.name j → f i = g j) :
    (⟨ks, f⟩ : (ks : Keys κ) × (Fin ks.size → α)) = ⟨ls, g⟩ := by
  obtain ⟨names, sorted⟩ := ks
  obtain ⟨names', sorted'⟩ := ls
  cases hn
  congr 1
  funext i
  exact hf i i rfl

section
variable {κ α : Type*} [Ord κ] [LawfulEqOrd κ]

theorem Keys.nodup (ks : Keys κ) : ks.names.Nodup := by
  apply ks.sorted.imp
  intro a b hlt heq
  subst heq
  rw [ReflOrd.compare_self] at hlt
  cases hlt

theorem Keys.name_inj (ks : Keys κ) {i j : Fin ks.size} (h : ks.name i = ks.name j) : i = j :=
  List.nodup_iff_injective_get.mp ks.nodup h

theorem Keys.find_some_iff [DecidableEq κ] (ks : Keys κ) (k : κ) (i : Fin ks.size) :
    ks.find? k = some i ↔ ks.name i = k := by
  constructor
  · intro h
    exact (List.finIdxOf?_eq_some_iff.mp h).1
  · intro h
    refine List.finIdxOf?_eq_some_iff.mpr ⟨h, ?_⟩
    intro j hj he
    exact absurd (ks.name_inj (he.trans h.symm)) (Fin.ne_of_lt hj)

theorem Keys.find_name [DecidableEq κ] (ks : Keys κ) (i : Fin ks.size) :
    ks.find? (ks.name i) = some i := (ks.find_some_iff _ i).mpr rfl

variable [TransOrd κ]

/-- The map that holds one value for each key. -/
def toMap (ks : Keys κ) (field : Fin ks.size → α) : ExtTreeMap κ α compare :=
  ExtTreeMap.ofList (List.ofFn fun i => (ks.name i, field i)) compare

def Keys.ofMap (m : ExtTreeMap κ α compare) : Keys κ := ⟨m.keys, m.ordered_keys⟩

theorem name_mem (m : ExtTreeMap κ α compare) (i : Fin (Keys.ofMap m).size) :
    (Keys.ofMap m).name i ∈ m :=
  ExtTreeMap.mem_keys.mp (List.get_mem m.keys i)

def fieldOf (m : ExtTreeMap κ α compare) (i : Fin (Keys.ofMap m).size) : α :=
  m.get ((Keys.ofMap m).name i) (name_mem m i)

theorem get_field_of (m : ExtTreeMap κ α compare) (i : Fin (Keys.ofMap m).size) :
    m[(Keys.ofMap m).name i]? = some (fieldOf m i) :=
  ExtTreeMap.getElem?_eq_some_getElem (name_mem m i)

theorem find_of_map [DecidableEq κ] (m : ExtTreeMap κ α compare) (k : κ) :
    ((Keys.ofMap m).find? k).map (fieldOf m) = m[k]? := by
  cases hf : (Keys.ofMap m).find? k with
  | some i =>
    have hk := ((Keys.ofMap m).find_some_iff k i).mp hf
    rw [← hk, get_field_of, Option.map_some]
  | none =>
    have hnot : k ∉ m := by
      intro hmem
      obtain ⟨i, hi⟩ := List.mem_iff_get.mp (ExtTreeMap.mem_keys.mpr hmem)
      have hs := ((Keys.ofMap m).find_some_iff k i).mpr hi
      rw [hf] at hs
      cases hs
    rw [ExtTreeMap.getElem?_eq_none hnot, Option.map_none]

theorem get_to_map (ks : Keys κ) (field : Fin ks.size → α) (i : Fin ks.size) :
    (toMap ks field)[ks.name i]? = some (field i) := by
  refine ExtTreeMap.getElem?_ofList_of_mem (k := ks.name i) ReflOrd.compare_self ?_ ?_
  · apply List.pairwise_ofFn.mpr
    intro j k hjk he
    have := ks.name_inj (LawfulEqOrd.eq_of_compare he)
    exact absurd this (Fin.ne_of_lt hjk)
  · exact List.mem_ofFn.mpr ⟨i, rfl⟩

theorem mem_to_map (ks : Keys κ) (field : Fin ks.size → α) (k : κ) :
    k ∈ toMap ks field ↔ k ∈ ks.names := by
  have := Classical.decEq κ
  rw [toMap, ExtTreeMap.mem_ofList]
  have hm : (List.ofFn fun i => (ks.name i, field i)).map Prod.fst = ks.names := by
    rw [List.map_ofFn]
    exact List.ofFn_get ks.names
  rw [hm, List.contains_iff_mem]

theorem keys_to_map (ks : Keys κ) (field : Fin ks.size → α) :
    (toMap ks field).keys = ks.names := by
  have : Antisymm (fun a b : κ => compare a b = .lt) :=
    ⟨fun a b hab hba => absurd hba (OrientedCmp.not_lt_of_lt hab)⟩
  have : Irrefl (fun a b : κ => compare a b = .lt) :=
    ⟨fun a ha => absurd ha (OrientedCmp.not_lt_of_lt ha)⟩
  apply List.Pairwise.eq_of_mem_iff (toMap ks field).ordered_keys ks.sorted
  intro k
  rw [ExtTreeMap.mem_keys, mem_to_map]

/-- Reading a map back gives the keys and values it was built from. -/
theorem read_back (ks : Keys κ) (field : Fin ks.size → α) :
    (⟨Keys.ofMap (toMap ks field), fieldOf (toMap ks field)⟩ :
      (ks : Keys κ) × (Fin ks.size → α)) = ⟨ks, field⟩ := by
  apply sigma_ext (keys_to_map ks field)
  intro i j hij
  have hi := get_field_of (toMap ks field) i
  rw [hij, get_to_map] at hi
  exact (Option.some.inj hi).symm

end

end Lib.OrderedMap
