import Mathlib.Data.List.Basic
import Mathlib.Data.List.Induction

namespace Lib.Index
open Std

variable {α κ : Type*} {cmp : κ → κ → Ordering}

/-- Row numbers by key, in row order. Rows without a key are left out. -/
def build (cmp : κ → κ → Ordering) [TransCmp cmp] (key : α → Option κ) (rows : List α) :
    ExtTreeMap κ (List Nat) cmp :=
  rows.zipIdx.foldl (fun index (row, number) =>
    match key row with
    | some k => index.alter k fun numbers => some (numbers.getD [] ++ [number])
    | none => index) ∅

variable [TransCmp cmp]

theorem build_snoc (key : α → Option κ) (rows : List α) (row : α) :
    build cmp key (rows ++ [row]) =
      match key row with
      | some k => (build cmp key rows).alter k fun numbers =>
          some (numbers.getD [] ++ [rows.length])
      | none => build cmp key rows := by
  simp only [build, List.zipIdx_append, List.foldl_append, List.zipIdx_singleton,
    List.foldl_cons, List.foldl_nil, Nat.zero_add]

variable [LawfulEqCmp cmp] [DecidableEq κ]

/-- A key's entry lists the numbers of exactly its rows, in order. -/
theorem numbers_eq (key : α → Option κ) (rows : List α) (k : κ) :
    (build cmp key rows)[k]?.getD [] =
      (rows.zipIdx.filter fun p => key p.1 = some k).map Prod.snd := by
  induction rows using List.reverseRecOn with
  | nil => simp [build]
  | append_singleton rows row ih =>
    rw [build_snoc, List.zipIdx_append, List.filter_append, List.map_append, ← ih]
    cases hk : key row with
    | none => simp [hk]
    | some k' =>
      by_cases heq : k' = k
      · subst heq
        simp [hk]
      · have hne : cmp k' k ≠ .eq := fun h => heq (LawfulEqCmp.eq_of_compare h)
        simp [hk, heq, ExtTreeMap.getElem?_alter, hne]

theorem numbered_rows {rows : List α} {found : List (α × Nat)}
    (h : ∀ p ∈ found, rows[p.2]? = some p.1) :
    (found.map Prod.snd).filterMap (fun number => rows[number]?) = found.map Prod.fst := by
  rw [List.filterMap_map, ← List.filterMap_eq_map]
  exact List.filterMap_congr h

theorem rows_with_key (key : α → Option κ) (rows : List α) (k : κ) :
    rows.filter (fun row => key row = some k) =
      (rows.zipIdx.filter fun p => key p.1 = some k).map Prod.fst := by
  conv_lhs => rw [← List.zipIdx_map_fst 0 rows]
  rw [List.filter_map]
  rfl

/-- The rows of a key, read back by number, are the matching rows in row order. -/
theorem rows_of_key (key : α → Option κ) (rows : List α) (k : κ) :
    ((build cmp key rows)[k]?.getD []).filterMap (fun number => rows[number]?) =
      rows.filter fun row => key row = some k := by
  rw [numbers_eq, rows_with_key key rows k]
  apply numbered_rows
  intro p hp
  exact List.mem_zipIdx_iff_getElem?.mp (List.mem_filter.mp hp).1

/-- Cutting the numbers short cuts the rows at the same place. -/
theorem first_rows_of_key (key : α → Option κ) (rows : List α) (k : κ) (wanted : Nat) :
    (((build cmp key rows)[k]?.getD []).take wanted).filterMap (fun number => rows[number]?) =
      (rows.filter fun row => key row = some k).take wanted := by
  rw [numbers_eq, rows_with_key key rows k, ← List.map_take, ← List.map_take]
  apply numbered_rows
  intro p hp
  exact List.mem_zipIdx_iff_getElem?.mp (List.mem_filter.mp (List.mem_of_mem_take hp)).1

end Lib.Index
