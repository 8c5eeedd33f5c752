import Mathlib.Algebra.Order.Floor.Ring
import Mathlib.Algebra.Order.Field.Basic
import Mathlib.Tactic.Linarith

namespace Lib.Rounding

variable {K : Type*} [Field K] [LinearOrder K] [FloorRing K]

/-- The nearest integer, of two as near the even one. -/
def roundHalfEven (x : K) : ℤ :=
  if x - ⌊x⌋ < 1 / 2 then ⌊x⌋
  else if 1 / 2 < x - ⌊x⌋ then ⌊x⌋ + 1
  else if ⌊x⌋ % 2 = 0 then ⌊x⌋ else ⌊x⌋ + 1

/-- The nearest number of so many decimal places. -/
def roundTo (places : Nat) (x : K) : K := roundHalfEven (x * 10 ^ places) / 10 ^ places

theorem floor_le_round (x : K) : ⌊x⌋ ≤ roundHalfEven x := by
  unfold roundHalfEven
  split_ifs <;> omega

theorem round_le_succ (x : K) : roundHalfEven x ≤ ⌊x⌋ + 1 := by
  unfold roundHalfEven
  split_ifs <;> omega

variable [IsStrictOrderedRing K]

theorem round_int (n : ℤ) : roundHalfEven (n : K) = n := by
  simp [roundHalfEven]

theorem round_mono {x y : K} (h : x ≤ y) : roundHalfEven x ≤ roundHalfEven y := by
  rcases lt_or_eq_of_le (Int.floor_le_floor h) with hlt | heq
  · calc roundHalfEven x ≤ ⌊x⌋ + 1 := round_le_succ x
      _ ≤ ⌊y⌋ := hlt
      _ ≤ roundHalfEven y := floor_le_round y
  · have hsub : x - ⌊y⌋ ≤ y - ⌊y⌋ := sub_le_sub_right h _
    unfold roundHalfEven
    rw [heq]
    split_ifs <;> first | omega | linarith

theorem round_to_int (places : Nat) (n : ℤ) : roundTo places (n : K) = n := by
  have hpos : (10 ^ places : K) ≠ 0 := pow_ne_zero _ (by norm_num)
  have hcast : (n : K) * 10 ^ places = ((n * 10 ^ places : ℤ) : K) := by push_cast; rfl
  rw [roundTo, hcast, round_int]
  push_cast
  exact mul_div_cancel_right₀ _ hpos

theorem round_to_mono (places : Nat) {x y : K} (h : x ≤ y) :
    roundTo places x ≤ roundTo places y := by
  have hpos : (0 : K) < 10 ^ places := pow_pos (by norm_num) _
  have hround : roundHalfEven (x * 10 ^ places) ≤ roundHalfEven (y * 10 ^ places) :=
    round_mono (mul_le_mul_of_nonneg_right h hpos.le)
  exact div_le_div_of_nonneg_right (Int.cast_le.mpr hround) hpos.le

/-- Rounding stays between integers. -/
theorem round_to_between (places : Nat) {x : K} {low high : ℤ} (hlow : low ≤ x) (hhigh : x ≤ high) :
    low ≤ roundTo places x ∧ roundTo places x ≤ high := by
  have hl := round_to_mono places hlow
  have hh := round_to_mono places hhigh
  rw [round_to_int] at hl hh
  exact ⟨hl, hh⟩

end Lib.Rounding
