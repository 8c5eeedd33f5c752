import Mathlib.Algebra.BigOperators.Group.List.Lemmas
import Mathlib.Algebra.Order.Group.Nat
import Mathlib.Algebra.Group.Nat.Hom
import Mathlib.Algebra.Ring.Nat

namespace Lib.Saturating

/-- A count that stops at `cap`. -/
structure Sat (cap : Nat) where
  val : Nat
  le : val ≤ cap
deriving DecidableEq

namespace Sat
variable {cap : Nat}

def of (n : Nat) : Sat cap := ⟨min n cap, Nat.min_le_right n cap⟩

instance : Zero (Sat cap) := ⟨of 0⟩

instance : Add (Sat cap) := ⟨fun a b => of (a.val + b.val)⟩

instance : Mul (Sat cap) := ⟨fun a b => of (a.val * b.val)⟩

@[ext] theorem ext {a b : Sat cap} (h : a.val = b.val) : a = b := by
  cases a
  cases b
  cases h
  rfl

@[simp] theorem val_of (n : Nat) : (of n : Sat cap).val = min n cap := rfl

@[simp] theorem val_zero : (0 : Sat cap).val = 0 := Nat.zero_min cap

@[simp] theorem val_add (a b : Sat cap) : (a + b).val = min (a.val + b.val) cap := rfl

@[simp] theorem val_mul (a b : Sat cap) : (a * b).val = min (a.val * b.val) cap := rfl

/-- Against a limit below the cap a saturated number compares as the exact one. -/
theorem limit_lt_iff {limit n : Nat} (h : limit < cap) :
    limit < (of n : Sat cap).val ↔ limit < n := by
  rw [val_of]
  omega

instance : AddCommMonoid (Sat cap) where
  add_assoc a b c := by
    ext
    simp only [val_add]
    omega
  zero_add a := by
    ext
    have := a.le
    simp only [val_add, val_zero]
    omega
  add_zero a := by
    ext
    have := a.le
    simp only [val_add, val_zero]
    omega
  add_comm a b := by
    ext
    simp only [val_add]
    omega
  nsmul := nsmulRec

/-- Saturation is a homomorphism, so it may be taken once at the end of a sum. -/
def ofHom : ℕ →+ Sat cap where
  toFun := of
  map_zero' := rfl
  map_add' m n := by
    ext
    simp only [val_add, val_of]
    omega

theorem of_add (m n : Nat) : (of (m + n) : Sat cap) = of m + of n := map_add ofHom m n

end Sat

end Lib.Saturating
