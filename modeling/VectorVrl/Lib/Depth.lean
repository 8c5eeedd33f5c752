import Mathlib.Data.List.Infix
import Mathlib.Order.Lattice
import Mathlib.Order.MinMax

namespace Lib.Depth

/-- What one piece of input does to a nesting depth. -/
inductive Mark where
  | opens
  | closes
  | flat
deriving DecidableEq, Repr

/-- The current depth and the deepest it has been so far. -/
structure Gauge where
  depth : Nat
  deepest : Nat
deriving DecidableEq, Repr

/-- Closing at depth zero stays at depth zero. -/
def Gauge.mark (g : Gauge) : Mark → Gauge
  | .opens => ⟨g.depth + 1, max g.deepest (g.depth + 1)⟩
  | .closes => ⟨g.depth - 1, g.deepest⟩
  | .flat => g

def Gauge.run (g : Gauge) (ms : List Mark) : Gauge := ms.foldl Gauge.mark g

def Gauge.zero : Gauge := ⟨0, 0⟩

/-- `g.Below h`: `h` is at least as deep now, and has been at least as deep. -/
structure Gauge.Below (g h : Gauge) : Prop where
  depth : g.depth ≤ h.depth
  deepest : g.deepest ≤ h.deepest

@[simp] theorem Gauge.mark_flat (g : Gauge) : g.mark .flat = g := rfl

@[simp] theorem Gauge.run_nil (g : Gauge) : g.run [] = g := rfl

@[simp] theorem Gauge.run_cons (g : Gauge) (m : Mark) (ms : List Mark) :
    g.run (m :: ms) = (g.mark m).run ms := rfl

theorem Gauge.run_append (g : Gauge) (xs ys : List Mark) :
    g.run (xs ++ ys) = (g.run xs).run ys := List.foldl_append

theorem Gauge.zero_below (g : Gauge) : Gauge.zero.Below g :=
  ⟨Nat.zero_le _, Nat.zero_le _⟩

/-- One mark keeps the order: the floor at zero never lets the shallower
gauge overtake. -/
theorem Gauge.Below.mark {g h : Gauge} (hb : g.Below h) (m : Mark) :
    (g.mark m).Below (h.mark m) := by
  obtain ⟨hd, hp⟩ := hb
  cases m with
  | opens =>
    refine ⟨Nat.succ_le_succ hd, ?_⟩
    exact max_le_max hp (Nat.succ_le_succ hd)
  | closes => exact ⟨Nat.sub_le_sub_right hd 1, hp⟩
  | flat => exact ⟨hd, hp⟩

theorem Gauge.deepest_le_mark (g : Gauge) (m : Mark) : g.deepest ≤ (g.mark m).deepest := by
  cases m with
  | opens => exact le_max_left _ _
  | closes | flat => exact Nat.le_refl _

/-- The level reached after `ms`, counting openers against closers. -/
def level (ms : List Mark) : Nat := ms.count .opens - ms.count .closes

/-- The greatest level reached after any prefix of `ms`. -/
def peak (ms : List Mark) : Nat := (ms.inits.map level).foldr max 0

/-- No prefix closes more than it has opened. -/
def Matched (ms : List Mark) : Prop :=
  ∀ p, p <+: ms → p.count .closes ≤ p.count .opens

/-- A prefix of a concatenation stops in the first part or reaches into the second. -/
theorem prefix_of_append {p xs ys : List Mark} (h : p <+: xs ++ ys) :
    p <+: xs ∨ ∃ q, p = xs ++ q ∧ q <+: ys := by
  rcases List.prefix_or_prefix_of_prefix h (List.prefix_append xs ys) with hp | ⟨q, rfl⟩
  · exact Or.inl hp
  · exact Or.inr ⟨q, rfl, (List.prefix_append_right_inj xs).mp h⟩

theorem Matched.initial_part {p ms : List Mark} (h : Matched ms) (hp : p <+: ms) : Matched p :=
  fun q hq => h q (hq.trans hp)

theorem foldr_max_append (xs : List Nat) (y : Nat) :
    (xs ++ [y]).foldr max 0 = max (xs.foldr max 0) y := by
  induction xs with
  | nil => simp
  | cons x xs ih => simp only [List.cons_append, List.foldr_cons, ih, max_assoc]

theorem peak_append_one (ms : List Mark) (m : Mark) :
    peak (ms ++ [m]) = max (peak ms) (level (ms ++ [m])) := by
  have hi : (ms ++ [m]).inits = ms.inits ++ [ms ++ [m]] := by simp [List.inits_append]
  rw [peak, hi, List.map_append, List.map_singleton, foldr_max_append]
  rfl

theorem level_le_peak (ms : List Mark) : level ms ≤ peak ms := by
  cases ms using List.reverseRecOn with
  | nil => simp [level]
  | append_singleton ms m => rw [peak_append_one]; exact le_max_right _ _

/-- Where no closer is unmatched the saturating gauge is exact. -/
theorem run_matched {ms : List Mark} (h : Matched ms) :
    Gauge.zero.run ms = ⟨level ms, peak ms⟩ := by
  induction ms using List.reverseRecOn with
  | nil => rfl
  | append_singleton ms m ih =>
    have hpre := h ms (List.prefix_append ms [m])
    have hall := h (ms ++ [m]) (List.prefix_refl _)
    have htop := level_le_peak ms
    rw [Gauge.run_append, ih (h.initial_part (List.prefix_append ms [m])), peak_append_one]
    cases m <;>
      simp [Gauge.mark, level, List.count_append] at hall htop ⊢ <;> omega

/-- As many closers as openers, none of them unmatched. -/
structure Balanced (ms : List Mark) : Prop where
  matched : Matched ms
  even : ms.count .closes = ms.count .opens

theorem Balanced.nil : Balanced [] := by
  refine ⟨?_, rfl⟩
  intro p hp
  rw [List.prefix_nil.mp hp]
  exact Nat.le_refl _

theorem Balanced.flat : Balanced [.flat] := by
  refine ⟨?_, rfl⟩
  intro p hp
  have hsub := hp.sublist.count_le Mark.closes
  simp only [List.count_singleton] at hsub
  exact Nat.le_trans hsub (Nat.zero_le _)

theorem Balanced.append {xs ys : List Mark} (hx : Balanced xs) (hy : Balanced ys) :
    Balanced (xs ++ ys) := by
  refine ⟨?_, ?_⟩
  · intro p hp
    rcases prefix_of_append hp with hp | ⟨q, rfl, hq⟩
    · exact hx.matched p hp
    · have he := hx.even
      have hm := hy.matched q hq
      simp only [List.count_append]
      omega
  · have hx' := hx.even
    have hy' := hy.even
    simp only [List.count_append]
    omega

/-- A bracketed balanced run is balanced: the opener covers every inner prefix. -/
theorem Balanced.wrap {ms : List Mark} (h : Balanced ms) :
    Balanced (.opens :: (ms ++ [.closes])) := by
  have he := h.even
  refine ⟨?_, ?_⟩
  · intro p hp
    cases p with
    | nil => exact Nat.le_refl _
    | cons m p =>
      obtain ⟨rfl, hin⟩ := List.cons_prefix_cons.mp hp
      rcases prefix_of_append hin with hin | ⟨q, rfl, hq⟩
      · have := h.matched p hin
        simp
        omega
      · have hsub := hq.sublist.count_le Mark.closes
        simp at hsub
        simp
        omega
  · simp
    omega

theorem level_append {xs : List Mark} (hx : Balanced xs) (ys : List Mark) :
    level (xs ++ ys) = level ys := by
  have he := hx.even
  simp only [level, List.count_append]
  omega

theorem peak_append {xs : List Mark} (hx : Balanced xs) (ys : List Mark) :
    peak (xs ++ ys) = max (peak xs) (peak ys) := by
  induction ys using List.reverseRecOn with
  | nil => simp [peak, level]
  | append_singleton ys m ih =>
    rw [← List.append_assoc, peak_append_one, ih, List.append_assoc, level_append hx,
      peak_append_one, max_assoc]

theorem peak_opens {ms : List Mark} (h : Matched ms) : peak (.opens :: ms) = peak ms + 1 := by
  induction ms using List.reverseRecOn with
  | nil => rfl
  | append_singleton ms m ih =>
    have hall := h (ms ++ [m]) (List.prefix_refl _)
    have hl : level (.opens :: (ms ++ [m])) = level (ms ++ [m]) + 1 := by
      have hc : (Mark.opens :: (ms ++ [m])).count .closes = (ms ++ [m]).count .closes :=
        List.count_cons_of_ne (by decide)
      simp only [level, List.count_cons_self, hc]
      omega
    rw [← List.cons_append, peak_append_one, List.cons_append, hl,
      ih (h.initial_part (List.prefix_append ms [m])), peak_append_one]
    omega

/-- A pair of brackets is one level deeper than what it holds. -/
theorem peak_wrap {ms : List Mark} (h : Balanced ms) :
    peak (.opens :: (ms ++ [.closes])) = peak ms + 1 := by
  have hl : level (.opens :: (ms ++ [.closes])) = 0 := by
    have he := h.wrap.even
    simp only [level]
    omega
  rw [← List.cons_append, peak_append_one, List.cons_append, hl, peak_opens h.matched]
  exact Nat.max_eq_left (Nat.zero_le _)

end Lib.Depth
