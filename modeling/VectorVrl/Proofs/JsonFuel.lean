import VectorVrl.Proofs.JsonQuotes

namespace VectorVrl.Proofs.JsonFuel
open Lib.OrderedDict PyJson JsonQuotes

theorem unicode_fueled (n : Nat) (rest : List Char) : unicodeEscape n rest ≠ .error .outOfFuel := by
  unfold unicodeEscape
  repeat' split
  all_goals simp

theorem escape_fueled (text : List Char) : readEscape text ≠ .error .outOfFuel := by
  cases text with
  | nil => simp [readEscape]
  | cons c rest =>
    rw [readEscape]
    split
    · split
      · simp
      · apply unicode_fueled
    · split <;> simp

theorem string_fueled {fuel : Nat} {text : List Char} (h : text.length < fuel)
    (read : List Char) : scanString fuel read text ≠ .error .outOfFuel := by
  induction fuel generalizing read text with
  | zero => omega
  | succ fuel ih =>
    cases text with
    | nil => simp [scanString]
    | cons c text =>
      rw [List.length_cons] at h
      rw [scanString]
      split
      · simp
      split
      · split
        · rename_i e hescape
          intro heq
          rw [Except.error.inj heq] at hescape
          exact escape_fueled text hescape
        · rename_i hescape
          have hle := (escape_reads hescape).length_le
          exact ih (by omega) _
      split
      · simp
      · exact ih (by omega) _

section
variable [PyFloat]

theorem number_fueled (parts : NumberParts) : numberValue parts ≠ .error .outOfFuel := by
  unfold numberValue
  repeat' split
  all_goals simp

theorem atom_fueled (text : List Char) : scanAtom text ≠ .error .outOfFuel := by
  unfold scanAtom
  split
  · simp
  split
  · simp
  · rename_i parts _ _
    rw [ne_eq, Lib.Collect.map_error_iff]
    exact number_fueled parts

/-- The rounds that reading a text takes at most. -/
structure Fueled (fuel : Nat) : Prop where
  once : ∀ text, 2 * text.length < fuel → scanOnce fuel text ≠ .error .outOfFuel
  items : ∀ read text, 2 * text.length + 1 < fuel → scanItems fuel read text ≠ .error .outOfFuel
  members : ∀ read text, 2 * text.length + 1 < fuel →
    scanMembers fuel read text ≠ .error .outOfFuel

theorem once_fueled {fuel : Nat} (h : Fueled fuel) {text : List Char}
    (hlen : 2 * text.length < fuel + 1) : scanOnce (fuel + 1) text ≠ .error .outOfFuel := by
  cases text with
  | nil => simp [scanOnce]
  | cons c text =>
    rw [List.length_cons] at hlen
    have hskip := (skip_reads text).length_le
    rw [scanOnce]
    split
    · rw [ne_eq, Lib.Collect.map_error_iff]
      exact string_fueled (by omega) _
    split
    · split
      · simp
      · rename_i d after hopen
        rw [hopen] at hskip
        split
        · simp
        · exact h.members _ _ (by omega)
    split
    · split
      · simp
      · rename_i d after hopen
        rw [hopen] at hskip
        split
        · simp
        · exact h.items _ _ (by omega)
    · apply atom_fueled

theorem items_fueled {fuel : Nat} (h : Fueled fuel) {text : List Char}
    (hlen : 2 * text.length + 1 < fuel + 1) (read : List PyVal) :
    scanItems (fuel + 1) read text ≠ .error .outOfFuel := by
  rw [scanItems]
  split
  · rename_i e hitem
    intro heq
    rw [Except.error.inj heq] at hitem
    exact h.once text (by omega) hitem
  · rename_i item mid hitem
    have hmid := ((scan_reads _).once _ _ _ hitem).length_le
    have hskip := (skip_reads mid).length_le
    split
    · simp
    · rename_i c after hclose
      have hafter := (skip_reads after).length_le
      rw [hclose, List.length_cons] at hskip
      split
      · simp
      split
      · exact h.items _ _ (by omega)
      · simp

theorem members_fueled {fuel : Nat} (h : Fueled fuel) {text : List Char}
    (hlen : 2 * text.length + 1 < fuel + 1) (read : Dict String PyVal) :
    scanMembers (fuel + 1) read text ≠ .error .outOfFuel := by
  cases text with
  | nil => simp [scanMembers]
  | cons quote text =>
    rw [List.length_cons] at hlen
    rw [scanMembers]
    split
    · simp
    split
    · rename_i e hname
      intro heq
      rw [Except.error.inj heq] at hname
      exact string_fueled (by omega) _ hname
    rename_i name mid hname
    have hmid := (string_reads hname).length_le
    have hcolon := (skip_reads mid).length_le
    split
    · simp
    rename_i colon after hmark
    rw [hmark, List.length_cons] at hcolon
    have hafter := (skip_reads after).length_le
    split
    · simp
    split
    · rename_i e hvalue
      intro heq
      rw [Except.error.inj heq] at hvalue
      exact h.once _ (by omega) hvalue
    rename_i value behind hvalue
    have hbehind := ((scan_reads _).once _ _ _ hvalue).length_le
    have hskip := (skip_reads behind).length_le
    simp only
    split
    · simp
    rename_i c beyond hclose
    rw [hclose, List.length_cons] at hskip
    have hbeyond := (skip_reads beyond).length_le
    split
    · simp
    split
    · exact h.members _ _ (by omega)
    · simp

theorem fueled (fuel : Nat) : Fueled fuel := by
  induction fuel with
  | zero => exact ⟨fun _ _ => by omega, fun _ _ _ => by omega, fun _ _ _ => by omega⟩
  | succ fuel ih =>
    exact ⟨fun _ => once_fueled ih, fun read _ hlen => items_fueled ih hlen read,
      fun read _ hlen => members_fueled ih hlen read⟩

/-- Reading a text always comes to its end. -/
theorem loads_fueled (text : List Char) : loads text ≠ .error .outOfFuel := by
  have hskip := (skip_reads text).length_le
  unfold loads
  split
  · simp
  split
  · rename_i e hscan
    intro heq
    rw [Except.error.inj heq] at hscan
    exact (fueled _).once _ (by omega) hscan
  · split <;> simp

end

end VectorVrl.Proofs.JsonFuel
