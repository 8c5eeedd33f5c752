import Mathlib.Data.List.Infix
import VectorVrl.Lib.Matches
import VectorVrl.Runner

namespace VectorVrl.Proofs.Newlines
open Lib.Matches

theorem newlines_cons (c : Char) (rest : List Char) :
    universalNewlines (c :: rest) = universalNewlines rest ∨
      ∃ d, universalNewlines (c :: rest) = d :: universalNewlines rest := by
  rw [universalNewlines]
  split
  · split
    · exact Or.inl rfl
    · exact Or.inr ⟨_, rfl⟩
  · exact Or.inr ⟨_, rfl⟩

theorem newlines_append {piece : List Char} (hreturn : '\r' ∉ piece) (after : List Char) :
    universalNewlines (piece ++ after) = piece ++ universalNewlines after := by
  induction piece with
  | nil => rfl
  | cons c piece ih =>
    rw [List.mem_cons, not_or] at hreturn
    rw [List.cons_append, universalNewlines, if_neg (Ne.symm hreturn.1), ih hreturn.2]
    rfl

/-- A piece of a text without returns is still in it once it is read. -/
theorem newlines_keep_piece {piece text : List Char} (hreturn : '\r' ∉ piece)
    (h : piece <:+: text) : piece <:+: universalNewlines text := by
  obtain ⟨before, after, rfl⟩ := h
  rw [List.append_assoc]
  induction before with
  | nil =>
    rw [List.nil_append, newlines_append hreturn]
    exact (List.prefix_append _ _).isInfix
  | cons c before ih =>
    rw [List.cons_append]
    rcases newlines_cons c (before ++ (piece ++ after)) with h | ⟨d, h⟩
    · rw [h]
      exact ih
    · rw [h]
      exact List.infix_cons ih

theorem newlines_front {front text : List Char} (hbreak : '\n' ∉ front)
    (h : front <+: universalNewlines text) : front <+: text ∧ '\r' ∉ front := by
  induction text generalizing front with
  | nil =>
    obtain rfl := List.prefix_nil.mp h
    exact ⟨List.nil_prefix, List.not_mem_nil⟩
  | cons c rest ih =>
    cases front with
    | nil => exact ⟨List.nil_prefix, List.not_mem_nil⟩
    | cons d front =>
      rw [List.mem_cons, not_or] at hbreak
      rw [universalNewlines] at h
      split at h
      · -- a return is read as a newline, or left out before one
        split at h
        · rename_i hhead
          obtain ⟨rest, rfl⟩ := List.head?_eq_some_iff.mp hhead
          rw [universalNewlines, if_neg (by decide), List.cons_prefix_cons] at h
          exact absurd h.1.symm hbreak.1
        · rw [List.cons_prefix_cons] at h
          exact absurd h.1.symm hbreak.1
      · rename_i hc
        rw [List.cons_prefix_cons] at h
        obtain ⟨hsame, hreturn⟩ := ih hbreak.2 h.2
        rw [List.cons_prefix_cons, List.mem_cons, not_or]
        exact ⟨⟨h.1, hsame⟩, h.1 ▸ Ne.symm hc, hreturn⟩

/-- What is read without a newline in it is a piece of the text, without returns. -/
theorem newlines_piece {piece text : List Char} (hbreak : '\n' ∉ piece)
    (h : piece <:+: universalNewlines text) : piece <:+: text ∧ '\r' ∉ piece := by
  induction text with
  | nil =>
    obtain rfl := List.infix_nil.mp h
    exact ⟨List.infix_rfl, List.not_mem_nil⟩
  | cons c rest ih =>
    rcases newlines_cons c rest with hread | ⟨d, hread⟩
    · rw [hread] at h
      exact (ih h).imp_left List.infix_cons
    · rw [hread, List.infix_cons_iff, ← hread] at h
      rcases h with hfront | hrest
      · exact (newlines_front hbreak hfront).imp_left List.IsPrefix.isInfix
      · exact (ih hrest).imp_left List.infix_cons

theorem newlines_no_return (text : List Char) : '\r' ∉ universalNewlines text := by
  induction text with
  | nil => exact List.not_mem_nil
  | cons c rest ih =>
    rw [universalNewlines]
    split
    · split
      · exact ih
      · exact List.not_mem_cons_of_ne_of_not_mem (by decide) ih
    · rename_i hc
      exact List.not_mem_cons_of_ne_of_not_mem (Ne.symm hc) ih

theorem newlines_kept {text : List Char} (hreturn : '\r' ∉ text) :
    universalNewlines text = text := by
  have h := newlines_append hreturn []
  rwa [List.append_nil, universalNewlines, List.append_nil] at h

theorem newlines_ne_nil {text : List Char} (h : text ≠ []) : universalNewlines text ≠ [] := by
  induction text with
  | nil => exact absurd rfl h
  | cons c rest ih =>
    rw [universalNewlines]
    split
    · split
      · rename_i hhead
        obtain ⟨more, rfl⟩ := List.head?_eq_some_iff.mp hhead
        exact ih (List.cons_ne_nil _ _)
      · exact List.cons_ne_nil _ _
    · exact List.cons_ne_nil _ _

theorem mem_newlines {d : Char} (hreturn : d ≠ '\r') (hbreak : d ≠ '\n') {text : List Char} :
    d ∈ universalNewlines text ↔ d ∈ text := by
  induction text with
  | nil => rfl
  | cons c rest ih =>
    rw [universalNewlines]
    split
    · rename_i hc
      rw [hc, List.mem_cons, or_iff_right hreturn]
      split
      · exact ih
      · rw [List.mem_cons, or_iff_right hbreak]
        exact ih
    · rw [List.mem_cons, List.mem_cons, ih]

/-- What does not begin with a newline is read by itself, after whatever it comes. -/
theorem newlines_apart (text : List Char) {tail : List Char} (h : tail.head? ≠ some '\n') :
    universalNewlines (text ++ tail) = universalNewlines text ++ universalNewlines tail := by
  induction text with
  | nil => rfl
  | cons c rest ih =>
    have hhead : (rest ++ tail).head? = some '\n' ↔ rest.head? = some '\n' := by
      cases rest with
      | nil => exact iff_of_false h (by simp)
      | cons d rest => rfl
    rw [List.cons_append, universalNewlines, universalNewlines, ih]
    simp only [hhead]
    split
    · split <;> rfl
    · rfl

/-- A character that is no newline stands in the text where it stands as it is read. -/
theorem newlines_at {d : Char} (hbreak : d ≠ '\n') {text before after : List Char}
    (h : universalNewlines text = before ++ d :: after) :
    ∃ front back, text = front ++ d :: back ∧ universalNewlines front = before ∧
      universalNewlines back = after := by
  induction text generalizing before with
  | nil =>
    have hlength := congrArg List.length h
    simp [universalNewlines] at hlength
  | cons c rest ih =>
    rw [universalNewlines] at h
    split at h
    · rename_i hc
      split at h
      · rename_i hhead
        obtain ⟨front, back, rfl, hfront, hback⟩ := ih h
        have hfirst : front.head? = some '\n' := by
          cases front with
          | nil => exact absurd (Option.some.inj hhead) hbreak
          | cons e front => exact hhead
        refine ⟨c :: front, back, rfl, ?_, hback⟩
        rw [universalNewlines, if_pos hc, if_pos hfirst, hfront]
      · rename_i hhead
        cases before with
        | nil => exact absurd (List.cons.inj h).1.symm hbreak
        | cons e before =>
          obtain ⟨rfl, hrest⟩ := List.cons.inj h
          obtain ⟨front, back, rfl, hfront, hback⟩ := ih hrest
          have hfirst : front.head? ≠ some '\n' := by
            cases front with
            | nil => exact Option.some_ne_none _ |>.symm
            | cons e front => exact hhead
          refine ⟨c :: front, back, rfl, ?_, hback⟩
          rw [universalNewlines, if_pos hc, if_neg hfirst, hfront]
    · rename_i hc
      cases before with
      | nil =>
        obtain ⟨rfl, rfl⟩ := List.cons.inj h
        exact ⟨[], rest, rfl, rfl, rfl⟩
      | cons e before =>
        obtain ⟨rfl, hrest⟩ := List.cons.inj h
        obtain ⟨front, back, rfl, hfront, hback⟩ := ih hrest
        refine ⟨c :: front, back, rfl, ?_, hback⟩
        rw [universalNewlines, if_neg hc, hfront]

/-- A start without newlines is where it is read. -/
theorem newlines_start {start text rest : List Char} (hbreak : '\n' ∉ start)
    (h : universalNewlines text = start ++ rest) :
    ∃ back, text = start ++ back ∧ universalNewlines back = rest := by
  obtain ⟨⟨back, rfl⟩, hreturn⟩ := newlines_front hbreak (h ▸ List.prefix_append start rest)
  rw [newlines_append hreturn, List.append_cancel_left_eq] at h
  exact ⟨back, rfl, h⟩

section
variable {start : List Char} {stop : Char} (hbreak : '\n' ∉ start) (hreturn : '\r' ∉ start)
  (hstop : stop ≠ '\n') (hstop' : stop ≠ '\r')

include hbreak in
/-- No match begins with a newline. -/
theorem first_head (hne : start ≠ []) {text before inner after : List Char}
    (h : (Pattern.delimited start stop).first text = some (before, inner, after)) :
    before.head? = some '\n' ↔ text.head? = some '\n' := by
  rw [(Pattern.first_some h).1]
  cases before with
  | nil =>
    obtain ⟨c, more, rfl⟩ := List.exists_cons_of_ne_nil hne
    refine iff_of_false (by simp) ?_
    rintro hhead
    obtain rfl : c = '\n' := Option.some.inj hhead
    exact hbreak (List.mem_cons_self ..)
  | cons c before => rfl

include hbreak hreturn hstop hstop'

/-- What is delimited is read with newlines as it is read of the text. -/
theorem delimited_newlines (text : List Char) :
    (Pattern.delimited start stop).read (universalNewlines text) =
      ((Pattern.delimited start stop).read text).map fun hit =>
        (universalNewlines hit.1, universalNewlines hit.2) := by
  change Pattern.delimitedRead start stop _ = (Pattern.delimitedRead start stop text).map _
  cases hread : Pattern.delimitedRead start stop text with
  | some hit =>
    obtain ⟨inner, rest⟩ := hit
    obtain ⟨rfl, hne, hinner⟩ := Pattern.delimited_read_iff.mp hread
    have hhead : (stop :: rest).head? ≠ some '\n' := fun h => hstop (Option.some.inj h)
    rw [Option.map_some, Pattern.delimited_read_iff, newlines_append hreturn,
      newlines_apart inner hhead, universalNewlines, if_neg hstop',
      mem_newlines hstop' hstop]
    exact ⟨rfl, newlines_ne_nil hne, hinner⟩
  | none =>
    rw [Option.map_none]
    cases hback : Pattern.delimitedRead start stop (universalNewlines text) with
    | none => rfl
    | some hit =>
      obtain ⟨inner, rest⟩ := hit
      obtain ⟨htext, hne, hinner⟩ := Pattern.delimited_read_iff.mp hback
      obtain ⟨body, rfl, hbody⟩ := newlines_start hbreak htext
      obtain ⟨front, back, rfl, hfront, _⟩ := newlines_at hstop hbody
      have hsome : Pattern.delimitedRead start stop (start ++ (front ++ stop :: back)) =
          some (front, back) := by
        rw [Pattern.delimited_read_iff, ← mem_newlines hstop' hstop, hfront]
        refine ⟨rfl, ?_, hinner⟩
        rintro rfl
        exact hne hfront.symm
      rw [hread] at hsome
      cases hsome

/-- The first of what is delimited is in the text where it is as the text is read. -/
theorem first_newlines (hne : start ≠ []) (text : List Char) :
    (Pattern.delimited start stop).first (universalNewlines text) =
      ((Pattern.delimited start stop).first text).map fun found =>
        (universalNewlines found.1, universalNewlines found.2.1, universalNewlines found.2.2) := by
  induction text with
  | nil => rfl
  | cons c rest ih =>
    have hread := delimited_newlines hbreak hreturn hstop hstop' (c :: rest)
    cases hr : (Pattern.delimited start stop).read (c :: rest) with
    | some hit =>
      rw [hr, Option.map_some] at hread
      rw [Pattern.first_read hr, Pattern.first_read hread]
      rfl
    | none =>
      rw [hr, Option.map_none] at hread
      rw [Pattern.first_none hr, Option.map_map]
      rw [universalNewlines] at hread ⊢
      by_cases hc : c = '\r'
      · rw [if_pos hc] at hread ⊢
        by_cases hhead : rest.head? = some '\n'
        · rw [if_pos hhead, ih]
          apply Option.map_congr
          rintro ⟨before, inner, after⟩ hfound
          have hfirst := (first_head hbreak hne hfound).mpr hhead
          simp only [Function.comp_apply, universalNewlines, if_pos hc, if_pos hfirst]
        · rw [if_neg hhead] at hread ⊢
          rw [Pattern.first_none hread, ih, Option.map_map]
          apply Option.map_congr
          rintro ⟨before, inner, after⟩ hfound
          have hfirst := mt (first_head hbreak hne hfound).mp hhead
          simp only [Function.comp_apply, universalNewlines, if_pos hc, if_neg hfirst]
      · rw [if_neg hc] at hread ⊢
        rw [Pattern.first_none hread, ih, Option.map_map]
        apply Option.map_congr
        rintro ⟨before, inner, after⟩ _
        simp only [Function.comp_apply, universalNewlines, if_neg hc]

end

end VectorVrl.Proofs.Newlines
