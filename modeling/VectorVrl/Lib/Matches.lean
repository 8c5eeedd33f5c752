import Mathlib.Data.List.TakeDrop
import Mathlib.Data.List.TakeWhile
import Mathlib.Data.List.Flatten
import Mathlib.Data.Sum.Basic

namespace Lib.Matches

/-- What reads something off the front of a text, and how that is spelled. -/
structure Pattern (α β : Type*) where
  read : List α → Option (β × List α)
  spell : β → List α
  spell_ne : ∀ b, spell b ≠ []
  read_spell : ∀ text b rest, read text = some (b, rest) → text = spell b ++ rest

variable {α β : Type*}

/-- A given text as a pattern. -/
def literal [DecidableEq α] (needle : List α) (hne : needle ≠ []) : Pattern α Unit where
  read text := if needle <+: text then some ((), text.drop needle.length) else none
  spell _ := needle
  spell_ne _ := hne
  read_spell text b rest h := by
    split at h
    · rename_i hprefix
      rw [Option.some.injEq, Prod.mk.injEq] at h
      rw [← h.2]
      exact (List.prefix_iff_eq_append.mp hprefix).symm
    · cases h

namespace Pattern
variable (p : Pattern α β)

/-- A text as its matches, leftmost first and none inside another, and the rest
one by one, after `skip` are left out. -/
def piecesFrom : Nat → List α → List (α ⊕ β)
  | _, [] => []
  | skip + 1, _ :: rest => piecesFrom skip rest
  | 0, a :: rest =>
    match p.read (a :: rest) with
    | some (b, _) => .inr b :: piecesFrom ((p.spell b).length - 1) rest
    | none => .inl a :: piecesFrom 0 rest

def pieces (text : List α) : List (α ⊕ β) := p.piecesFrom 0 text

/-- The first match: what is before it, what it is and what is after it. -/
def first : List α → Option (List α × β × List α)
  | [] => none
  | a :: rest =>
    match p.read (a :: rest) with
    | some (b, after) => some ([], b, after)
    | none => (first rest).map fun found => (a :: found.1, found.2)

/-- Every match of a text. -/
def found (text : List α) : List β := (p.pieces text).filterMap Sum.getRight?

/-- A text with its matches replaced. -/
def sub (repl : List α) (text : List α) : List α :=
  (p.pieces text).flatMap (Sum.elim (fun a => [a]) fun _ => repl)

variable {p}

theorem pieces_skip (used rest : List α) :
    p.piecesFrom used.length (used ++ rest) = p.pieces rest := by
  induction used with
  | nil => rfl
  | cons a used ih => exact ih

theorem pieces_read {text rest : List α} {b : β} (h : p.read text = some (b, rest)) :
    p.pieces text = .inr b :: p.pieces rest := by
  have htext := p.read_spell text b rest h
  obtain ⟨a, used, hused⟩ := List.exists_cons_of_ne_nil (p.spell_ne b)
  rw [hused, List.cons_append] at htext
  rw [htext] at h ⊢
  rw [pieces, piecesFrom, h]
  simp only [hused]
  exact congrArg (.inr b :: ·) (pieces_skip used rest)

theorem pieces_none {a : α} {rest : List α} (h : p.read (a :: rest) = none) :
    p.pieces (a :: rest) = .inl a :: p.pieces rest := by
  rw [pieces, piecesFrom, h]
  rfl

theorem first_read {text rest : List α} {b : β} (h : p.read text = some (b, rest)) :
    p.first text = some ([], b, rest) := by
  cases text with
  | nil =>
    have htext := p.read_spell [] b rest h
    exact absurd (List.append_eq_nil_iff.mp htext.symm).1 (p.spell_ne b)
  | cons a text => rw [first, h]

theorem first_none {a : α} {rest : List α} (h : p.read (a :: rest) = none) :
    p.first (a :: rest) = (p.first rest).map fun found => (a :: found.1, found.2) := by
  rw [first, h]

/-- What the first match says of a text. -/
theorem first_some {text before after : List α} {b : β}
    (h : p.first text = some (before, b, after)) :
    text = before ++ (p.spell b ++ after) ∧ p.read (p.spell b ++ after) = some (b, after) ∧
      p.pieces text = before.map .inl ++ .inr b :: p.pieces after := by
  induction text generalizing before with
  | nil => cases h
  | cons a text ih =>
    cases hread : p.read (a :: text) with
    | some hit =>
      obtain ⟨b', after'⟩ := hit
      rw [first_read hread] at h
      cases h
      have htext := p.read_spell _ _ _ hread
      exact ⟨htext, htext ▸ hread, pieces_read hread⟩
    | none =>
      rw [first_none hread, Option.map_eq_some_iff] at h
      obtain ⟨⟨before', b', after'⟩, hfirst, heq⟩ := h
      cases heq
      obtain ⟨htext, hspell, hpieces⟩ := ih hfirst
      refine ⟨congrArg (a :: ·) htext, hspell, ?_⟩
      rw [pieces_none hread, hpieces]
      rfl

theorem pieces_unmatched {text : List α} (h : p.first text = none) :
    p.pieces text = text.map .inl := by
  induction text with
  | nil => rfl
  | cons a text ih =>
    cases hread : p.read (a :: text) with
    | some hit =>
      rw [first_read hread] at h
      cases h
    | none =>
      rw [first_none hread, Option.map_eq_none_iff] at h
      rw [pieces_none hread, ih h]
      rfl

theorem sub_unmatched {text : List α} (h : p.first text = none) (repl : List α) :
    p.sub repl text = text := by
  rw [sub, pieces_unmatched h, List.flatMap_map]
  exact List.flatMap_singleton' text

theorem sub_first {text before after : List α} {b : β} (repl : List α)
    (h : p.first text = some (before, b, after)) :
    p.sub repl text = before ++ (repl ++ p.sub repl after) := by
  rw [sub, (first_some h).2.2, List.flatMap_append, List.flatMap_map, List.flatMap_cons]
  exact congrArg (· ++ _) (List.flatMap_singleton' before)

theorem mem_pieces {text : List α} {a : α} (h : .inl a ∈ p.pieces text) : a ∈ text := by
  have hfrom : ∀ skip, .inl a ∈ p.piecesFrom skip text → a ∈ text := by
    clear h
    induction text with
    | nil => exact fun skip h => by cases skip <;> cases h
    | cons c rest ih =>
      intro skip h
      cases skip with
      | succ skip => exact List.mem_cons_of_mem c (ih skip h)
      | zero =>
        rw [piecesFrom] at h
        split at h
        · rcases List.mem_cons.mp h with heq | hrest
          · cases heq
          · exact List.mem_cons_of_mem c (ih _ hrest)
        · rcases List.mem_cons.mp h with heq | hrest
          · cases heq
            exact List.mem_cons_self ..
          · exact List.mem_cons_of_mem c (ih _ hrest)
  exact hfrom 0 h

/-- A replacement brings in nothing but what it puts there. -/
theorem mem_sub {repl text : List α} {a : α} (h : a ∈ p.sub repl text) : a ∈ repl ∨ a ∈ text := by
  obtain ⟨piece, hpiece, hmem⟩ := List.mem_flatMap.mp h
  cases piece with
  | inl c =>
    rw [Sum.elim_inl, List.mem_singleton] at hmem
    exact Or.inr (mem_pieces (hmem ▸ hpiece))
  | inr b => exact Or.inl hmem

theorem found_unmatched {text : List α} (h : p.first text = none) : p.found text = [] := by
  rw [found, pieces_unmatched h, List.filterMap_map]
  simp

theorem found_first {text before after : List α} {b : β}
    (h : p.first text = some (before, b, after)) : p.found text = b :: p.found after := by
  rw [found, (first_some h).2.2, List.filterMap_append, List.filterMap_map, List.filterMap_cons]
  simp [found]

theorem first_shorter {text before after : List α} {b : β}
    (h : p.first text = some (before, b, after)) : after.length < text.length := by
  have hpos := List.length_pos_iff.mpr (p.spell_ne b)
  rw [(first_some h).1, List.length_append, List.length_append]
  omega

/-- The spelling of `b` is read as `b` whatever follows it, and in the place of
another match it makes none begin earlier. -/
structure Stable (p : Pattern α β) (b : β) : Prop where
  reads : ∀ rest, p.read (p.spell b ++ rest) = some (b, rest)
  kept : ∀ piece c rest rest', piece ≠ [] → p.read (p.spell c ++ rest) = some (c, rest) →
    p.read (piece ++ (p.spell c ++ rest)) = none → p.read (piece ++ (p.spell b ++ rest')) = none

variable {b : β}

theorem first_replaced (hstable : p.Stable b) {text before after : List α} {c : β}
    (h : p.first text = some (before, c, after)) (rest : List α) :
    p.first (before ++ (p.spell b ++ rest)) = some (before, b, rest) := by
  induction text generalizing before with
  | nil => cases h
  | cons a text ih =>
    obtain ⟨htext, hspell, _⟩ := first_some h
    cases hread : p.read (a :: text) with
    | some hit =>
      rw [first_read hread] at h
      cases h
      exact first_read (hstable.reads rest)
    | none =>
      rw [first_none hread, Option.map_eq_some_iff] at h
      obtain ⟨⟨before', c', after'⟩, hfirst, heq⟩ := h
      cases heq
      rw [htext] at hread
      have hnone := hstable.kept _ c after rest (List.cons_ne_nil a before') hspell hread
      rw [List.cons_append] at hnone ⊢
      rw [first_none hnone, ih hfirst]
      rfl

/-- Replacing leaves the matches where they were. -/
theorem first_sub (hstable : p.Stable b) (text : List α) :
    p.first (p.sub (p.spell b) text) =
      (p.first text).map fun found => (found.1, b, p.sub (p.spell b) found.2.2) := by
  cases h : p.first text with
  | none => rw [sub_unmatched h, h, Option.map_none]
  | some hit =>
    obtain ⟨before, c, after⟩ := hit
    rw [sub_first _ h, first_replaced hstable h, Option.map_some]

theorem found_sub (hstable : p.Stable b) (text : List α) :
    p.found (p.sub (p.spell b) text) = (p.found text).map fun _ => b := by
  cases h : p.first text with
  | none => rw [sub_unmatched h, found_unmatched h, List.map_nil]
  | some hit =>
    obtain ⟨before, c, after⟩ := hit
    have hfirst := first_sub hstable text
    rw [h, Option.map_some] at hfirst
    rw [found_first hfirst, found_first h, found_sub hstable after, List.map_cons]
termination_by text.length
decreasing_by exact first_shorter h

/-- Of two replacements the later one stands. -/
theorem sub_sub (hstable : p.Stable b) (repl text : List α) :
    p.sub repl (p.sub (p.spell b) text) = p.sub repl text := by
  cases h : p.first text with
  | none => rw [sub_unmatched h]
  | some hit =>
    obtain ⟨before, c, after⟩ := hit
    have hfirst := first_sub hstable text
    rw [h, Option.map_some] at hfirst
    rw [sub_first _ hfirst, sub_first _ h, sub_sub hstable repl after]
termination_by text.length
decreasing_by exact first_shorter h

/-- Replacing changes nothing exactly when every match is the new one already. -/
theorem sub_eq_iff (hstable : p.Stable b) (text : List α) :
    p.sub (p.spell b) text = text ↔ ∀ c ∈ p.found text, c = b := by
  constructor
  · intro h c hc
    have hfound := found_sub hstable text
    rw [h] at hfound
    rw [hfound] at hc
    obtain ⟨_, _, rfl⟩ := List.mem_map.mp hc
    rfl
  · intro hall
    cases h : p.first text with
    | none => exact sub_unmatched h _
    | some hit =>
      obtain ⟨before, c, after⟩ := hit
      rw [found_first h, List.forall_mem_cons] at hall
      rw [sub_first _ h, (sub_eq_iff hstable after).mpr hall.2, ← hall.1]
      exact (first_some h).1.symm
termination_by text.length
decreasing_by exact first_shorter h

section
variable [DecidableEq α] {start : List α} {stop : α}

/-- What stands between a start and a stop, one entry at least and no stop in it. -/
def delimitedRead (start : List α) (stop : α) (text : List α) : Option (List α × List α) :=
  if start <+: text then
    let body := text.drop start.length
    match body.dropWhile (· ≠ stop) with
    | [] => none
    | _ :: rest =>
      if body.takeWhile (· ≠ stop) = [] then none else some (body.takeWhile (· ≠ stop), rest)
  else none

theorem delimited_read_iff {text inner rest : List α} :
    delimitedRead start stop text = some (inner, rest) ↔
      text = start ++ (inner ++ stop :: rest) ∧ inner ≠ [] ∧ stop ∉ inner := by
  constructor
  · intro h
    unfold delimitedRead at h
    split at h
    · rename_i hstart
      obtain ⟨body, rfl⟩ := hstart
      rw [List.drop_left] at h
      simp only at h
      split at h
      · cases h
      · rename_i c rest' hdrop
        split at h
        · cases h
        · rename_i hne
          cases h
          have hstop : c = stop := by
            have hhead := List.head?_dropWhile_not (fun c => decide (c ≠ stop)) body
            rw [hdrop] at hhead
            simpa using hhead
          subst hstop
          refine ⟨?_, hne, ?_⟩
          · rw [← hdrop, List.takeWhile_append_dropWhile]
          · intro hmem
            have hnot := List.mem_takeWhile_imp hmem
            simp at hnot
    · cases h
  · rintro ⟨rfl, hne, hstop⟩
    have hall : ∀ c ∈ inner, decide (c ≠ stop) = true := by
      intro c hc
      rw [decide_eq_true_eq]
      rintro rfl
      exact hstop hc
    have htake : (inner ++ stop :: rest).takeWhile (· ≠ stop) = inner := by
      rw [List.takeWhile_append_of_pos hall]
      simp
    have hdrop : (inner ++ stop :: rest).dropWhile (· ≠ stop) = stop :: rest := by
      rw [List.dropWhile_append_of_pos hall]
      simp
    rw [delimitedRead, if_pos (List.prefix_append _ _), List.drop_left]
    simp only [htake, hdrop, if_neg hne]

/-- What is delimited, as a pattern. -/
def delimited (start : List α) (stop : α) : Pattern α (List α) where
  read := delimitedRead start stop
  spell inner := start ++ (inner ++ [stop])
  spell_ne inner := by simp
  read_spell text inner rest h := by
    rw [(delimited_read_iff.mp h).1]
    simp

/-- A match that begins before a start that ends with the stop ends in it. -/
theorem delimited_before {piece tail inner rest : List α} (hpiece : piece ≠ [])
    (hstart : start.getLast? = some stop)
    (h : delimitedRead start stop (piece ++ (start ++ tail)) = some (inner, rest))
    (tail' : List α) : delimitedRead start stop (piece ++ (start ++ tail')) ≠ none := by
  obtain ⟨htext, hne, hstop⟩ := delimited_read_iff.mp h
  obtain ⟨front, hfront⟩ : ∃ front, start = front ++ [stop] := by
    obtain ⟨front, hfront⟩ := List.getLast?_eq_some_iff.mp hstart
    exact ⟨front, hfront⟩
  have hpos := List.length_pos_iff.mpr hpiece
  have hquote : stop ∈ (piece ++ start).drop start.length := by
    have hle : start.length ≤ (piece ++ front).length := by
      rw [hfront, List.length_append, List.length_append, List.length_singleton]
      omega
    have hsplit : piece ++ start = (piece ++ front) ++ [stop] := by
      rw [List.append_assoc, ← hfront]
    rw [hsplit, List.drop_append_of_le_length hle]
    simp
  have hoverlap : ∀ more, (piece ++ start) ++ more ≠ start ++ inner := by
    intro more heq
    have hinner : inner = (piece ++ start).drop start.length ++ more := by
      rw [← List.drop_append_of_le_length (by simp), heq, List.drop_left]
    exact hstop (hinner ▸ List.mem_append_left _ hquote)
  have hends : ∃ more, piece ++ start = start ++ (inner ++ stop :: more) := by
    rw [← List.append_assoc, ← List.append_assoc, List.append_eq_append_iff] at htext
    rcases htext with ⟨more, heq, _⟩ | ⟨more, heq, hrest⟩
    · exact absurd heq.symm (hoverlap more)
    · cases more with
      | nil => exact absurd (by simpa using heq) (hoverlap [])
      | cons c more =>
        obtain rfl : stop = c := (List.cons.inj hrest).1
        exact ⟨more, by simpa using heq⟩
  obtain ⟨more, hmore⟩ := hends
  have hread : delimitedRead start stop (piece ++ (start ++ tail')) =
      some (inner, more ++ tail') := by
    rw [delimited_read_iff, ← List.append_assoc, hmore]
    exact ⟨by simp, hne, hstop⟩
  rw [hread]
  exact Option.some_ne_none _

theorem delimited_stable {inner : List α} (hstart : start.getLast? = some stop)
    (hne : inner ≠ []) (hstop : stop ∉ inner) : (delimited start stop).Stable inner where
  reads rest := by
    apply delimited_read_iff.mpr
    exact ⟨by simp [delimited], hne, hstop⟩
  kept piece other rest rest' hpiece _ hnone := by
    cases hread : (delimited start stop).read
        (piece ++ ((delimited start stop).spell inner ++ rest')) with
    | none => rfl
    | some hit =>
      simp only [delimited, List.append_assoc] at hread hnone
      exact absurd hnone (delimited_before hpiece hstart hread _)

end

end Pattern

end Lib.Matches
