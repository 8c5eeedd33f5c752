import Mathlib.Data.List.Infix
import Mathlib.Data.List.TakeWhile

namespace Lib.LineEdits

variable {α : Type*}

/-- The lines after a pass over them, where `edit` says what to put for a line and how many
more go with it; `skip` are left out first. -/
def passFrom (edit : List (List α) → Option (List α × Nat)) :
    Nat → List (List α) → List (List α)
  | _, [] => []
  | skip + 1, _ :: rest => passFrom edit skip rest
  | 0, line :: rest =>
    match edit (line :: rest) with
    | some (new, more) => new :: passFrom edit more rest
    | none => line :: passFrom edit 0 rest

section
variable {edit : List (List α) → Option (List α × Nat)} {line : List α}
  {rest lines : List (List α)}

theorem pass_some {new : List α} {more : Nat} (h : edit (line :: rest) = some (new, more)) :
    passFrom edit 0 (line :: rest) = new :: passFrom edit more rest := by
  rw [passFrom, h]

theorem pass_none (h : edit (line :: rest) = none) :
    passFrom edit 0 (line :: rest) = line :: passFrom edit 0 rest := by
  rw [passFrom, h]

theorem pass_ne (h : lines ≠ []) : passFrom edit 0 lines ≠ [] := by
  obtain ⟨line, rest, rfl⟩ := List.exists_cons_of_ne_nil h
  rw [passFrom]
  split <;> exact List.cons_ne_nil _ _

end

section
variable {brk : α} {line : List α} {rest : List (List α)}

theorem intercalate_front (front line : List α) (rest : List (List α)) :
    [brk].intercalate ((front ++ line) :: rest) = front ++ [brk].intercalate (line :: rest) := by
  cases rest with
  | nil => rw [List.intercalate_singleton, List.intercalate_singleton]
  | cons next rest =>
    rw [List.intercalate_cons_cons, List.intercalate_cons_cons]
    simp only [List.append_assoc]

theorem front_intercalate {key : List α} (hkey : brk ∉ key) :
    key <+: [brk].intercalate (line :: rest) ↔ key <+: line := by
  cases rest with
  | nil => rw [List.intercalate_singleton]
  | cons next rest =>
    rw [List.intercalate_cons_cons, List.append_assoc]
    constructor
    · intro h
      rcases List.prefix_or_prefix_of_prefix h (List.prefix_append line _) with hle | ⟨tail, rfl⟩
      · exact hle
      · -- a longer key would go over the break
        rw [List.prefix_append_right_inj, List.singleton_append, List.prefix_cons_iff] at h
        rcases h with rfl | ⟨tail, rfl, _⟩
        · rw [List.append_nil]
        · simp at hkey
    · exact fun h => h.trans (List.prefix_append _ _)

end

variable [DecidableEq α]

section
variable (blank : α → Bool) (sep : α)

/-- How many more lines there are to the one that shows the separator, with only blanks before. -/
def opens : List (List α) → Option Nat
  | [] => none
  | line :: rest =>
    match line.dropWhile blank with
    | [] => (opens rest).map (· + 1)
    | a :: _ => if a = sep then some 0 else none

/-- Whether the first line sets a key, and how many more go with it. -/
def sets (key : List α) : List (List α) → Option Nat
  | [] => none
  | line :: rest => if key <+: line then opens blank sep (line.drop key.length :: rest) else none

/-- A key with the line that sets it. -/
structure Entry where
  key : List α
  gap : List α
  value : List α
  key_ne : key ≠ []
  word : ∀ a ∈ key, blank a = false ∧ a ≠ sep
  blanks : ∀ a ∈ gap, blank a = true

variable {blank sep}

def Entry.line (e : Entry blank sep) : List α := e.key ++ (e.gap ++ sep :: e.value)

/-- A line that sets the key of an entry becomes that entry's line. -/
def setKeys (entries : List (Entry blank sep)) (lines : List (List α)) : Option (List α × Nat) :=
  entries.findSome? fun e => (sets blank sep e.key lines).map fun more => (e.line, more)

/-- Entries of one key have one line. -/
def Agree (entries entries' : List (Entry blank sep)) : Prop :=
  ∀ e ∈ entries, ∀ e' ∈ entries', e.key = e'.key → e.line = e'.line

end

section
variable {blank : α → Bool} {sep : α} {line : List α} {rest lines : List (List α)}
  {entries entries' : List (Entry blank sep)}

theorem opens_word {a : α} (hblank : blank a = false) (hsep : a ≠ sep) (line : List α) :
    opens blank sep ((a :: line) :: rest) = none := by
  rw [opens, List.dropWhile_cons_of_neg (by simp [hblank])]
  exact if_neg hsep

/-- A line that begins with a key does not show the separator. -/
theorem opens_key (e : Entry blank sep) (line : List α) :
    opens blank sep ((e.key ++ line) :: rest) = none := by
  obtain ⟨a, key, hkey⟩ := List.exists_cons_of_ne_nil e.key_ne
  have ha := e.word a (by rw [hkey]; exact List.mem_cons_self)
  rw [hkey]
  exact opens_word ha.1 ha.2 _

theorem opens_sets {e : Entry blank sep} {more : Nat}
    (h : sets blank sep e.key (line :: rest) = some more) :
    opens blank sep (line :: rest) = none := by
  rw [sets] at h
  split at h
  · rename_i hfront
    obtain ⟨after, rfl⟩ := hfront
    exact opens_key e after
  · cases h

theorem sets_line (hsep : blank sep = false) (e : Entry blank sep) :
    sets blank sep e.key (e.line :: rest) = some 0 := by
  rw [Entry.line, sets, if_pos (List.prefix_append _ _), List.drop_left, opens,
    List.dropWhile_append_of_pos e.blanks, List.dropWhile_cons_of_neg (by simp [hsep])]
  exact if_pos rfl

theorem key_of_front {e e' : Entry blank sep} {more : Nat}
    (h : sets blank sep e.key (line :: rest) = some more) (hfront : e'.key <+: line)
    (hle : e.key <+: e'.key) : e.key = e'.key := by
  obtain ⟨after, rfl⟩ := hfront
  obtain ⟨further, hfurther⟩ := hle
  cases further with
  | nil => rw [← hfurther, List.append_nil]
  | cons a further =>
    have ha := e'.word a (by rw [← hfurther]; simp)
    rw [sets, ← hfurther, List.append_assoc, if_pos (List.prefix_append _ _), List.drop_left,
      List.cons_append, opens_word ha.1 ha.2] at h
    cases h

/-- A line sets one key. -/
theorem sets_unique {e e' : Entry blank sep} {more more' : Nat}
    (h : sets blank sep e.key (line :: rest) = some more)
    (h' : sets blank sep e'.key (line :: rest) = some more') : e.key = e'.key := by
  have hfront : ∀ {f : Entry blank sep} {n : Nat},
      sets blank sep f.key (line :: rest) = some n → f.key <+: line := by
    intro f n hf
    rw [sets] at hf
    split at hf
    · assumption
    · cases hf
  rcases List.prefix_or_prefix_of_prefix (hfront h) (hfront h') with hle | hle
  · exact key_of_front h (hfront h') hle
  · exact (key_of_front h' (hfront h) hle).symm

theorem set_keys_some {new : List α} {more : Nat} (h : setKeys entries lines = some (new, more)) :
    ∃ e ∈ entries, new = e.line ∧ sets blank sep e.key lines = some more := by
  obtain ⟨e, hmem, he⟩ := List.exists_of_findSome?_eq_some h
  obtain ⟨found, hfound, heq⟩ := Option.map_eq_some_iff.mp he
  cases heq
  exact ⟨e, hmem, rfl, hfound⟩

/-- Where a line shows the separator, none of the entries is set. -/
theorem set_keys_none {more : Nat} (h : opens blank sep (line :: rest) = some more) :
    setKeys entries (line :: rest) = none := by
  cases hset : setKeys entries (line :: rest) with
  | none => rfl
  | some edit =>
    obtain ⟨e, _, _, hsets⟩ := set_keys_some hset
    rw [opens_sets hsets] at h
    cases h

/-- A pass leaves how a line shows the separator as it was. -/
theorem opens_pass (line : List α) (rest : List (List α)) :
    opens blank sep (line :: passFrom (setKeys entries) 0 rest) =
      opens blank sep (line :: rest) := by
  induction rest generalizing line with
  | nil => rfl
  | cons next rest ih =>
    rw [opens, opens]
    split
    · congr 1
      rw [passFrom]
      split
      · rename_i new more hset
        obtain ⟨e, _, rfl, hsets⟩ := set_keys_some hset
        rw [opens_sets hsets, Entry.line, opens_key]
      · exact ih next
    · rfl

theorem sets_pass (key : List α) (line : List α) (rest : List (List α)) :
    sets blank sep key (line :: passFrom (setKeys entries) 0 rest) =
      sets blank sep key (line :: rest) := by
  rw [sets, sets]
  split
  · exact opens_pass _ rest
  · rfl

/-- The lines that go with one that sets a key are kept by a pass over them. -/
theorem pass_opens {edit : List (List α) → Option (List α × Nat)} {more : Nat}
    (h : opens blank sep (line :: rest) = some more) :
    passFrom edit more (passFrom (setKeys entries) 0 rest) =
      passFrom edit 0 (passFrom (setKeys entries) more rest) := by
  induction rest generalizing line more with
  | nil => cases more <;> rfl
  | cons next rest ih =>
    rw [opens] at h
    split at h
    · obtain ⟨further, hfurther, rfl⟩ := Option.map_eq_some_iff.mp h
      rw [pass_none (set_keys_none hfurther)]
      exact ih hfurther
    · split at h
      · cases h
        rfl
      · cases h

/-- Two passes are one with the entries of both. -/
theorem pass_pass (hsep : blank sep = false) (hagree : Agree entries entries') (skip : Nat)
    (lines : List (List α)) :
    passFrom (setKeys entries') 0 (passFrom (setKeys entries) skip lines) =
      passFrom (setKeys (entries ++ entries')) skip lines := by
  induction lines generalizing skip with
  | nil => cases skip <;> rfl
  | cons line rest ih =>
    cases skip with
    | succ skip => exact ih skip
    | zero =>
      cases hset : setKeys entries (line :: rest) with
      | some edit =>
        obtain ⟨new, more⟩ := edit
        obtain ⟨e, hmem, rfl, _⟩ := set_keys_some hset
        have happend : setKeys (entries ++ entries') (line :: rest) = some (e.line, more) := by
          rw [setKeys, List.findSome?_append]
          exact congrArg (Option.or · _) hset
        have hkept :
            passFrom (setKeys entries') 0 (e.line :: passFrom (setKeys entries) more rest) =
            e.line :: passFrom (setKeys entries') 0 (passFrom (setKeys entries) more rest) := by
          cases hset' : setKeys entries' (e.line :: passFrom (setKeys entries) more rest) with
          | none => exact pass_none hset'
          | some edit =>
            obtain ⟨new, more'⟩ := edit
            obtain ⟨e', hmem', rfl, hsets⟩ := set_keys_some hset'
            have hkey := sets_unique (sets_line hsep e) hsets
            rw [pass_some hset', ← hagree e hmem e' hmem' hkey]
            rw [← hkey, sets_line hsep e] at hsets
            cases hsets
            rfl
        rw [pass_some hset, hkept, pass_some happend, ih more]
      | none =>
        have happend : setKeys (entries ++ entries') (line :: rest) =
            setKeys entries' (line :: rest) := by
          rw [setKeys, List.findSome?_append]
          exact congrArg (Option.or · _) hset
        have hsame : setKeys entries' (line :: passFrom (setKeys entries) 0 rest) =
            setKeys entries' (line :: rest) := by
          simp only [setKeys, sets_pass]
        rw [pass_none hset]
        cases hset' : setKeys entries' (line :: rest) with
        | none =>
          rw [pass_none (hsame.trans hset'), pass_none (happend.trans hset'), ih 0]
        | some edit =>
          obtain ⟨new, more⟩ := edit
          obtain ⟨e', _, rfl, hsets⟩ := set_keys_some hset'
          rw [pass_some (hsame.trans hset'), pass_some (happend.trans hset'), ← ih more]
          congr 1
          rw [sets] at hsets
          split at hsets
          · exact pass_opens hsets
          · cases hsets

theorem pass_nothing (lines : List (List α)) :
    passFrom (setKeys ([] : List (Entry blank sep))) 0 lines = lines := by
  induction lines with
  | nil => rfl
  | cons line rest ih => exact congrArg (line :: ·) ih

/-- Passes for one entry after another are one with all of them. -/
theorem passes_pass (hsep : blank sep = false) (hagree : Agree entries entries)
    (lines : List (List α)) :
    entries.foldl (fun lines e => passFrom (setKeys [e]) 0 lines) lines =
      passFrom (setKeys entries) 0 lines := by
  induction entries generalizing lines with
  | nil => exact (pass_nothing lines).symm
  | cons e entries ih =>
    have hrest : Agree entries entries := fun f hf f' hf' =>
      hagree f (List.mem_cons_of_mem _ hf) f' (List.mem_cons_of_mem _ hf')
    have hfirst : Agree [e] entries := by
      intro f hf f' hf'
      exact hagree f (List.mem_singleton.mp hf ▸ List.mem_cons_self) f'
        (List.mem_cons_of_mem _ hf')
    rw [List.foldl_cons, ih hrest, pass_pass hsep hfirst]
    rfl

/-- A second pass changes nothing. -/
theorem pass_twice (hsep : blank sep = false) (hagree : Agree entries entries)
    (lines : List (List α)) :
    passFrom (setKeys entries) 0 (passFrom (setKeys entries) 0 lines) =
      passFrom (setKeys entries) 0 lines := by
  have htwice : setKeys (entries ++ entries) = setKeys entries := by
    funext lines
    rw [setKeys, List.findSome?_append]
    exact Option.or_self
  rw [pass_pass hsep hagree, htwice]

/-- The lines after a pass are lines from before it and those of entries. -/
theorem mem_pass {skip : Nat} (h : line ∈ passFrom (setKeys entries) skip lines) :
    line ∈ lines ∨ ∃ e ∈ entries, line = e.line := by
  induction lines generalizing skip with
  | nil => cases skip <;> cases h
  | cons next rest ih =>
    cases skip with
    | succ skip => exact (ih h).imp_left (List.mem_cons_of_mem next)
    | zero =>
      cases hset : setKeys entries (next :: rest) with
      | none =>
        rw [pass_none hset] at h
        rcases List.mem_cons.mp h with rfl | h
        · exact Or.inl List.mem_cons_self
        · exact (ih h).imp_left (List.mem_cons_of_mem next)
      | some edit =>
        obtain ⟨new, more⟩ := edit
        rw [pass_some hset] at h
        obtain ⟨e, hmem, rfl, _⟩ := set_keys_some hset
        rcases List.mem_cons.mp h with rfl | h
        · exact Or.inr ⟨e, hmem, rfl⟩
        · exact (ih h).imp_left (List.mem_cons_of_mem next)

/-- After a pass each line that sets the key of an entry is that entry's line. -/
theorem pass_settled (hsep : blank sep = false) (hagree : Agree entries entries) {skip : Nat}
    {before : List (List α)}
    (h : passFrom (setKeys entries) skip lines = before ++ line :: rest)
    {e : Entry blank sep} (he : e ∈ entries) {more : Nat}
    (hsets : sets blank sep e.key (line :: rest) = some more) : line = e.line := by
  induction lines generalizing skip before with
  | nil =>
    cases skip <;> exact absurd h.symm (List.append_ne_nil_of_right_ne_nil _ (List.cons_ne_nil _ _))
  | cons next after ih =>
    cases skip with
    | succ skip => exact ih h
    | zero =>
      cases hset : setKeys entries (next :: after) with
      | none =>
        rw [pass_none hset] at h
        cases before with
        | nil =>
          cases h
          rw [sets_pass] at hsets
          have hnone := List.findSome?_eq_none_iff.mp hset e he
          rw [hsets] at hnone
          cases hnone
        | cons first before =>
          rw [List.cons_append, List.cons.injEq] at h
          exact ih h.2
      | some edit =>
        obtain ⟨new, further⟩ := edit
        rw [pass_some hset] at h
        obtain ⟨e', he', rfl, _⟩ := set_keys_some hset
        cases before with
        | nil =>
          cases h
          exact hagree e' he' e he (sets_unique (sets_line hsep e') hsets)
        | cons first before =>
          rw [List.cons_append, List.cons.injEq] at h
          exact ih h.2

end

section
variable {blank : α → Bool} {sep brk : α} {line : List α} {rest lines : List (List α)}

/-- The text shows the separator after blanks, so many breaks among them. -/
def Shows (blank : α → Bool) (sep brk : α) (text : List α) (more : Nat) : Prop :=
  ∃ gap value, text = gap ++ sep :: value ∧ (∀ a ∈ gap, blank a = true) ∧ gap.count brk = more

/-- Blanks in front do not hide the separator. -/
theorem shows_append (hsep : blank sep = false) {front text : List α}
    (hfront : ∀ a ∈ front, blank a = true) {more : Nat} :
    Shows blank sep brk (front ++ text) more ↔
      ∃ further, Shows blank sep brk text further ∧ front.count brk + further = more := by
  constructor
  · rintro ⟨gap, value, heq, hgap, rfl⟩
    rcases List.append_eq_append_iff.mp heq with ⟨gap', rfl, rfl⟩ | ⟨tail, rfl, htail⟩
    · rw [List.forall_mem_append] at hgap
      exact ⟨_, ⟨gap', value, rfl, hgap.2, rfl⟩, List.count_append.symm⟩
    · cases tail with
      | nil =>
        rw [List.nil_append] at htail
        rw [List.append_nil]
        exact ⟨0, ⟨[], value, htail.symm, by simp, rfl⟩, rfl⟩
      | cons a tail =>
        -- the separator would be one of the blanks
        rw [List.cons_append, List.cons.injEq] at htail
        have hblank := hfront sep (by rw [htail.1]; simp)
        rw [hsep] at hblank
        cases hblank
  · rintro ⟨further, ⟨gap, value, rfl, hgap, rfl⟩, rfl⟩
    exact ⟨front ++ gap, value, (List.append_assoc ..).symm,
      List.forall_mem_append.mpr ⟨hfront, hgap⟩, List.count_append⟩

theorem shows_word {a : α} (ha : blank a = false) {text : List α} {more : Nat} :
    Shows blank sep brk (a :: text) more ↔ a = sep ∧ more = 0 := by
  constructor
  · rintro ⟨gap, value, heq, hgap, rfl⟩
    cases gap with
    | nil => exact ⟨(List.cons.inj heq).1, rfl⟩
    | cons first gap =>
      have hblank := hgap first List.mem_cons_self
      rw [← (List.cons.inj heq).1, ha] at hblank
      cases hblank
  · rintro ⟨rfl, rfl⟩
    exact ⟨[], text, rfl, by simp, rfl⟩

/-- Lines show the separator where their text does, and as many lines go before it as it has
breaks before it. -/
theorem opens_iff (hbreak : blank brk = true) (hsep : blank sep = false)
    (hlines : ∀ line ∈ lines, brk ∉ line) {more : Nat} :
    opens blank sep lines = some more ↔ Shows blank sep brk ([brk].intercalate lines) more := by
  induction lines generalizing more with
  | nil => simp [opens, Shows]
  | cons line rest ih =>
    rw [List.forall_mem_cons] at hlines
    have hrun : ∀ a ∈ line.takeWhile blank, blank a = true := fun a ha =>
      List.mem_takeWhile_imp ha
    have hcount : (line.takeWhile blank).count brk = 0 :=
      List.count_eq_zero.mpr fun h => hlines.1 ((List.takeWhile_prefix _).subset h)
    have htext : [brk].intercalate (line :: rest) =
        line.takeWhile blank ++ [brk].intercalate (line.dropWhile blank :: rest) := by
      rw [← intercalate_front, List.takeWhile_append_dropWhile]
    rw [htext, shows_append hsep hrun, hcount, opens]
    simp only [Nat.zero_add, exists_eq_right]
    cases hafter : line.dropWhile blank with
    | nil =>
      cases rest with
      | nil => simp [opens, Shows]
      | cons next rest =>
        have hnext : ∀ a ∈ [brk], blank a = true := fun a ha => List.mem_singleton.mp ha ▸ hbreak
        rw [List.intercalate_cons_cons, List.nil_append, shows_append hsep hnext,
          List.count_singleton_self, Option.map_eq_some_iff]
        simp only [ih hlines.2, Nat.add_comm 1]
    | cons a after =>
      have ha : blank a = false := by
        have hhead := List.head?_dropWhile_not blank line
        rw [hafter] at hhead
        simpa using hhead
      have hword : [brk].intercalate ((a :: after) :: rest) =
          a :: [brk].intercalate (after :: rest) := intercalate_front [a] after rest
      rw [hword, shows_word ha]
      simp [eq_comm]

/-- Lines set a key where their text begins with it and then shows the separator. -/
theorem sets_iff (hbreak : blank brk = true) (hsep : blank sep = false)
    (hlines : ∀ line ∈ lines, brk ∉ line) {key : List α} (hkey : brk ∉ key) {more : Nat} :
    sets blank sep key lines = some more ↔ ∃ text,
      [brk].intercalate lines = key ++ text ∧ Shows blank sep brk text more := by
  cases lines with
  | nil => simp [sets, Shows]
  | cons line rest =>
    rw [sets]
    split
    · rename_i hfront
      obtain ⟨after, rfl⟩ := hfront
      rw [List.forall_mem_cons] at hlines
      have hafter : ∀ line ∈ after :: rest, brk ∉ line :=
        List.forall_mem_cons.mpr ⟨fun h => hlines.1 (List.mem_append_right key h), hlines.2⟩
      rw [List.drop_left, opens_iff hbreak hsep hafter, intercalate_front]
      simp
    · rename_i hfront
      refine iff_of_false (fun h => nomatch h) ?_
      rintro ⟨text, htext, _⟩
      exact hfront ((front_intercalate hkey).mp (htext ▸ List.prefix_append key text))

end

end Lib.LineEdits
