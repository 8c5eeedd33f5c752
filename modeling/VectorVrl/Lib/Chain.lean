import Mathlib.Data.List.Basic
import Mathlib.Data.List.Nodup
import Mathlib.Data.List.Perm.Subperm

namespace Lib.Chain

variable {α : Type*}

/-- `b` comes right after `a` on a path. -/
def Next (path : List α) (a b : α) : Prop :=
  ∃ i : Nat, path[i]? = some a ∧ path[i + 1]? = some b

theorem next_single {x a b : α} : ¬Next [x] a b := by
  intro h
  obtain ⟨i, _, hb⟩ := h
  simp at hb

theorem next_cons {x y a b : α} {rest : List α} :
    Next (x :: y :: rest) a b ↔ a = x ∧ b = y ∨ Next (y :: rest) a b := by
  constructor
  · intro h
    obtain ⟨i, ha, hb⟩ := h
    cases i with
    | zero => exact Or.inl ⟨(Option.some.inj ha).symm, (Option.some.inj hb).symm⟩
    | succ i => exact Or.inr ⟨i, ha, hb⟩
  · intro hor
    rcases hor with ⟨rfl, rfl⟩ | ⟨i, ha, hb⟩
    · exact ⟨0, rfl, rfl⟩
    · exact ⟨i + 1, ha, hb⟩

/-- What comes before what, among the names, is one simple path through all of them. -/
structure SinglePath (names : List α) (before : α → List α) (path : List α) : Prop where
  perm : path.Perm names
  edges : ∀ a ∈ names, ∀ b ∈ names, a ∈ before b ↔ Next path a b

/-- Go on from the last of `order` to the first that follows it, until none does. -/
def follow (following : α → List α) : Nat → List α → Option (List α)
  | 0, _ => none
  | fuel + 1, order =>
    match order.getLast?.bind fun last => (following last).head? with
    | none => some order
    | some next => follow following fuel (order ++ [next])

/-- Each entry of a walk has the entry before it as its only predecessor, and the first has none. -/
structure Trail (before : α → List α) (order : List α) : Prop where
  first : ∀ a, order[0]? = some a → before a = []
  next : ∀ (i : Nat) a b, order[i]? = some a → order[i + 1]? = some b → before b = [a]

section
variable [DecidableEq α] (names : List α) (before : α → List α)

/-- The names without a predecessor. -/
def starts : List α := names.filter fun b => (before b).isEmpty

/-- The names that have `a` as a predecessor. -/
def followers (a : α) : List α := names.filter fun b => a ∈ before b

/-- The checks made before walking: one start, and nobody with two predecessors or two followers. -/
def SingleFile : Prop :=
  (starts names before).length = 1 ∧ (∀ b ∈ names, (before b).length ≤ 1) ∧
    ∀ a ∈ names, (followers names before a).length ≤ 1

end

variable {before : α → List α} {order : List α}

/-- Two places with one entry lead back, step by step, to the first place and a later one. -/
theorem Trail.apart (h : Trail before order) (i j : Nat) (hij : i < j) {x : α}
    (hi : order[i]? = some x) (hj : order[j]? = some x) : False := by
  induction i generalizing j x with
  | zero =>
    cases j with
    | zero => omega
    | succ j =>
      have hlt := (List.getElem?_eq_some_iff.mp hj).1
      have hback := h.next j order[j] x (List.getElem?_eq_getElem (by omega)) hj
      rw [h.first x hi] at hback
      cases hback
  | succ i ih =>
    cases j with
    | zero => omega
    | succ j =>
      have hlt := (List.getElem?_eq_some_iff.mp hj).1
      have hleft : order[i]? = some order[i] := List.getElem?_eq_getElem (by omega)
      have hright : order[j]? = some order[j] := List.getElem?_eq_getElem (by omega)
      have hsame := (h.next i _ x hleft hi).symm.trans (h.next j _ x hright hj)
      rw [← List.singleton_inj.mp hsame] at hright
      exact ih j (by omega) hleft hright

/-- A walk never comes back to where it was. -/
theorem Trail.nodup (h : Trail before order) : order.Nodup := by
  rw [List.nodup_iff_getElem?_ne_getElem?]
  intro i j hij hj heq
  have hget := List.getElem?_eq_getElem hj
  exact h.apart i j hij (heq.trans hget) hget

theorem Trail.snoc (h : Trail before order) {a b : α} (hlast : order.getLast? = some a)
    (hb : before b = [a]) : Trail before (order ++ [b]) := by
  obtain ⟨start, rfl⟩ := List.getLast?_eq_some_iff.mp hlast
  refine ⟨?_, ?_⟩
  · intro x hx
    rw [List.getElem?_append_left (by simp)] at hx
    exact h.first x hx
  · intro i x y hx hy
    have hlt := (List.getElem?_eq_some_iff.mp hy).1
    rw [List.length_append, List.length_singleton] at hlt
    rw [List.getElem?_append_left (by omega)] at hx
    by_cases hinside : i + 1 < (start ++ [a]).length
    · rw [List.getElem?_append_left hinside] at hy
      exact h.next i x y hx hy
    · have hi : i = start.length := by
        rw [List.length_append, List.length_singleton] at hlt hinside
        omega
      subst hi
      simp only [List.getElem?_concat_length, Option.some.injEq] at hx
      rw [List.getElem?_append_right (by simp)] at hy
      simp only [List.length_append, List.length_singleton, Nat.sub_self,
        List.getElem?_cons_zero, Option.some.injEq] at hy
      rw [← hx, ← hy]
      exact hb

theorem Trail.single {a : α} (h : before a = []) : Trail before [a] := by
  refine ⟨?_, ?_⟩
  · intro x hx
    cases hx
    exact h
  · intro i x y _ hy
    simp at hy

theorem Trail.length_le (h : Trail before order) {names : List α} (hsub : order ⊆ names) :
    order.length ≤ names.length := (h.nodup.subperm hsub).length_le

/-- Following only ever ends: a walk is no longer than the names it stays in. -/
theorem follow_ends {names : List α} {following : α → List α}
    (hfollow : ∀ a b, b ∈ following a → b ∈ names ∧ before b = [a]) (fuel : Nat)
    (h : Trail before order) (hsub : order ⊆ names) (hfuel : names.length < fuel + order.length) :
    ∃ done, follow following fuel order = some done ∧ Trail before done ∧ done ⊆ names := by
  induction fuel generalizing order with
  | zero =>
    have := h.length_le hsub
    omega
  | succ fuel ih =>
    rw [follow]
    cases hnext : order.getLast?.bind fun last => (following last).head? with
    | none => exact ⟨order, rfl, h, hsub⟩
    | some next =>
      obtain ⟨last, hlast, hhead⟩ := Option.bind_eq_some_iff.mp hnext
      obtain ⟨hmem, hback⟩ := hfollow last next (List.mem_of_head? hhead)
      have hsub' : order ++ [next] ⊆ names :=
        List.append_subset.mpr ⟨hsub, by simpa using hmem⟩
      apply ih (h.snoc hlast hback) hsub'
      rw [List.length_append, List.length_singleton]
      omega

theorem follow_more {following : α → List α} {fuel fuel' : Nat} {done : List α}
    (h : follow following fuel order = some done) (hle : fuel ≤ fuel') :
    follow following fuel' order = some done := by
  induction fuel generalizing order fuel' with
  | zero => cases h
  | succ fuel ih =>
    obtain ⟨more, rfl⟩ := Nat.exists_eq_add_of_lt (Nat.lt_of_succ_le hle)
    rw [follow] at h ⊢
    cases hnext : order.getLast?.bind fun last => (following last).head? with
    | none =>
      rw [hnext] at h
      exact h
    | some next =>
      rw [hnext] at h
      exact ih h (Nat.le_add_right fuel more)

/-- An entry is the first and has no predecessor, or has the entry before it as its only one. -/
theorem Trail.before_of_mem (h : Trail before order) {b : α} (hb : b ∈ order) :
    order[0]? = some b ∧ before b = [] ∨
      ∃ (i : Nat) (a : α), order[i]? = some a ∧ order[i + 1]? = some b ∧ before b = [a] := by
  obtain ⟨i, hi⟩ := List.mem_iff_getElem?.mp hb
  cases i with
  | zero => exact Or.inl ⟨hi, h.first b hi⟩
  | succ i =>
    have hlt := (List.getElem?_eq_some_iff.mp hi).1
    have hprev : order[i]? = some order[i] := List.getElem?_eq_getElem (by omega)
    exact Or.inr ⟨i, order[i], hprev, hi, h.next i _ b hprev hi⟩

/-- A walk through all names is the relation of the predecessor lists. -/
theorem Trail.single_path {names : List α} (h : Trail before order) (hperm : order.Perm names) :
    SinglePath names before order := by
  refine ⟨hperm, ?_⟩
  intro a ha b hb
  constructor
  · intro hmem
    rcases h.before_of_mem (hperm.mem_iff.mpr hb) with ⟨_, hnone⟩ | ⟨i, prev, hi, hj, hone⟩
    · rw [hnone] at hmem
      cases hmem
    · rw [hone, List.mem_singleton] at hmem
      subst hmem
      exact ⟨i, hi, hj⟩
  · intro hnext
    obtain ⟨i, hi, hj⟩ := hnext
    rw [h.next i a b hi hj]
    exact List.mem_singleton_self a

theorem Trail.before_nodup (h : Trail before order) {b : α} (hb : b ∈ order) :
    (before b).Nodup := by
  rcases h.before_of_mem hb with ⟨_, hnone⟩ | ⟨_, prev, _, _, hone⟩
  · rw [hnone]
    exact List.nodup_nil
  · rw [hone]
    exact List.nodup_singleton prev

theorem Trail.congr {before' : α → List α} (h : Trail before order)
    (hsame : ∀ a ∈ order, before a = before' a) : Trail before' order := by
  refine ⟨?_, ?_⟩
  · intro a ha
    rw [← hsame a (List.mem_of_getElem? ha)]
    exact h.first a ha
  · intro i a b ha hb
    rw [← hsame b (List.mem_of_getElem? hb)]
    exact h.next i a b ha hb

theorem SinglePath.congr {names path : List α} {before' : α → List α}
    (h : SinglePath names before path)
    (hsame : ∀ a ∈ names, ∀ b ∈ names, a ∈ before b ↔ a ∈ before' b) :
    SinglePath names before' path :=
  ⟨h.perm, fun a ha b hb => (hsame a ha b hb).symm.trans (h.edges a ha b hb)⟩

theorem next_left {path : List α} (hp : path.Nodup) {a a' b : α} (h : Next path a b)
    (h' : Next path a' b) : a = a' := by
  obtain ⟨i, ha, hb⟩ := h
  obtain ⟨j, ha', hb'⟩ := h'
  have hi := (List.getElem?_eq_some_iff.mp hb).1
  have hij := (List.getElem?_inj hi hp).mp (hb.trans hb'.symm)
  rw [Nat.succ.inj hij] at ha
  exact Option.some.inj (ha.symm.trans ha')

theorem next_right {path : List α} (hp : path.Nodup) {a b b' : α} (h : Next path a b)
    (h' : Next path a b') : b = b' := by
  obtain ⟨i, ha, hb⟩ := h
  obtain ⟨j, ha', hb'⟩ := h'
  have hi := (List.getElem?_eq_some_iff.mp ha).1
  have hij := (List.getElem?_inj hi hp).mp (ha.trans ha'.symm)
  rw [hij] at hb
  exact Option.some.inj (hb.symm.trans hb')

/-- Whoever starts where a path starts, only goes on along it and stops just where it ends, goes
through it once. -/
theorem path_unique {path road : List α} (hroad : road.Nodup) (hstart : path[0]? = road[0]?)
    (hsteps : ∀ a b, Next path a b → Next road a b)
    (hstop : ∀ a, path.getLast? = some a → ∀ b, ¬Next road a b) : path = road := by
  apply List.ext_getElem?
  intro i
  induction i with
  | zero => exact hstart
  | succ i ih =>
    cases ha : path[i]? with
    | none =>
      rw [List.getElem?_eq_none_iff.mpr (Nat.le_succ_of_le (List.getElem?_eq_none_iff.mp ha))]
      rw [ha] at ih
      rw [List.getElem?_eq_none_iff.mpr (Nat.le_succ_of_le (List.getElem?_eq_none_iff.mp ih.symm))]
    | some a =>
      have haroad : road[i]? = some a := ih.symm.trans ha
      cases hb : path[i + 1]? with
      | some b =>
        obtain ⟨j, hj, hjnext⟩ := hsteps a b ⟨i, ha, hb⟩
        have hlt := (List.getElem?_eq_some_iff.mp hj).1
        rw [(List.getElem?_inj hlt hroad).mp (hj.trans haroad.symm)] at hjnext
        exact hjnext.symm
      | none =>
        have hlast : path.getLast? = some a := by
          have hle := List.getElem?_eq_none_iff.mp hb
          have hlt := (List.getElem?_eq_some_iff.mp ha).1
          rw [List.getLast?_eq_getElem?, show path.length - 1 = i by omega]
          exact ha
        cases hnext : road[i + 1]? with
        | none => rfl
        | some b => exact absurd ⟨i, haroad, hnext⟩ (hstop a hlast b)

/-- Nothing follows the end of a path. -/
theorem no_next_of_last {path : List α} (hp : path.Nodup) {a b : α}
    (h : path.getLast? = some a) : ¬Next path a b := by
  intro hnext
  obtain ⟨i, ha, hb⟩ := hnext
  have hi := (List.getElem?_eq_some_iff.mp ha).1
  have hlt := (List.getElem?_eq_some_iff.mp hb).1
  rw [List.getLast?_eq_getElem?] at h
  have hsame := (List.getElem?_inj hi hp).mp (ha.trans h.symm)
  omega

theorem at_most_one {l : List α} (hl : l.Nodup) (h : ∀ a ∈ l, ∀ b ∈ l, a = b) : l.length ≤ 1 := by
  cases l with
  | nil => exact Nat.zero_le 1
  | cons a rest =>
    cases rest with
    | nil => exact Nat.le_refl 1
    | cons b rest =>
      have hab := h a (by simp) b (by simp)
      rw [hab] at hl
      exact absurd (List.mem_cons_self ..) (List.nodup_cons.mp hl).1

theorem eq_singleton {l : List α} {a : α} (hl : l.length ≤ 1) (h : a ∈ l) : l = [a] := by
  obtain ⟨b, rfl⟩ := List.length_eq_one_iff.mp (Nat.le_antisymm hl (List.length_pos_of_mem h))
  rw [List.mem_singleton.mp h]

/-- One simple path through all names is a walk. -/
theorem SinglePath.trail {names path : List α} (h : SinglePath names before path)
    (hnames : names.Nodup) (hbefore : ∀ b ∈ names, before b ⊆ names ∧ (before b).Nodup) :
    Trail before path := by
  have hnodup : path.Nodup := h.perm.nodup_iff.mpr hnames
  refine ⟨?_, ?_⟩
  · intro p hp
    have hmem := h.perm.mem_iff.mp (List.mem_of_getElem? hp)
    rw [List.eq_nil_iff_forall_not_mem]
    intro a ha
    obtain ⟨i, _, hi⟩ := (h.edges a ((hbefore p hmem).1 ha) p hmem).mp ha
    have hlt := (List.getElem?_eq_some_iff.mp hi).1
    have := (List.getElem?_inj hlt hnodup).mp (hi.trans hp.symm)
    omega
  · intro i a b ha hb
    have hmema := h.perm.mem_iff.mp (List.mem_of_getElem? ha)
    have hmemb := h.perm.mem_iff.mp (List.mem_of_getElem? hb)
    obtain ⟨hin, hdistinct⟩ := hbefore b hmemb
    have hnext : Next path a b := ⟨i, ha, hb⟩
    have hall : ∀ x ∈ before b, x = a := fun x hx =>
      next_left hnodup ((h.edges x (hin hx) b hmemb).mp hx) hnext
    have hone := at_most_one hdistinct fun x hx y hy => (hall x hx).trans (hall y hy).symm
    exact eq_singleton hone ((h.edges a hmema b hmemb).mpr hnext)

section
variable [DecidableEq α] {names path : List α}

/-- From a single file the walk ends, and stays among the names. -/
theorem follow_file {p : α} (hfile : SingleFile names before) (hp : starts names before = [p])
    {fuel : Nat} (hfuel : names.length ≤ fuel) :
    ∃ done, follow (followers names before) fuel [p] = some done ∧ Trail before done ∧
      done ⊆ names := by
  have hmem : p ∈ starts names before := by simp [hp]
  obtain ⟨hin, hnone⟩ := List.mem_filter.mp hmem
  have hfollow : ∀ a b, b ∈ followers names before a → b ∈ names ∧ before b = [a] := by
    intro a b hb
    obtain ⟨hbin, ha⟩ := List.mem_filter.mp hb
    exact ⟨hbin, eq_singleton (hfile.2.1 b hbin) (of_decide_eq_true ha)⟩
  apply follow_ends hfollow fuel (Trail.single (List.isEmpty_iff.mp hnone)) (by simpa using hin)
  rw [List.length_singleton]
  omega

/-- On a single path an entry is followed by the next one alone. -/
theorem SinglePath.followers_eq (h : SinglePath names before path) (hnames : names.Nodup)
    {i : Nat} {a : α} (ha : path[i]? = some a) :
    followers names before a = path[i + 1]?.toList := by
  have hnodup : path.Nodup := h.perm.nodup_iff.mpr hnames
  have hmema := h.perm.mem_iff.mp (List.mem_of_getElem? ha)
  have hmem : ∀ b, b ∈ followers names before a ↔ Next path a b := by
    intro b
    rw [followers, List.mem_filter, decide_eq_true_iff]
    constructor
    · intro hboth
      exact (h.edges a hmema b hboth.1).mp hboth.2
    · intro hnext
      obtain ⟨j, _, hb⟩ := id hnext
      have hmemb := h.perm.mem_iff.mp (List.mem_of_getElem? hb)
      exact ⟨hmemb, (h.edges a hmema b hmemb).mpr hnext⟩
  have hone := at_most_one (hnames.filter _) fun x hx y hy =>
    next_right hnodup ((hmem x).mp hx) ((hmem y).mp hy)
  cases hnext : path[i + 1]? with
  | none =>
    rw [Option.toList_none, List.eq_nil_iff_forall_not_mem]
    intro b hb
    obtain ⟨j, hj, hb'⟩ := (hmem b).mp hb
    have hlt := (List.getElem?_eq_some_iff.mp hj).1
    rw [(List.getElem?_inj hlt hnodup).mp (hj.trans ha.symm), hnext] at hb'
    cases hb'
  | some b =>
    have hb := (hmem b).mpr ⟨i, ha, hnext⟩
    exact eq_singleton hone hb

/-- Walking on from any entry of a single path goes along it to its end. -/
theorem SinglePath.follow_along (h : SinglePath names before path) (hnames : names.Nodup)
    (fuel : Nat) {i : Nat} (hi : i < path.length) (hfuel : path.length ≤ fuel + i) :
    follow (followers names before) fuel (path.take (i + 1)) = some path := by
  induction fuel generalizing i with
  | zero => omega
  | succ fuel ih =>
    have hlast : (path.take (i + 1)).getLast? = some path[i] := by
      rw [List.take_succ_eq_append_getElem hi, List.getLast?_concat]
    rw [follow, hlast, Option.bind_some, h.followers_eq hnames (List.getElem?_eq_getElem hi)]
    cases hnext : path[i + 1]? with
    | none =>
      have hall := List.getElem?_eq_none_iff.mp hnext
      simp only [Option.toList_none, List.head?_nil, List.take_of_length_le hall]
    | some b =>
      obtain ⟨hlt, rfl⟩ := List.getElem?_eq_some_iff.mp hnext
      simp only [Option.toList_some, List.head?_cons]
      rw [← List.take_succ_eq_append_getElem hlt]
      exact ih hlt (by omega)

/-- A single path passes every check, and the walk from its start is the path. -/
theorem SinglePath.followed (h : SinglePath names before path) (hnames : names.Nodup)
    (hbefore : ∀ b ∈ names, before b ⊆ names ∧ (before b).Nodup) (hne : names ≠ []) :
    SingleFile names before ∧ ∀ p, starts names before = [p] → ∀ fuel, names.length ≤ fuel →
      follow (followers names before) fuel [p] = some path := by
  have htrail := h.trail hnames hbefore
  obtain ⟨first, rest, rfl⟩ := List.exists_cons_of_ne_nil fun hnil : path = [] =>
    hne (List.perm_nil.mp (hnil ▸ h.perm.symm))
  have hlength : ∀ b ∈ names, (before b).length ≤ 1 ∧ (before b = [] → b = first) := by
    intro b hb
    rcases htrail.before_of_mem (h.perm.mem_iff.mpr hb) with ⟨hi, hnone⟩ | ⟨_, _, _, _, hone⟩
    · rw [hnone]
      exact ⟨Nat.zero_le 1, fun _ => (Option.some.inj hi).symm⟩
    · rw [hone]
      exact ⟨Nat.le_refl 1, fun hnil => by cases hnil⟩
  have hstart : starts names before = [first] := by
    have hall : ∀ b ∈ starts names before, b = first := by
      intro b hb
      obtain ⟨hin, hnone⟩ := List.mem_filter.mp hb
      exact (hlength b hin).2 (List.isEmpty_iff.mp hnone)
    apply eq_singleton
    · exact at_most_one (hnames.filter _) fun a ha b hb => (hall a ha).trans (hall b hb).symm
    · refine List.mem_filter.mpr ⟨h.perm.mem_iff.mp (List.mem_cons_self ..), ?_⟩
      rw [htrail.first first rfl]
      rfl
  refine ⟨⟨?_, fun b hb => (hlength b hb).1, ?_⟩, ?_⟩
  · rw [hstart, List.length_singleton]
  · intro a ha
    obtain ⟨i, hi⟩ := List.mem_iff_getElem?.mp (h.perm.mem_iff.mpr ha)
    rw [h.followers_eq hnames hi]
    exact Option.length_toList_le
  · intro p hp fuel hfuel
    rw [hstart] at hp
    obtain ⟨rfl⟩ := List.singleton_inj.mp hp
    have hlen := h.perm.length_eq
    exact @SinglePath.follow_along _ _ _ _ _ h hnames fuel 0 (by simp) (by omega)

end

end Lib.Chain
