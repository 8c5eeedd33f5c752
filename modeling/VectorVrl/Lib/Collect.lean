import Mathlib.Data.Fin.Tuple.Basic
import Mathlib.Data.List.Forall2

namespace Lib.Collect

/-- Run the steps in order and keep every result, stopping at the first error. -/
def collect {ε α : Type*} : {n : Nat} → (Fin n → Except ε α) → Except ε (Fin n → α)
  | 0, _ => .ok Fin.elim0
  | _ + 1, f =>
    match f 0 with
    | .error e => .error e
    | .ok a => (collect fun i => f i.succ).map (Fin.cons a)

/-- The first result that is present, in order. -/
def findMap {α : Type*} : {n : Nat} → (Fin n → Option α) → Option α
  | 0, _ => none
  | _ + 1, f =>
    match f 0 with
    | some a => some a
    | none => findMap fun i => f i.succ

variable {ε α : Type*} {n : Nat}

theorem collect_ok_iff {f : Fin n → Except ε α} {g : Fin n → α} :
    collect f = .ok g ↔ ∀ i, f i = .ok (g i) := by
  induction n with
  | zero =>
    refine ⟨fun _ i => i.elim0, fun _ => ?_⟩
    exact congrArg Except.ok (funext fun i => i.elim0)
  | succ n ih =>
    cases hf : f 0 with
    | error e =>
      refine ⟨fun h => by simp [collect, hf] at h, fun h => ?_⟩
      have := h 0
      simp [hf] at this
    | ok a =>
      constructor
      · intro h
        cases hc : collect fun i => f i.succ with
        | error e => simp [collect, hf, hc, Except.map] at h
        | ok rest =>
          simp only [collect, hf, hc, Except.map, Except.ok.injEq] at h
          subst h
          intro i
          cases i using Fin.cases with
          | zero => simpa using hf
          | succ i => simpa using ih.mp hc i
      · intro h
        have ha : a = g 0 := by
          have := h 0
          rw [hf] at this
          exact Except.ok.inj this
        have hc : (collect fun i => f i.succ) = .ok fun i => g i.succ :=
          ih.mpr fun i => h i.succ
        simp only [collect, hf, hc, Except.map, Except.ok.injEq]
        subst ha
        exact Fin.cons_self_tail g

/-- A failure is that of the first step that fails. -/
theorem collect_error_iff {f : Fin n → Except ε α} {e : ε} :
    collect f = .error e ↔ ∃ i, f i = .error e ∧ ∀ j < i, ∃ a, f j = .ok a := by
  induction n with
  | zero => simp [collect]
  | succ n ih =>
    rw [Fin.exists_fin_succ]
    cases hf : f 0 with
    | error e' =>
      simp only [collect, hf, Except.error.injEq]
      constructor
      · intro h
        exact Or.inl ⟨h, fun j hj => absurd hj (Fin.not_lt_zero j)⟩
      · intro hsome
        rcases hsome with ⟨h, _⟩ | ⟨i, _, hbefore⟩
        · exact h
        · obtain ⟨a, ha⟩ := hbefore 0 (Fin.succ_pos i)
          simp [hf] at ha
    | ok a =>
      have hbelow : ∀ i : Fin n, (∀ j < i.succ, ∃ a, f j = .ok a) ↔
          ∀ j < i, ∃ a, f j.succ = .ok a := by
        intro i
        rw [Fin.forall_fin_succ]
        simp [hf]
      have hmap : collect f = .error e ↔ (collect fun i => f i.succ) = .error e := by
        simp only [collect, hf]
        cases collect fun i => f i.succ <;> simp [Except.map]
      rw [hmap, ih]
      simp [hbelow]

theorem all_ok_or_error (f : Fin n → Except ε α) :
    (∃ g : Fin n → α, ∀ i, f i = .ok (g i)) ∨ ∃ i e, f i = .error e := by
  by_cases hbad : ∃ i e, f i = .error e
  · exact Or.inr hbad
  · have hall : ∀ i, ∃ a, f i = .ok a := by
      intro i
      cases hi : f i with
      | ok a => exact ⟨a, rfl⟩
      | error e => exact absurd ⟨i, e, hi⟩ hbad
    choose g hg using hall
    exact Or.inl ⟨g, hg⟩

theorem map_ok_iff {β : Type*} {r : Except ε α} {f : α → β} {b : β} :
    r.map f = .ok b ↔ ∃ a, r = .ok a ∧ f a = b := by
  cases r <;> simp [Except.map]

theorem map_error_iff {β : Type*} {r : Except ε α} {f : α → β} {e : ε} :
    r.map f = .error e ↔ r = .error e := by
  cases r <;> simp [Except.map]

theorem map_m_cons {β : Type*} {f : α → Except ε β} {a : α} {rest : List α} {b : β}
    (h : f a = .ok b) : (a :: rest).mapM f = (rest.mapM f).map (b :: ·) := by
  rw [List.mapM_cons, h]
  cases rest.mapM f <;> rfl

/-- A list goes through when each of its entries does. -/
theorem map_m_ok_iff {β : Type*} {f : α → Except ε β} {l : List α} {r : List β} :
    l.mapM f = .ok r ↔ List.Forall₂ (fun a b => f a = .ok b) l r := by
  induction l generalizing r with
  | nil =>
    rw [List.forall₂_nil_left_iff, List.mapM_nil]
    exact ⟨fun h => (Except.ok.inj h).symm, fun h => congrArg Except.ok h.symm⟩
  | cons a rest ih =>
    rw [List.forall₂_cons_left_iff]
    constructor
    · intro h
      cases hf : f a with
      | error e =>
        rw [List.mapM_cons, hf] at h
        cases h
      | ok b =>
        rw [map_m_cons hf] at h
        cases hr : rest.mapM f with
        | error e =>
          rw [hr] at h
          cases h
        | ok bs =>
          rw [hr] at h
          exact ⟨b, bs, rfl, ih.mp hr, (Except.ok.inj h).symm⟩
    · intro hsome
      obtain ⟨b, bs, hf, hr, rfl⟩ := hsome
      rw [map_m_cons hf, ih.mpr hr]
      rfl

theorem map_m_error {β : Type*} {f : α → Except ε β} {l : List α} {e : ε}
    (h : l.mapM f = .error e) : ∃ a ∈ l, f a = .error e := by
  induction l with
  | nil => cases h
  | cons a rest ih =>
    cases hf : f a with
    | error e' =>
      rw [List.mapM_cons, hf] at h
      cases h
      exact ⟨a, List.mem_cons_self .., hf⟩
    | ok b =>
      rw [map_m_cons hf] at h
      cases hr : rest.mapM f with
      | ok bs =>
        rw [hr] at h
        cases h
      | error e' =>
        rw [hr] at h
        cases h
        obtain ⟨a', hmem, ha'⟩ := ih hr
        exact ⟨a', List.mem_cons_of_mem a hmem, ha'⟩

theorem find_map_none_iff {f : Fin n → Option α} : findMap f = none ↔ ∀ i, f i = none := by
  induction n with
  | zero => exact ⟨fun _ i => i.elim0, fun _ => rfl⟩
  | succ n ih =>
    rw [Fin.forall_fin_succ]
    cases hf : f 0 with
    | some a => simp [findMap, hf]
    | none => simp [findMap, hf, ih]

/-- What is found is what the first part that has something gives. -/
theorem find_map_some_iff {f : Fin n → Option α} {a : α} :
    findMap f = some a ↔ ∃ i, f i = some a ∧ ∀ j < i, f j = none := by
  induction n with
  | zero => exact ⟨fun h => by simp [findMap] at h, fun h => h.elim fun i _ => i.elim0⟩
  | succ n ih =>
    rw [Fin.exists_fin_succ]
    cases hf : f 0 with
    | some b =>
      simp only [findMap, hf, Option.some.injEq]
      constructor
      · intro h
        exact Or.inl ⟨h, fun j hj => absurd hj (Fin.not_lt_zero j)⟩
      · intro hsome
        rcases hsome with ⟨h, _⟩ | ⟨i, _, hbefore⟩
        · exact h
        · have hnone := hbefore 0 (Fin.succ_pos i)
          rw [hf] at hnone
          cases hnone
    | none =>
      have hbelow : ∀ i : Fin n, (∀ j < i.succ, f j = none) ↔ ∀ j < i, f j.succ = none := by
        intro i
        rw [Fin.forall_fin_succ]
        simp [hf]
      simp only [findMap, hf, ih, hbelow]
      simp

section
variable {r : α → β → Prop} {as : List α} {bs : List β}

theorem related_left (h : List.Forall₂ r as bs) {a : α} (ha : a ∈ as) : ∃ b ∈ bs, r a b := by
  obtain ⟨i, hi, rfl⟩ := List.getElem_of_mem ha
  have hi' : i < bs.length := h.length_eq ▸ hi
  exact ⟨bs[i], List.getElem_mem hi', h.get hi hi'⟩

theorem related_right (h : List.Forall₂ r as bs) {b : β} (hb : b ∈ bs) : ∃ a ∈ as, r a b := by
  obtain ⟨i, hi, rfl⟩ := List.getElem_of_mem hb
  have hi' : i < as.length := h.length_eq ▸ hi
  exact ⟨as[i], List.getElem_mem hi', h.get hi' hi⟩

end

end Lib.Collect
