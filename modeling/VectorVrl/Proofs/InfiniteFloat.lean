import VectorVrl.Proofs.RoundTrip

namespace VectorVrl.Proofs.InfiniteFloat
open Lib.OrderedMap Lib.Collect Values RoundTrip

theorem value_at_append (v : Value) (path rest : List Step) :
    v.at (path ++ rest) = (v.at path).bind fun part => part.at rest := by
  induction path generalizing v with
  | nil => simp [Value.at]
  | cons s path ih =>
    cases v with
    | array items =>
      cases s with
      | key k => simp [Value.at]
      | index i =>
        simp only [List.cons_append, Value.at]
        split
        · exact ih _
        · rfl
    | object keys field =>
      cases s with
      | index i => simp [Value.at]
      | key k =>
        simp only [List.cons_append, Value.at]
        split
        · exact ih _
        · rfl
    | _ => simp [Value.at]

theorem before_asymm {s t : Step} (h : s.Before t) : ¬t.Before s := by
  cases s with
  | index i =>
    cases t with
    | index j => exact Nat.lt_asymm h
    | key l => exact h.elim
  | key k =>
    cases t with
    | index j => exact h.elim
    | key l => exact String.lt_asymm h

theorem before_irrefl (s : Step) : ¬s.Before s := fun h => before_asymm h h

/-- A path that turns off to an earlier part comes first. -/
theorem not_lex_earlier {s t : Step} (above rest more : List Step) (h : t.Before s) :
    ¬List.Lex Step.Before (above ++ s :: rest) (above ++ t :: more) := by
  induction above with
  | nil =>
    intro hlex
    cases hlex with
    | cons _ => exact before_irrefl _ h
    | rel hst => exact before_asymm h hst
  | cons u above ih =>
    intro hlex
    cases hlex with
    | cons hlex => exact ih hlex
    | rel huu => exact before_irrefl u huu

/-- Before the first infinite float a value holds none. -/
theorem earlier_finite {v : Value} {path : List Step} (h : v.FirstInfinite path) :
    v.EarlierFinite path := by
  intro above s rest t part hpath hbefore hat hinf
  obtain ⟨more, f, hf, hinfinite⟩ := hinf
  have hthere : v.at (above ++ t :: more) = some (.float f) := by
    rw [← List.singleton_append, ← List.append_assoc, value_at_append, hat]
    exact hf
  subst hpath
  rcases h.first _ f hthere hinfinite with heq | hlex
  · rw [List.append_right_inj] at heq
    cases heq
    exact before_irrefl s hbefore
  · exact not_lex_earlier above rest more hbefore hlex

/-- The first infinite float of a container is that of the first of its parts
that holds one. -/
theorem first_in_part {v part : Value} {s : Step} {path : List Step}
    (hpart : ∀ rest, v.at (s :: rest) = part.at rest) (h : part.FirstInfinite path)
    (hlater : ∀ other f, v.at other = some (.float f) → f.val.isInfinite = true →
      ∃ t rest, other = t :: rest ∧ (t = s ∨ s.Before t)) :
    v.FirstInfinite (s :: path) := by
  obtain ⟨f, hat, hinf⟩ := h.held
  refine ⟨⟨f, (hpart path).trans hat, hinf⟩, ?_⟩
  intro other g hother hg
  obtain ⟨t, rest, rfl, rfl | hbefore⟩ := hlater other g hother hg
  · rw [hpart] at hother
    rcases h.first rest g hother hg with rfl | hlex
    · exact Or.inl rfl
    · exact Or.inr (.cons hlex)
  · exact Or.inr (.rel hbefore)

/-- What the guard reports is the path to the first infinite float, depth first. -/
theorem reports_first {v : Value} {text : String} (h : firstInfiniteFloat v = some text) :
    ∃ path, v.FirstInfinite path ∧ text = pathText path := by
  induction v generalizing text with
  | float f =>
    simp only [firstInfiniteFloat] at h
    split at h
    · rename_i hinf
      cases h
      refine ⟨[], ⟨⟨f, rfl, hinf⟩, ?_⟩, rfl⟩
      intro other g hat _
      cases other with
      | nil => exact Or.inl rfl
      | cons s rest => simp [Value.at] at hat
    · cases h
  | array items ih =>
    simp only [firstInfiniteFloat, find_map_some_iff, Option.map_eq_some_iff,
      Option.map_eq_none_iff] at h
    obtain ⟨i, ⟨inner, hi, rfl⟩, hbefore⟩ := h
    obtain ⟨path, hfirst, rfl⟩ := ih i hi
    refine ⟨.index i.val :: path, first_in_part (value_at_item items i) hfirst ?_, rfl⟩
    intro other f hat hf
    cases other with
    | nil => simp [Value.at] at hat
    | cons s rest =>
      rcases value_at_step hat with ⟨_, _, k, heq, rfl, hk⟩ | ⟨_, _, _, heq, _⟩
      · cases heq
        refine ⟨_, rest, rfl, ?_⟩
        rcases Nat.lt_trichotomy k.val i.val with hlt | hsame | hgt
        · exact absurd ⟨rest, f, hk, hf⟩ ((first_infinite_none_iff _).mp (hbefore k hlt))
        · exact Or.inl (congrArg Step.index hsame)
        · exact Or.inr hgt
      · cases heq
  | object keys field ih =>
    simp only [firstInfiniteFloat, find_map_some_iff, Option.map_eq_some_iff,
      Option.map_eq_none_iff] at h
    obtain ⟨i, ⟨inner, hi, rfl⟩, hbefore⟩ := h
    obtain ⟨path, hfirst, rfl⟩ := ih i hi
    refine ⟨.key (keys.name i) :: path, first_in_part (value_at_field keys field i) hfirst ?_,
      rfl⟩
    intro other f hat hf
    cases other with
    | nil => simp [Value.at] at hat
    | cons s rest =>
      rcases value_at_step hat with ⟨_, _, _, heq, _⟩ | ⟨_, _, k, heq, rfl, hk⟩
      · cases heq
      · cases heq
        refine ⟨_, rest, rfl, ?_⟩
        rcases Nat.lt_trichotomy k.val i.val with hlt | hsame | hgt
        · exact absurd ⟨rest, f, hk, hf⟩ ((first_infinite_none_iff _).mp (hbefore k hlt))
        · exact Or.inl (congrArg Step.key (congrArg keys.name (Fin.eq_of_val_eq hsame)))
        · exact Or.inr (name_lt hgt)
  | _ => cases h

/-- The guard misses no infinite float and names the first one, segment by
segment from the root. -/
theorem guard_finds_first (v : Value) :
    (firstInfiniteFloat v = none ↔ ¬v.HoldsInfinity) ∧
    ∀ text, firstInfiniteFloat v = some text →
      ∃ path, v.FirstInfinite path ∧ v.EarlierFinite path ∧ text = pathText path := by
  refine ⟨first_infinite_none_iff v, ?_⟩
  intro text h
  obtain ⟨path, hfirst, htext⟩ := reports_first h
  exact ⟨path, hfirst, earlier_finite hfirst, htext⟩

end VectorVrl.Proofs.InfiniteFloat
