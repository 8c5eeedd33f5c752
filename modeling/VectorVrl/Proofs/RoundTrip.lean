import VectorVrl.Proofs.Input

namespace VectorVrl.Proofs.RoundTrip
open Lib.OrderedMap Lib.Collect Values Input

theorem map_error_error_iff {ε φ α : Type} {x : Except ε α} {f : ε → φ} {e : φ} :
    x.mapError f = .error e ↔ ∃ e', x = .error e' ∧ f e' = e := by
  cases x <;> simp [Except.mapError]

theorem of_i64_read {n : Number} {i : Int64} (h : n.asI64 = some i) : Number.ofI64 i = n := by
  cases n with
  | posInt n =>
    simp only [Number.asI64] at h
    split at h
    · rename_i hle
      cases h
      have hnonneg : ¬n.toInt64 < 0 := by
        rw [Int64.lt_iff_toInt_lt, signed_reading, if_pos hle, Int64.toInt_zero]
        omega
      rw [Number.ofI64, dif_neg hnonneg, UInt64.toUInt64_toInt64]
    · cases h
  | negInt i neg =>
    cases h
    exact dif_pos neg
  | float f finite => cases h

theorem not_nan_of {f : F64} (h : f.isFinite = true) : f.isNan = false := by
  simp only [F64.isFinite, ne_eq, decide_eq_true_eq] at h
  simp only [F64.isNan, h, decide_false, Bool.false_and]

section
variable [Libraries]

theorem lossy_of_utf8 (s : String) : fromUtf8Lossy s.toUTF8 = s := by
  have hvalid : s.toUTF8.IsValidUTF8 := s.isValidUTF8
  simp only [fromUtf8Lossy, String.fromUTF8?, dif_pos hvalid]
  rfl

theorem number_back {n : Number} {v : Value} (h : jsonToVrlValue (.number n) = .ok v) :
    vrlValueToJson v = .number n := by
  cases hi : n.asI64 with
  | some i =>
    rw [convert_signed hi] at h
    cases h
    rw [vrlValueToJson, of_i64_read hi]
  | none =>
    cases n with
    | posInt n => simp [jsonToVrlValue, hi, Number.asU64] at h
    | negInt i neg => cases hi
    | float f finite =>
      simp only [jsonToVrlValue, Number.asI64, Number.asU64, Number.asF64, Except.ok.injEq,
        NotNan.newOrDefault, dif_pos (not_nan_of finite)] at h
      subst h
      simp only [vrlValueToJson, Number.fromF64, dif_pos finite, Option.map_some,
        Option.getD_some]

/-- What a conversion accepts comes back as it was. -/
theorem json_back {j : JsonValue} {v : Value} (h : jsonToVrlValue j = .ok v) :
    vrlValueToJson v = j := by
  induction j generalizing v with
  | null =>
    cases h
    rfl
  | bool b =>
    cases h
    rfl
  | number n => exact number_back h
  | string s =>
    cases h
    exact congrArg JsonValue.string (lossy_of_utf8 s)
  | array items ih =>
    obtain ⟨values, rfl, hall⟩ := convert_array_ok.mp h
    simp only [vrlValueToJson, JsonValue.array.injEq, heq_eq_eq, true_and]
    exact funext fun i => ih i (hall i)
  | object keys field ih =>
    obtain ⟨values, rfl, hall⟩ := convert_object_ok.mp h
    rw [json_object]
    exact congrArg (JsonValue.object keys) (funext fun i => ih i (hall i))

end

/-- Below a container a JSON value holds what one of its parts holds. -/
theorem json_at_cons {j w : JsonValue} {s : Step} {rest : List Step}
    (h : j.at (s :: rest) = some w) :
    (∃ n, ∃ items : Fin n → JsonValue, ∃ i : Fin n, j = .array items ∧ s = .index i.val ∧
      (items i).at rest = some w) ∨
    (∃ keys field, ∃ i : Fin keys.size, j = .object keys field ∧ s = .key (keys.name i) ∧
      (field i).at rest = some w) := by
  cases j with
  | array items =>
    cases s with
    | key k => simp [JsonValue.at] at h
    | index i =>
      simp only [JsonValue.at] at h
      split at h
      · rename_i hi
        exact Or.inl ⟨_, items, ⟨i, hi⟩, rfl, rfl, h⟩
      · cases h
  | object keys field =>
    cases s with
    | index i => simp [JsonValue.at] at h
    | key k =>
      simp only [JsonValue.at] at h
      split at h
      · rename_i i hi
        rw [← (keys.find_some_iff k i).mp hi]
        exact Or.inr ⟨keys, field, i, rfl, rfl, h⟩
      · cases h
  | _ => simp [JsonValue.at] at h

/-- Earlier keys are the smaller ones. -/
theorem name_lt {keys : Keys String} {i j : Fin keys.size} (h : i < j) :
    keys.name i < keys.name j :=
  compareOfLessAndEq_eq_lt.mp (List.pairwise_iff_get.mp keys.sorted i j h)

theorem convert_number_error {n : Number} {e : IntegerOutOfRange}
    (h : jsonToVrlValue (.number n) = .error e) :
    ∃ m, n = .posInt m ∧ i64Max < m.toNat ∧ e = ⟨"", m⟩ := by
  cases n with
  | posInt m =>
    cases hi : (Number.posInt m).asI64 with
    | some i => simp [convert_signed hi] at h
    | none =>
      simp only [jsonToVrlValue, hi, Number.asU64, Except.error.injEq] at h
      refine ⟨m, rfl, ?_, h.symm⟩
      by_contra hle
      simp [Number.asI64, Nat.not_lt.mp hle] at hi
  | negInt i neg => simp [jsonToVrlValue, Number.asI64] at h
  | float f finite => simp [jsonToVrlValue, Number.asI64, Number.asU64, Number.asF64] at h

theorem convert_array_error {n : Nat} {items : Fin n → JsonValue} {e : IntegerOutOfRange}
    (h : jsonToVrlValue (.array items) = .error e) :
    ∃ i e', jsonToVrlValue (items i) = .error e' ∧
      e = { e' with path := under (underIndex i) e'.path } ∧
      ∀ j < i, ∃ v, jsonToVrlValue (items j) = .ok v := by
  simp only [jsonToVrlValue, map_error_iff, collect_error_iff, map_error_ok_iff,
    map_error_error_iff] at h
  obtain ⟨i, ⟨e', hi, he⟩, hbefore⟩ := h
  exact ⟨i, e', hi, he.symm, hbefore⟩

theorem convert_object_error {keys : Keys String} {field : Fin keys.size → JsonValue}
    {e : IntegerOutOfRange} (h : jsonToVrlValue (.object keys field) = .error e) :
    ∃ i e', jsonToVrlValue (field i) = .error e' ∧
      e = { e' with path := under (underKey (keys.name i)) e'.path } ∧
      ∀ j < i, ∃ v, jsonToVrlValue (field j) = .ok v := by
  simp only [jsonToVrlValue, map_error_iff, collect_error_iff, map_error_ok_iff,
    map_error_error_iff] at h
  obtain ⟨i, ⟨e', hi, he⟩, hbefore⟩ := h
  exact ⟨i, e', hi, he.symm, hbefore⟩

/-- A part that converts holds no integer out of range. -/
theorem convert_ok_clean {j : JsonValue} {v : Value} (h : jsonToVrlValue j = .ok v)
    {path : List Step} {n : UInt64} (hat : j.at path = some (.number (.posInt n)))
    (hn : i64Max < n.toNat) : False := by
  obtain ⟨e, he⟩ := (convert_fails_iff j).mpr ⟨path, n, hat, hn⟩
  rw [h] at he
  cases he

/-- The first integer out of range of a container is that of the first of its
parts that holds one. -/
theorem first_in_part {j part : JsonValue} {s : Step} {path : List Step} {n : UInt64}
    (hpart : ∀ rest, j.at (s :: rest) = part.at rest) (h : part.FirstOutOfRange path n)
    (hlater : ∀ other m, j.at other = some (.number (.posInt m)) → i64Max < m.toNat →
      ∃ t rest, other = t :: rest ∧ (t = s ∨ Step.Before s t)) :
    j.FirstOutOfRange (s :: path) n := by
  refine ⟨(hpart path).trans h.held, h.above, ?_⟩
  intro other m hat hm
  obtain ⟨t, rest, rfl, rfl | hbefore⟩ := hlater other m hat hm
  · rw [hpart] at hat
    rcases h.first rest m hat hm with rfl | hlex
    · exact Or.inl rfl
    · exact Or.inr (.cons hlex)
  · exact Or.inr (.rel hbefore)

/-- A failure reports the first integer out of range, depth first, and the path to it. -/
theorem error_is_first {j : JsonValue} {e : IntegerOutOfRange}
    (h : jsonToVrlValue j = .error e) :
    ∃ path, j.FirstOutOfRange path e.value ∧ e.path = pathText path := by
  induction j generalizing e with
  | number n =>
    obtain ⟨m, rfl, hm, rfl⟩ := convert_number_error h
    refine ⟨[], ⟨rfl, hm, ?_⟩, rfl⟩
    intro other k hat _
    cases other with
    | nil => exact Or.inl rfl
    | cons s rest => simp [JsonValue.at] at hat
  | array items ih =>
    obtain ⟨i, e', hi, rfl, hbefore⟩ := convert_array_error h
    obtain ⟨path, hfirst, htext⟩ := ih i hi
    refine ⟨.index i.val :: path, first_in_part (json_at_item items i) hfirst ?_,
      congrArg (underIndex i ++ ·) htext⟩
    intro other m hat hm
    cases other with
    | nil => simp [JsonValue.at] at hat
    | cons s rest =>
      rcases json_at_cons hat with ⟨_, _, k, heq, rfl, hk⟩ | ⟨_, _, _, heq, _⟩
      · cases heq
        refine ⟨_, rest, rfl, ?_⟩
        rcases Nat.lt_trichotomy k.val i.val with hlt | hsame | hgt
        · obtain ⟨v, hv⟩ := hbefore k hlt
          exact (convert_ok_clean hv hk hm).elim
        · exact Or.inl (congrArg Step.index hsame)
        · exact Or.inr hgt
      · cases heq
  | object keys field ih =>
    obtain ⟨i, e', hi, rfl, hbefore⟩ := convert_object_error h
    obtain ⟨path, hfirst, htext⟩ := ih i hi
    refine ⟨.key (keys.name i) :: path, first_in_part (json_at_field keys field i) hfirst ?_,
      congrArg (underKey (keys.name i) ++ ·) htext⟩
    intro other m hat hm
    cases other with
    | nil => simp [JsonValue.at] at hat
    | cons s rest =>
      rcases json_at_cons hat with ⟨_, _, _, heq, _⟩ | ⟨_, _, k, heq, rfl, hk⟩
      · cases heq
      · cases heq
        refine ⟨_, rest, rfl, ?_⟩
        rcases Nat.lt_trichotomy k.val i.val with hlt | hsame | hgt
        · obtain ⟨v, hv⟩ := hbefore k hlt
          exact (convert_ok_clean hv hk hm).elim
        · exact Or.inl (congrArg Step.key (congrArg keys.name (Fin.eq_of_val_eq hsame)))
        · exact Or.inr (name_lt hgt)
  | _ => cases h

/-- JSON survives the trip through VRL values, and fails it exactly with the
first integer above the signed range. -/
theorem json_round_trip [Libraries] (j : JsonValue) :
    ((∃ e, jsonToVrlValue j = .error e) ↔
      ∃ path n, j.at path = some (.number (.posInt n)) ∧ i64Max < n.toNat) ∧
    (∀ v, jsonToVrlValue j = .ok v →
      vrlValueToJson v = j ∧ ∀ j', jsonToVrlValue j' = .ok v → j' = j) ∧
    ∀ e, jsonToVrlValue j = .error e →
      ∃ path, j.FirstOutOfRange path e.value ∧ e.path = pathText path := by
  refine ⟨convert_fails_iff j, ?_, fun _ => error_is_first⟩
  intro v h
  refine ⟨json_back h, ?_⟩
  intro j' h'
  rw [← json_back h', json_back h]

example : (jsonToVrlValue (.array ![.null, .array ![.number (.posInt 9223372036854775808)]])) =
    .error ⟨"[1][0]", 9223372036854775808⟩ := by rfl

end VectorVrl.Proofs.RoundTrip
