import VectorVrl.Position

namespace VectorVrl.Proofs.Values
open Lib.OrderedMap Lib.Collect

theorem value_at_field (keys : Keys String) (field : Fin keys.size → Value)
    (i : Fin keys.size) (rest : List Step) :
    (Value.object keys field).at (.key (keys.name i) :: rest) = (field i).at rest := by
  simp only [Value.at, keys.find_name i]

theorem value_at_item {n : Nat} (items : Fin n → Value) (i : Fin n) (rest : List Step) :
    (Value.array items).at (.index i.val :: rest) = (items i).at rest := by
  simp only [Value.at, dif_pos i.isLt]

/-- Below a container a value holds what the part its step names holds. -/
theorem value_at_step {v w : Value} {s : Step} {rest : List Step}
    (h : v.at (s :: rest) = some w) :
    (∃ n, ∃ items : Fin n → Value, ∃ i : Fin n, v = .array items ∧ s = .index i.val ∧
      (items i).at rest = some w) ∨
    (∃ keys field, ∃ i : Fin keys.size, v = .object keys field ∧ s = .key (keys.name i) ∧
      (field i).at rest = some w) := by
  cases v with
  | array items =>
    cases s with
    | key k => simp [Value.at] at h
    | index i =>
      simp only [Value.at] at h
      split at h
      · rename_i hi
        exact Or.inl ⟨_, items, ⟨i, hi⟩, rfl, rfl, h⟩
      · cases h
  | object keys field =>
    cases s with
    | index i => simp [Value.at] at h
    | key k =>
      simp only [Value.at] at h
      split at h
      · rename_i i hi
        rw [← (keys.find_some_iff k i).mp hi]
        exact Or.inr ⟨keys, field, i, rfl, rfl, h⟩
      · cases h
  | _ => simp [Value.at] at h

/-- Below a container a value holds what one of its parts holds. -/
theorem value_at_cons {v w : Value} {s : Step} {rest : List Step}
    (h : v.at (s :: rest) = some w) :
    (∃ n, ∃ items : Fin n → Value, ∃ i, v = .array items ∧ (items i).at rest = some w) ∨
    (∃ keys field, ∃ i : Fin keys.size, v = .object keys field ∧ (field i).at rest = some w) := by
  rcases value_at_step h with ⟨n, items, i, hv, _, hi⟩ | ⟨keys, field, i, hv, _, hi⟩
  · exact Or.inl ⟨n, items, i, hv, hi⟩
  · exact Or.inr ⟨keys, field, i, hv, hi⟩

theorem infinity_in_item {n : Nat} {items : Fin n → Value} :
    (Value.array items).HoldsInfinity ↔ ∃ i, (items i).HoldsInfinity := by
  constructor
  · intro hsome
    obtain ⟨path, f, hat, hinf⟩ := hsome
    cases path with
    | nil => simp [Value.at] at hat
    | cons s rest =>
      rcases value_at_cons hat with ⟨_, _, i, heq, hi⟩ | ⟨_, _, _, heq, _⟩
      · cases heq
        exact ⟨i, rest, f, hi, hinf⟩
      · cases heq
  · intro hsome
    obtain ⟨i, path, f, hat, hinf⟩ := hsome
    exact ⟨.index i.val :: path, f, (value_at_item items i path).trans hat, hinf⟩

theorem infinity_in_field {keys : Keys String} {field : Fin keys.size → Value} :
    (Value.object keys field).HoldsInfinity ↔ ∃ i, (field i).HoldsInfinity := by
  constructor
  · intro hsome
    obtain ⟨path, f, hat, hinf⟩ := hsome
    cases path with
    | nil => simp [Value.at] at hat
    | cons s rest =>
      rcases value_at_cons hat with ⟨_, _, _, heq, _⟩ | ⟨_, _, i, heq, hi⟩
      · cases heq
      · cases heq
        exact ⟨i, rest, f, hi, hinf⟩
  · intro hsome
    obtain ⟨i, path, f, hat, hinf⟩ := hsome
    exact ⟨.key (keys.name i) :: path, f, (value_at_field keys field i path).trans hat, hinf⟩

theorem infinity_in_scalar {v : Value} (ha : ∀ n, ∀ items : Fin n → Value, v ≠ .array items)
    (ho : ∀ keys field, v ≠ .object keys field) :
    v.HoldsInfinity ↔ ∃ f, v = .float f ∧ f.val.isInfinite = true := by
  constructor
  · intro hsome
    obtain ⟨path, f, hat, hinf⟩ := hsome
    cases path with
    | nil =>
      simp only [Value.at, Option.some.injEq] at hat
      exact ⟨f, hat, hinf⟩
    | cons s rest =>
      rcases value_at_cons hat with ⟨n, items, _, heq, _⟩ | ⟨keys, field, _, heq, _⟩
      · exact absurd heq (ha n items)
      · exact absurd heq (ho keys field)
  · intro hsome
    obtain ⟨f, rfl, hinf⟩ := hsome
    exact ⟨[], f, rfl, hinf⟩

/-- The guard passes exactly the values that hold no infinite float at any depth. -/
theorem first_infinite_none_iff (v : Value) : firstInfiniteFloat v = none ↔ ¬v.HoldsInfinity := by
  induction v with
  | array items ih =>
    simp [firstInfiniteFloat, find_map_none_iff, infinity_in_item, ih]
  | object keys field ih =>
    simp [firstInfiniteFloat, find_map_none_iff, infinity_in_field, ih]
  | float f =>
    rw [infinity_in_scalar (by simp) (by simp)]
    simp [firstInfiniteFloat]
  | _ =>
    rw [infinity_in_scalar (by simp) (by simp)]
    simp [firstInfiniteFloat]

theorem is_finite_of {f : NotNan} (h : f.val.isInfinite = false) : f.val.isFinite = true := by
  have hnan := f.notNan
  simp only [F64.isNan, F64.isInfinite, F64.isFinite, ne_eq, Bool.and_eq_false_iff,
    decide_eq_false_iff_not, decide_eq_true_eq, not_not] at hnan h ⊢
  intro he
  rcases h with h | h
  · exact h he
  · rcases hnan with hn | hn
    · exact hn he
    · exact h hn

theorem finite_at {v w : Value} {path : List Step} (h : ¬v.HoldsInfinity)
    (hat : v.at path = some w) : ¬w.HoldsInfinity := by
  induction path generalizing v with
  | nil =>
    simp only [Value.at, Option.some.injEq] at hat
    exact hat ▸ h
  | cons s rest ih =>
    rcases value_at_cons hat with ⟨_, items, i, rfl, hi⟩ | ⟨keys, field, i, rfl, hi⟩
    · exact ih (fun hinf => h (infinity_in_item.mpr ⟨i, hinf⟩)) hi
    · exact ih (fun hinf => h (infinity_in_field.mpr ⟨i, hinf⟩)) hi

theorem signed_reading (n : UInt64) : n.toInt64.toInt =
    if n.toNat ≤ i64Max then (n.toNat : Int) else (n.toNat : Int) - 2 ^ 64 := by
  have hcond : n.toInt64.toInt = if 2 * n.toNat < 2 ^ 64 then (n.toNat : Int)
      else (n.toNat : Int) - (2 ^ 64 : Nat) := BitVec.toInt_eq_toNat_cond n.toBitVec
  rw [hcond]
  unfold i64Max
  split <;> split <;> omega

/-- A signed integer survives serde_json's unsigned storage of positive ones. -/
theorem as_i64_of (i : Int64) : (Number.ofI64 i).asI64 = some i := by
  unfold Number.ofI64
  split
  · rfl
  · rename_i h
    rw [Int64.lt_iff_toInt_lt, Int64.toInt_zero] at h
    have hread := signed_reading i.toUInt64
    have hlt := i.toUInt64.toNat_lt
    rw [Int64.toInt64_toUInt64] at hread
    have hle : i.toUInt64.toNat ≤ i64Max := by
      split at hread
      · assumption
      · omega
    simp only [Number.asI64, if_pos hle, Int64.toInt64_toUInt64]

section
variable [lib : Libraries]

theorem json_object (keys : Keys String) (field : Fin keys.size → Value) :
    vrlValueToJson (.object keys field) = .object keys fun i => vrlValueToJson (field i) := by
  simp only [vrlValueToJson, json_of_map_to_map]

theorem json_finite_float {f : NotNan} (h : f.val.isInfinite = false) :
    vrlValueToJson (.float f) = .number (.float f.val (is_finite_of h)) := by
  simp only [vrlValueToJson, Number.fromF64, dif_pos (is_finite_of h), Option.map_some,
    Option.getD_some]

/-- The converter keeps every position. -/
theorem json_at (v : Value) (path : List Step) :
    (vrlValueToJson v).at path = (v.at path).map vrlValueToJson := by
  induction path generalizing v with
  | nil => simp [JsonValue.at, Value.at]
  | cons s rest ih =>
    cases v with
    | array items =>
      cases s with
      | key k => simp [vrlValueToJson, JsonValue.at, Value.at]
      | index i =>
        simp only [vrlValueToJson, JsonValue.at, Value.at]
        split
        · exact ih _
        · rfl
    | object keys field =>
      rw [json_object]
      cases s with
      | index i => simp [JsonValue.at, Value.at]
      | key k =>
        simp only [JsonValue.at, Value.at]
        split
        · exact ih _
        · rfl
    | float f => cases hf : Number.fromF64 f.val <;> simp [vrlValueToJson, hf, JsonValue.at, Value.at]
    | _ => simp [vrlValueToJson, JsonValue.at, Value.at]

/-- The Null floor is only reached by an infinite float. -/
theorem json_null_iff {v : Value} (h : ¬v.HoldsInfinity) :
    vrlValueToJson v = .null ↔ v = .null := by
  cases v with
  | float f =>
    have hf : f.val.isInfinite = false := by
      cases hi : f.val.isInfinite with
      | false => rfl
      | true => exact absurd ⟨[], f, rfl, hi⟩ h
    rw [json_finite_float hf]
    simp
  | object keys field =>
    rw [json_object]
    simp
  | _ => simp [vrlValueToJson]

theorem same_nulls {v : Value} (h : ¬v.HoldsInfinity) : SameNulls v := by
  intro path
  rw [json_at, Option.map_eq_some_iff]
  constructor
  · intro hsome
    obtain ⟨w, hat, hnull⟩ := hsome
    rw [hat, (json_null_iff (finite_at h hat)).mp hnull]
  · intro hat
    exact ⟨.null, hat, rfl⟩

end

end VectorVrl.Proofs.Values
