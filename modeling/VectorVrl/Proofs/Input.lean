import Mathlib.Data.List.FinRange
import VectorVrl.Proofs.Outcome

namespace VectorVrl.Proofs.Input
open Lib.OrderedMap Lib.Collect Values

theorem map_error_ok_iff {ε φ α : Type} {x : Except ε α} {f : ε → φ} {a : α} :
    x.mapError f = .ok a ↔ x = .ok a := by
  cases x <;> simp [Except.mapError]

theorem json_at_item {n : Nat} (items : Fin n → JsonValue) (i : Fin n) (rest : List Step) :
    (JsonValue.array items).at (.index i.val :: rest) = (items i).at rest := by
  simp only [JsonValue.at, dif_pos i.isLt]

theorem json_at_field (keys : Keys String) (field : Fin keys.size → JsonValue)
    (i : Fin keys.size) (rest : List Step) :
    (JsonValue.object keys field).at (.key (keys.name i) :: rest) = (field i).at rest := by
  simp only [JsonValue.at, keys.find_name i]

theorem json_at_key (m : BTreeMap JsonValue) (k : String) (rest : List Step) :
    (JsonValue.ofMap m).at (.key k :: rest) = m[k]?.bind fun j => j.at rest := by
  rw [← find_of_map m k]
  simp only [JsonValue.ofMap, JsonValue.at]
  cases (Keys.ofMap m).find? k <;> rfl

theorem convert_array_ok {n : Nat} {items : Fin n → JsonValue} {v : Value} :
    jsonToVrlValue (.array items) = .ok v ↔
      ∃ values, v = .array values ∧ ∀ i, jsonToVrlValue (items i) = .ok (values i) := by
  simp only [jsonToVrlValue, map_ok_iff, collect_ok_iff, map_error_ok_iff]
  constructor
  · intro hsome
    obtain ⟨values, hall, rfl⟩ := hsome
    exact ⟨values, rfl, hall⟩
  · intro hsome
    obtain ⟨values, rfl, hall⟩ := hsome
    exact ⟨values, hall, rfl⟩

theorem convert_object_ok {keys : Keys String} {field : Fin keys.size → JsonValue} {v : Value} :
    jsonToVrlValue (.object keys field) = .ok v ↔
      ∃ values, v = .object keys values ∧ ∀ i, jsonToVrlValue (field i) = .ok (values i) := by
  simp only [jsonToVrlValue, map_ok_iff, collect_ok_iff, map_error_ok_iff, of_map_to_map]
  constructor
  · intro hsome
    obtain ⟨values, hall, rfl⟩ := hsome
    exact ⟨values, rfl, hall⟩
  · intro hsome
    obtain ⟨values, rfl, hall⟩ := hsome
    exact ⟨values, hall, rfl⟩

theorem convert_number_ok {n : Number} {v : Value} (h : jsonToVrlValue (.number n) = .ok v) :
    (∃ i, n.asI64 = some i ∧ v = .integer i) ∨ ∃ f, v = .float f := by
  cases n with
  | posInt n =>
    cases hi : (Number.posInt n).asI64 with
    | none => simp [jsonToVrlValue, hi, Number.asU64] at h
    | some i =>
      simp only [jsonToVrlValue, hi, Except.ok.injEq] at h
      exact Or.inl ⟨i, rfl, h.symm⟩
  | negInt i neg =>
    simp only [jsonToVrlValue, Number.asI64, Except.ok.injEq] at h
    exact Or.inl ⟨i, rfl, h.symm⟩
  | float f finite =>
    simp only [jsonToVrlValue, Number.asI64, Number.asU64, Number.asF64, Except.ok.injEq] at h
    exact Or.inr ⟨_, h.symm⟩

theorem convert_signed {n : Number} {i : Int64} (h : n.asI64 = some i) :
    jsonToVrlValue (.number n) = .ok (.integer i) := by
  simp only [jsonToVrlValue, h]

theorem convert_float (f : F64) (finite : f.isFinite = true) :
    ∃ g, jsonToVrlValue (.number (.float f finite)) = .ok (.float g) := ⟨_, rfl⟩

/-- A conversion that succeeds keeps every position. -/
theorem convert_at {j : JsonValue} {v : Value} (h : jsonToVrlValue j = .ok v)
    (path : List Step) : (j.at path).map jsonToVrlValue = (v.at path).map .ok := by
  induction path generalizing j v with
  | nil => simp [JsonValue.at, Value.at, h]
  | cons s rest ih =>
    cases j with
    | array items =>
      obtain ⟨values, rfl, hall⟩ := convert_array_ok.mp h
      cases s with
      | key k => simp [JsonValue.at, Value.at]
      | index i =>
        simp only [JsonValue.at, Value.at]
        split
        · exact ih (hall _)
        · rfl
    | object keys field =>
      obtain ⟨values, rfl, hall⟩ := convert_object_ok.mp h
      cases s with
      | index i => simp [JsonValue.at, Value.at]
      | key k =>
        simp only [JsonValue.at, Value.at]
        split
        · exact ih (hall _)
        · rfl
    | number n =>
      rcases convert_number_ok h with ⟨i, _, rfl⟩ | ⟨f, rfl⟩ <;> simp [JsonValue.at, Value.at]
    | _ =>
      simp only [jsonToVrlValue, Except.ok.injEq] at h
      subst h
      simp [JsonValue.at, Value.at]

theorem convert_pos_int {n : UInt64} (h : i64Max < n.toNat) :
    ∃ e, jsonToVrlValue (.number (.posInt n)) = .error e := by
  have hi : (Number.posInt n).asI64 = none := by simp [Number.asI64, Nat.not_le.mpr h]
  exact ⟨⟨"", n⟩, by simp only [jsonToVrlValue, hi, Number.asU64]⟩

/-- The only failure of a conversion is an integer above the signed range, at any depth. -/
theorem convert_fails_iff (j : JsonValue) :
    (∃ e, jsonToVrlValue j = .error e) ↔
      ∃ path n, j.at path = some (.number (.posInt n)) ∧ i64Max < n.toNat := by
  constructor
  · induction j with
    | number n =>
      intro hsome
      obtain ⟨e, he⟩ := hsome
      cases n with
      | posInt n =>
        refine ⟨[], n, rfl, ?_⟩
        by_contra hle
        have hi : (Number.posInt n).asI64 = some n.toInt64 := by
          simp [Number.asI64, Nat.not_lt.mp hle]
        simp [jsonToVrlValue, hi] at he
      | negInt i neg => simp [jsonToVrlValue, Number.asI64] at he
      | float f finite => simp [jsonToVrlValue, Number.asI64, Number.asU64, Number.asF64] at he
    | array items ih =>
      intro hsome
      obtain ⟨e, he⟩ := hsome
      rcases all_ok_or_error fun i => jsonToVrlValue (items i) with
        ⟨values, hvalues⟩ | ⟨i, e', hi⟩
      · rw [convert_array_ok.mpr ⟨values, rfl, hvalues⟩] at he
        cases he
      · obtain ⟨path, n, hat, hn⟩ := ih i ⟨e', hi⟩
        exact ⟨.index i.val :: path, n, (json_at_item items i path).trans hat, hn⟩
    | object keys field ih =>
      intro hsome
      obtain ⟨e, he⟩ := hsome
      rcases all_ok_or_error fun i => jsonToVrlValue (field i) with
        ⟨values, hvalues⟩ | ⟨i, e', hi⟩
      · rw [convert_object_ok.mpr ⟨values, rfl, hvalues⟩] at he
        cases he
      · obtain ⟨path, n, hat, hn⟩ := ih i ⟨e', hi⟩
        exact ⟨.key (keys.name i) :: path, n, (json_at_field keys field i path).trans hat, hn⟩
    | _ =>
      intro hsome
      obtain ⟨e, he⟩ := hsome
      cases he
  · intro hsome
    obtain ⟨path, n, hat, hn⟩ := hsome
    cases hj : jsonToVrlValue j with
    | error e => exact ⟨e, rfl⟩
    | ok v =>
      obtain ⟨e, he⟩ := convert_pos_int hn
      have hv := convert_at hj path
      rw [hat, Option.map_some, he] at hv
      cases hat' : v.at path <;> simp [hat'] at hv

theorem last_member {n : Nat} (names : Fin n → String) (values : Fin n → JsonValue) (k : String) :
    (Std.ExtTreeMap.ofList (List.ofFn fun i => (names i, values i)) compare)[k]? =
      (lastNamed names k).map values := by
  rw [Std.ExtTreeMap.ofList_eq_insertMany_empty, Std.ExtTreeMap.getElem?_insertMany_list,
    List.findSomeRev?_eq_findSome?_reverse, List.ofFn_eq_map, ← List.map_reverse,
    List.findSome?_map, lastNamed, List.find?_eq_findSome?_guard, List.map_findSome?]
  simp only [Std.ExtTreeMap.getElem?_empty, Option.or_none]
  congr 1
  funext i
  by_cases hk : names i = k <;> simp [Option.guard, hk]

section
variable [serde : SerdeJson]

/-- Parsing keeps every position that later members leave standing. -/
theorem value_at_held (t : JsonText) (path : List Step) :
    t.value.at path = (t.held path).map JsonText.value := by
  induction path generalizing t with
  | nil => simp [JsonValue.at, JsonText.held]
  | cons s rest ih =>
    cases t with
    | array items =>
      cases s with
      | key k => simp [JsonText.value, JsonValue.at, JsonText.held]
      | index i =>
        simp only [JsonText.value, JsonValue.at, JsonText.held]
        split
        · exact ih _
        · rfl
    | object names members =>
      cases s with
      | index i => simp [JsonText.value, JsonValue.ofMap, JsonValue.at, JsonText.held]
      | key k =>
        rw [JsonText.value, json_at_key, last_member]
        simp only [JsonText.held]
        cases lastNamed names k with
        | none => rfl
        | some i => exact ih _
    | _ => simp [JsonText.value, JsonValue.at, JsonText.held]

/-- The three ranges of integer literals: signed, unsigned only, and neither. -/
theorem literal_cases (z : Int) :
    (-2 ^ 63 ≤ z ∧ z < 2 ^ 63 ∧ ∃ i : Int64, i.toInt = z ∧
      jsonToVrlValue (JsonText.integer z).value = .ok (.integer i)) ∨
    (2 ^ 63 ≤ z ∧ z < 2 ^ 64 ∧ ∃ n, (JsonText.integer z).value = .number (.posInt n) ∧
      i64Max < n.toNat) ∨
    ((z < -2 ^ 63 ∨ 2 ^ 64 ≤ z) ∧ ∃ f finite,
      (JsonText.integer z).value = .number (.float f finite)) := by
  simp only [JsonText.value]
  by_cases hpos : 0 ≤ z ∧ z < 2 ^ 64
  · have hn : (UInt64.ofNat z.toNat).toNat = z.toNat :=
      UInt64.toNat_ofNat_of_lt' (by unfold UInt64.size; omega)
    have hlit : Number.ofLiteral z = .posInt (UInt64.ofNat z.toNat) := if_pos hpos
    by_cases hmax : z < 2 ^ 63
    · have hle : (UInt64.ofNat z.toNat).toNat ≤ i64Max := by
        rw [hn]
        unfold i64Max
        omega
      refine Or.inl ⟨by omega, hmax, (UInt64.ofNat z.toNat).toInt64, ?_, ?_⟩
      · rw [signed_reading, if_pos hle, hn]
        omega
      · rw [hlit]
        exact convert_signed (by simp only [Number.asI64, if_pos hle])
    · refine Or.inr (Or.inl ⟨by omega, hpos.2, _, congrArg _ hlit, ?_⟩)
      rw [hn]
      unfold i64Max
      omega
  · by_cases hneg : -2 ^ 63 ≤ z ∧ z < 0
    · have hlit : (Number.ofLiteral z).asI64 = some (Int64.ofInt z) := by
        simp only [Number.ofLiteral, if_neg hpos, dif_pos hneg, Number.asI64]
      refine Or.inl ⟨hneg.1, by omega, Int64.ofInt z, ?_, convert_signed hlit⟩
      exact Int64.toInt_ofInt_of_le hneg.1 (by omega)
    · refine Or.inr (Or.inr ⟨by omega, _, (serde.literalFloat z).property, ?_⟩)
      simp only [Number.ofLiteral, if_neg hpos, dif_neg hneg]

/-- A VRL integer comes from a literal of exactly its value. -/
theorem integer_of_text (t : JsonText) (i : Int64) :
    jsonToVrlValue t.value = .ok (.integer i) ↔ t = .integer i.toInt := by
  have hlo := i.le_toInt
  have hhi := i.toInt_lt
  cases t with
  | integer z =>
    rw [JsonText.integer.injEq]
    rcases literal_cases z with ⟨_, _, i', rfl, hi⟩ | ⟨hz, _, n, hv, hn⟩ | ⟨hz, f, finite, hv⟩
    · rw [hi, Except.ok.injEq, Value.integer.injEq, Int64.toInt_inj]
    · obtain ⟨e, he⟩ := convert_pos_int hn
      rw [hv, he]
      refine ⟨fun h => (by cases h), fun h => ?_⟩
      omega
    · obtain ⟨g, hg⟩ := convert_float f finite
      rw [hv, hg]
      refine ⟨fun h => (by cases h), fun h => ?_⟩
      omega
  | decimal f finite =>
    obtain ⟨g, hg⟩ := convert_float f finite
    rw [JsonText.value, hg]
    refine ⟨fun h => (by cases h), fun h => (by cases h)⟩
  | array items =>
    rw [JsonText.value, convert_array_ok]
    refine ⟨?_, fun h => (by cases h)⟩
    intro hsome
    obtain ⟨values, hv, _⟩ := hsome
    cases hv
  | object names members =>
    rw [JsonText.value, JsonValue.ofMap, convert_object_ok]
    refine ⟨?_, fun h => (by cases h)⟩
    intro hsome
    obtain ⟨values, hv, _⟩ := hsome
    cases hv
  | _ => simp [JsonText.value, jsonToVrlValue]

theorem out_of_range_text (t : JsonText) :
    (∃ n, t.value = .number (.posInt n) ∧ i64Max < n.toNat) ↔
      ∃ z, t = .integer z ∧ 2 ^ 63 ≤ z ∧ z < 2 ^ 64 := by
  cases t with
  | integer z =>
    rcases literal_cases z with ⟨_, hz, i, _, hi⟩ | ⟨hz, hz', n, hv, hn⟩ | ⟨hz, f, finite, hv⟩
    · constructor
      · intro hsome
        obtain ⟨n, hv, hn⟩ := hsome
        obtain ⟨e, he⟩ := convert_pos_int hn
        rw [hv, he] at hi
        cases hi
      · intro hsome
        obtain ⟨_, heq, hlo, _⟩ := hsome
        cases heq
        omega
    · exact ⟨fun _ => ⟨z, rfl, hz, hz'⟩, fun _ => ⟨n, hv, hn⟩⟩
    · constructor
      · intro hsome
        obtain ⟨n, hv', _⟩ := hsome
        rw [hv] at hv'
        cases hv'
      · intro hsome
        obtain ⟨_, heq, hlo, hhi⟩ := hsome
        cases heq
        omega
  | _ => simp [JsonText.value, JsonValue.ofMap]

theorem event_value_of_json {text : String} {doc : JsonText} (hread : serde.read text = some doc)
    (hbrace : (trim text.toList).head? = some '\x7b') :
    eventValue text = jsonToVrlValue doc.value := by
  simp only [eventValue, if_pos hbrace, fromStr, hread, Option.map_some]
  cases jsonToVrlValue doc.value <;> rfl

/-- A document fails to convert exactly when it still holds an integer of the
upper half of the unsigned range. -/
theorem document_fails_iff (doc : JsonText) :
    (∃ e, jsonToVrlValue doc.value = .error e) ↔
      ∃ path z, doc.held path = some (.integer z) ∧ 2 ^ 63 ≤ z ∧ z < 2 ^ 64 := by
  rw [convert_fails_iff]
  simp only [value_at_held, Option.map_eq_some_iff]
  constructor
  · intro hsome
    obtain ⟨path, n, ⟨t, hheld, hv⟩, hn⟩ := hsome
    obtain ⟨z, rfl, hz⟩ := (out_of_range_text t).mp ⟨n, hv, hn⟩
    exact ⟨path, z, hheld, hz⟩
  · intro hsome
    obtain ⟨path, z, hheld, hz⟩ := hsome
    obtain ⟨n, hv, hn⟩ := (out_of_range_text (.integer z)).mpr ⟨z, rfl, hz⟩
    exact ⟨path, n, ⟨_, hheld, hv⟩, hn⟩

/-- In a document that converts, a position holds the integer literal it is read from. -/
theorem integer_at_iff {doc : JsonText} {v : Value} (h : jsonToVrlValue doc.value = .ok v)
    (path : List Step) (i : Int64) :
    v.at path = some (.integer i) ↔ doc.held path = some (.integer i.toInt) := by
  have hat := convert_at h path
  rw [value_at_held, Option.map_map] at hat
  constructor
  · intro hi
    rw [hi, Option.map_some] at hat
    obtain ⟨t, ht, hconv⟩ := Option.map_eq_some_iff.mp hat
    rw [ht, (integer_of_text t i).mp hconv]
  · intro hi
    rw [hi, Option.map_some, Function.comp, (integer_of_text _ i).mpr rfl] at hat
    obtain ⟨w, hw, hok⟩ := Option.map_eq_some_iff.mp hat.symm
    rw [hw, Except.ok.inj hok]

section
variable [Libraries]

/-- An event fails before its program runs exactly when it has no value to run on. -/
theorem fails_before_iff (text : String) :
    FailsBeforeRunning text ↔ ∃ e, eventValue text = .error e := by
  constructor
  · intro hsome
    obtain ⟨e, he⟩ := hsome
    cases hv : eventValue text with
    | error outOfRange => exact ⟨outOfRange, rfl⟩
    | ok value =>
      have hinterrupted := he (fun target => (.error .interrupted, target)) ∅
      have haborted := he (fun target => (.error (.abort ""), target)) ∅
      simp only [executeVrlOnEvent, hv, EventOutcome.mk.injEq] at hinterrupted haborted
      have heq := hinterrupted.1.trans haborted.1.symm
      exact absurd (Except.error.inj heq) (by decide)
  · intro hsome
    obtain ⟨outOfRange, hv⟩ := hsome
    exact ⟨_, fun run secrets => by simp only [executeVrlOnEvent, hv]; rfl⟩

/-- An integer literal is kept exactly, or its event fails, when it fits the
signed range and no later member replaces it, or when the event fails for
another integer; a literal below the signed range is rounded to a float. -/
theorem integer_kept_iff {text : String} {n : Nat} {names : Fin n → String}
    {members : Fin n → JsonText} (hread : serde.read text = some (.object names members))
    (hbrace : (trim text.toList).head? = some '\x7b') :
    ∀ path z, (JsonText.object names members).Writes path z → z < 2 ^ 64 →
      ((FailsBeforeRunning text ∨ ∃ v i, eventValue text = .ok v ∧
          v.at path = some (.integer i) ∧ i.toInt = z) ↔
        (-2 ^ 63 ≤ z ∧ (JsonText.object names members).held path = some (.integer z)) ∨
        ∃ path' z', (JsonText.object names members).held path' = some (.integer z') ∧
          2 ^ 63 ≤ z' ∧ z' < 2 ^ 64) := by
  intro path z _ hz
  rw [fails_before_iff, event_value_of_json hread hbrace, document_fails_iff]
  constructor
  · rintro (hfail | ⟨v, i, hv, hat, rfl⟩)
    · exact Or.inr hfail
    · exact Or.inl ⟨i.le_toInt, (integer_at_iff hv path i).mp hat⟩
  · rintro (⟨hlo, hheld⟩ | hfail)
    · cases hv : jsonToVrlValue (JsonText.object names members).value with
      | error e => exact Or.inl ((document_fails_iff _).mp ⟨e, hv⟩)
      | ok v =>
        rcases Int.lt_or_le z (2 ^ 63) with hlt | hle
        · have hi : (Int64.ofInt z).toInt = z := Int64.toInt_ofInt_of_le hlo hlt
          refine Or.inr ⟨v, Int64.ofInt z, rfl, (integer_at_iff hv path _).mpr ?_, hi⟩
          rw [hi, hheld]
        · exact Or.inl ⟨path, z, hheld, hle, hz⟩
    · exact Or.inl hfail

end

end

def belowSigned : Int := -9223372036854775809

def belowText : String := "\x7b\"id\": -9223372036854775809\x7d"

def belowDoc : JsonText := .object ![ "id"] ![.integer belowSigned]

@[reducible] def readsBelow : SerdeJson := readsOnly belowText belowDoc

/-- One below the smallest signed integer, an id arrives as the float -2^63. -/
theorem id_below_signed_range :
    ¬∀ path z, belowDoc.Writes path z → z < 2 ^ 64 →
      (@FailsBeforeRunning asciiLibraries readsBelow belowText ∨ ∃ v i,
        @eventValue readsBelow belowText = .ok v ∧ v.at path = some (.integer i) ∧ i.toInt = z) := by
  intro h
  rcases h [.key "id"] belowSigned (.member 0 (.here belowSigned)) (by decide) with
    hfail | ⟨v, i, _, _, hi⟩
  · obtain ⟨e, he⟩ := (@fails_before_iff readsBelow asciiLibraries belowText).mp hfail
    have hok : (@eventValue readsBelow belowText).isOk = true := by decide +kernel
    rw [he] at hok
    cases hok
  · have hlo := i.le_toInt
    rw [hi, belowSigned] at hlo
    omega

theorem id_below_kept_iff :
    (@FailsBeforeRunning asciiLibraries readsBelow belowText ∨ ∃ v i,
        @eventValue readsBelow belowText = .ok v ∧
          v.at [.key "id"] = some (.integer i) ∧ i.toInt = belowSigned) ↔
      (-2 ^ 63 ≤ belowSigned ∧ belowDoc.held [.key "id"] = some (.integer belowSigned)) ∨
      ∃ path' z', belowDoc.held path' = some (.integer z') ∧ 2 ^ 63 ≤ z' ∧ z' < 2 ^ 64 :=
  @integer_kept_iff readsBelow asciiLibraries belowText 1 ![ "id"] ![.integer belowSigned] (if_pos rfl)
    (by decide +kernel) [.key "id"] belowSigned (.member 0 (.here belowSigned)) (by decide)

end VectorVrl.Proofs.Input
