import VectorVrl.Proofs.Values
import VectorVrl.Vector

namespace VectorVrl.Proofs.Outcome
open Lib.OrderedMap Values

theorem is_object_iff {v : Value} :
    v.isObject = true ↔ ∃ keys field, v = .object keys field := by
  constructor
  · intro h
    cases v with
    | object keys field => exact ⟨keys, field, rfl⟩
    | _ => simp [Value.isObject] at h
  · intro hsome
    obtain ⟨keys, field, rfl⟩ := hsome
    rfl

section
variable [Libraries]

theorem finish_object {keys : Keys String} {field : Fin keys.size → Value}
    (h : ¬(Value.object keys field).HoldsInfinity) :
    finishEvent (.object keys field) = .ok (.object keys field) := by
  simp only [finishEvent, (first_infinite_none_iff _).mpr h]

theorem finish_infinite {keys : Keys String} {field : Fin keys.size → Value}
    (h : (Value.object keys field).HoldsInfinity) :
    ∃ e, finishEvent (.object keys field) = .error e := by
  cases hf : firstInfiniteFloat (.object keys field) with
  | none => exact absurd h ((first_infinite_none_iff _).mp hf)
  | some path => exact ⟨_, by simp only [finishEvent, hf]; rfl⟩

theorem finish_other {v : Value} (h : v.isObject = false) : ∃ e, finishEvent v = .error e := by
  cases v with
  | object keys field => simp [Value.isObject] at h
  | _ => exact ⟨_, rfl⟩

/-- The guard of a finished run: an object without infinity passes unchanged, all else fails. -/
theorem finish_spec (v : Value) :
    (∃ keys field, v = .object keys field ∧ ¬v.HoldsInfinity ∧ finishEvent v = .ok v) ∨
    ((v.isObject = false ∨ v.HoldsInfinity) ∧ ∃ e, finishEvent v = .error e) := by
  cases ho : v.isObject with
  | false => exact Or.inr ⟨Or.inl rfl, finish_other ho⟩
  | true =>
    obtain ⟨keys, field, rfl⟩ := is_object_iff.mp ho
    by_cases hinf : (Value.object keys field).HoldsInfinity
    · exact Or.inr ⟨Or.inr hinf, finish_infinite hinf⟩
    · exact Or.inl ⟨keys, field, rfl, hinf, finish_object hinf⟩

end

/-- Pairing each input with what its own position produced. -/
theorem zip_map_idx {α β γ : Type} (f : Nat → α → β) (g : α → β → γ) (xs : List α) :
    ((xs.zip (xs.mapIdx f)).map fun (x, y) => g x y) = xs.mapIdx fun i x => g x (f i x) := by
  apply List.ext_getElem (by simp)
  intro i h₁ h₂
  simp

theorem compile_ok_iff {compile : Compiler} {vrlCode : String} {program : Program} :
    compileVrlProgram compile vrlCode = .ok program ↔
      Nesting.checkNestingDepth vrlCode = .ok () ∧ compile vrlCode = .ok program := by
  unfold compileVrlProgram
  cases Nesting.checkNestingDepth vrlCode with
  | error e => simp [bind, Except.bind]
  | ok u => cases compile vrlCode <;> simp [bind, Except.bind, Except.mapError]

section
variable [lib : Libraries] [serde : SerdeJson] {run : Resolve} {event : String} {secrets : SecretMap}

theorem result_of_final {v : Value} (h : finalValue run event secrets = some v) :
    (executeVrlOnEvent run event secrets).result = finishEvent v := by
  unfold finalValue at h
  unfold executeVrlOnEvent
  cases he : eventValue event with
  | error outOfRange => simp [he] at h
  | ok value =>
    cases hr : run (EventTarget.new value secrets) with
    | mk resolved target =>
      cases resolved with
      | error terminate => simp [he, hr] at h
      | ok returned =>
        simp only [he, hr, Option.some.injEq] at h
        simp only [hr, h]

theorem result_without_final (h : finalValue run event secrets = none) :
    ∃ e, (executeVrlOnEvent run event secrets).result = .error e := by
  unfold finalValue at h
  unfold executeVrlOnEvent
  cases he : eventValue event with
  | error outOfRange => exact ⟨_, rfl⟩
  | ok value =>
    cases hr : run (EventTarget.new value secrets) with
    | mk resolved target =>
      cases resolved with
      | error terminate => exact ⟨terminate.message, by simp only [hr]⟩
      | ok returned => simp [he, hr] at h

theorem run_events_py_ok {compile : Compiler} {vrlCode : String} {program : Program}
    (hc : compileVrlProgram compile vrlCode = .ok program)
    (events : List String) (secrets : SecretMap) :
    runEventsPy compile vrlCode events secrets =
      .ok (events.mapIdx fun i event => executeVrlOnEvent (program.resolve i) event secrets) := by
  simp only [runEventsPy, runEvents, hc]
  rfl

end

section
variable [lib : Libraries] [serde : SerdeJson]

theorem dict_of_object (keys : Keys String) (field : Fin keys.size → Value) (original : String) :
    vrlOutcomeToPyDict (.ok (.object keys field)) original =
      toMap keys fun i => fieldToPy (vrlValueToJson (field i)) := by
  simp only [vrlOutcomeToPyDict, json_object]

theorem error_in_failed (e original : String) :
    "error" ∈ vrlOutcomeToPyDict (.error e) original := by
  simp [vrlOutcomeToPyDict]

/-- Every field reaches Python under its own name and as itself. -/
theorem field_shows {v : Value} (h : ¬v.HoldsInfinity) :
    ShowsAs v (fieldToPy (vrlValueToJson v)) ∧
    (fieldToPy (vrlValueToJson v) = .none ↔ v = .null) := by
  cases v with
  | float f =>
    have hf : f.val.isInfinite = false := by
      cases hi : f.val.isInfinite with
      | false => rfl
      | true => exact absurd ⟨[], f, rfl, hi⟩ h
    rw [json_finite_float hf]
    simp [fieldToPy, ShowsAs, Number.asI64, Number.asF64]
  | integer i => simp [vrlValueToJson, fieldToPy, ShowsAs, as_i64_of]
  | array items => exact ⟨⟨rfl, same_nulls h⟩, by simp [vrlValueToJson, fieldToPy]⟩
  | object keys field =>
    refine ⟨⟨?_, same_nulls h⟩, ?_⟩
    · simp only [json_object, fieldToPy]
    · simp [json_object, fieldToPy]
  | _ => simp [vrlValueToJson, fieldToPy, ShowsAs]

theorem dict_of_success {run : Resolve} {event : String} {secrets : SecretMap}
    {keys : Keys String} {field : Fin keys.size → Value}
    (h : finalValue run event secrets = some (.object keys field))
    (hinf : ¬(Value.object keys field).HoldsInfinity) :
    eventDict run event secrets = toMap keys fun i => fieldToPy (vrlValueToJson (field i)) := by
  rw [eventDict, result_of_final h, finish_object hinf, dict_of_object]

theorem error_key_of_failed {run : Resolve} {event : String} {secrets : SecretMap} {e : String}
    (h : (executeVrlOnEvent run event secrets).result = .error e) :
    "error" ∈ eventDict run event secrets := by
  rw [eventDict, h]
  exact error_in_failed e event

/-- The `error` key misreports exactly the events that succeed with a field of that name. -/
theorem error_key_iff (run : Resolve) (event : String) (secrets : SecretMap) :
    ("error" ∈ eventDict run event secrets ↔
      ∃ e, (executeVrlOnEvent run event secrets).result = .error e) ↔
    ¬LeavesErrorField run event secrets := by
  cases hv : finalValue run event secrets with
  | none =>
    obtain ⟨e, he⟩ := result_without_final hv
    refine ⟨fun _ => ?_, fun _ => ⟨fun _ => ⟨e, he⟩, fun _ => error_key_of_failed he⟩⟩
    intro hsome
    obtain ⟨keys, field, hfinal, _⟩ := hsome
    rw [hv] at hfinal
    cases hfinal
  | some v =>
    rcases finish_spec v with ⟨keys, field, rfl, hinf, hok⟩ | ⟨hbad, e, he⟩
    · have hres := (result_of_final hv).trans hok
      have hkey : "error" ∈ eventDict run event secrets ↔ "error" ∈ keys.names := by
        rw [dict_of_success hv hinf, mem_to_map]
      rw [hkey]
      constructor
      · rintro hiff ⟨keys', field', hfinal, hmem, _⟩
        rw [hv] at hfinal
        cases hfinal
        obtain ⟨e, he⟩ := hiff.mp hmem
        rw [hres] at he
        cases he
      · intro hno
        refine ⟨fun hmem => absurd ⟨keys, field, hv, hmem, hinf⟩ hno, ?_⟩
        intro hsome
        obtain ⟨e, he⟩ := hsome
        rw [hres] at he
        cases he
    · have hres := (result_of_final hv).trans he
      refine ⟨fun _ => ?_, fun _ => ⟨fun _ => ⟨e, hres⟩, fun _ => error_key_of_failed hres⟩⟩
      intro hsome
      obtain ⟨keys, field, hfinal, _, hinf⟩ := hsome
      rw [hv] at hfinal
      cases hfinal
      rcases hbad with ho | hi
      · cases ho
      · exact hinf hi

section
variable {compile : Compiler} {vrlCode : String} {program : Program}

theorem execute_vrl_ok (hc : compileVrlProgram compile vrlCode = .ok program)
    (events : List String) (secrets : Option SecretMap) :
    executeVrl compile vrlCode events secrets =
      .ok (events.mapIdx fun i event => eventDict (program.resolve i) event (secrets.getD ∅)) := by
  rw [executeVrl, run_events_py_ok hc]
  exact congrArg Except.ok (zip_map_idx _ (fun input (outcome : EventOutcome) =>
    vrlOutcomeToPyDict outcome.result input) events)

theorem execute_with_secrets_ok (hc : compileVrlProgram compile vrlCode = .ok program)
    (events : List String) (secrets : Option SecretMap) :
    executeVrlWithSecrets compile vrlCode events secrets =
      .ok (events.mapIdx fun i event =>
        ⟨eventDict (program.resolve i) event (secrets.getD ∅),
          (executeVrlOnEvent (program.resolve i) event (secrets.getD ∅)).secrets⟩) := by
  rw [executeVrlWithSecrets, run_events_py_ok hc]
  exact congrArg Except.ok (zip_map_idx _ (fun input (outcome : EventOutcome) =>
    EventWithSecrets.mk (vrlOutcomeToPyDict outcome.result input) outcome.secrets) events)

/-- The dicts a batch is converted to, whatever was counted and converted before it. -/
theorem convert_fold_results (pairs : List (String × EventOutcome)) (totals : Totals)
    (results : List PyDict) :
    (pairs.foldl (fun (totals, results) (log, outcome) =>
      (Totals.count totals log outcome, results ++ [vrlOutcomeToPyDict outcome.result log]))
      (totals, results)).2 =
    results ++ pairs.map fun (log, outcome) => vrlOutcomeToPyDict outcome.result log := by
  induction pairs generalizing totals results with
  | nil => simp
  | cons pair rest ih => simp [ih]

theorem process_logs_ok (hc : compileVrlProgram compile vrlCode = .ok program)
    (events : List String) {pipeline : Vector} (hp : pipeline.initialized = true) :
    (pipeline.processLogs compile events vrlCode).1 =
      .ok (events.mapIdx fun i event => eventDict (program.resolve i) event ∅) := by
  simp only [Vector.processLogs, Vector.checkInitialized, hp, if_true, run_events_py_ok hc,
    Vector.finishBatch, Vector.convertBatch]
  refine congrArg Except.ok ((convert_fold_results _ _ _).trans ?_)
  exact zip_map_idx _ (fun log (outcome : EventOutcome) =>
    vrlOutcomeToPyDict outcome.result log) events

/-- Every entry point returns the dict of each event, and in it the key `error`
tells failure apart exactly when no event succeeds with a field of that name. -/
theorem failure_check_iff (hc : compileVrlProgram compile vrlCode = .ok program)
    (events : List String) (secrets : Option SecretMap) {pipeline : Vector}
    (hp : pipeline.initialized = true) :
    executeVrl compile vrlCode events secrets =
      .ok (events.mapIdx fun i event => eventDict (program.resolve i) event (secrets.getD ∅)) ∧
    (executeVrlWithSecrets compile vrlCode events secrets).map (List.map (·.event)) =
      .ok (events.mapIdx fun i event => eventDict (program.resolve i) event (secrets.getD ∅)) ∧
    (pipeline.processLogs compile events vrlCode).1 =
      .ok (events.mapIdx fun i event => eventDict (program.resolve i) event ∅) ∧
    ∀ i event seed,
      ("error" ∈ eventDict (program.resolve i) event seed ↔
        ∃ e, (executeVrlOnEvent (program.resolve i) event seed).result = .error e) ↔
      ¬LeavesErrorField (program.resolve i) event seed := by
  refine ⟨execute_vrl_ok hc events secrets, ?_, process_logs_ok hc events hp, ?_⟩
  · rw [execute_with_secrets_ok hc]
    refine congrArg Except.ok (List.ext_getElem (by simp) ?_)
    intro i h₁ h₂
    simp
  · intro i event seed
    exact error_key_iff (program.resolve i) event seed

end

end

def diskFull : String := "\x7b\"error\":\"disk full\"\x7d"

@[reducible] def readsDiskFull : SerdeJson :=
  readsOnly diskFull (.object ![ "error"] ![.string "disk full"])

/-- The program `.`, which leaves its event as it is. -/
def unchanged : Program := ⟨fun _ target => (.ok target.value, target)⟩

theorem compile_dot (program : Program) :
    compileVrlProgram (fun _ => .ok program) "." = .ok program :=
  compile_ok_iff.mpr ⟨(Nesting.check_accepts_iff _).mpr (by decide +kernel), rfl⟩

/-- An event with an `error` field of its own comes back unchanged and reads as failed. -/
theorem success_with_error_key :
    ¬∀ run event secrets,
      ("error" ∈ @eventDict asciiLibraries readsDiskFull run event secrets ↔
        ∃ e, (@executeVrlOnEvent asciiLibraries readsDiskFull run event secrets).result =
          .error e) := by
  intro h
  obtain ⟨e, he⟩ := (h (unchanged.resolve 0) diskFull ∅).mp (by decide +kernel)
  have hok : (@executeVrlOnEvent asciiLibraries readsDiskFull (unchanged.resolve 0) diskFull
      ∅).result.isOk = true := by
    decide +kernel
  rw [he] at hok
  cases hok

theorem failure_check_disk_full :
    ("error" ∈ @eventDict asciiLibraries readsDiskFull (unchanged.resolve 0) diskFull ∅ ↔
      ∃ e, (@executeVrlOnEvent asciiLibraries readsDiskFull (unchanged.resolve 0) diskFull
        ∅).result = .error e) ↔
    ¬@LeavesErrorField readsDiskFull (unchanged.resolve 0) diskFull ∅ :=
  (@failure_check_iff asciiLibraries readsDiskFull (fun _ => .ok unchanged) "." unchanged
    (compile_dot unchanged) [diskFull] none (Vector.new.initializePipeline 0)
    rfl).2.2.2 0 diskFull ∅

def nestedText : String :=
  "\x7b\"code\":-7,\"detail\":\x7b\"level\":null,\"tags\":[\"a\",2.5]\x7d,\"none\":null\x7d"

def twoAndAHalf : F64 := ⟨0x4004000000000000⟩

@[reducible] def readsNested : SerdeJson :=
  readsOnly nestedText (.object ![ "code", "detail", "none"] ![.integer (-7),
    .object ![ "level", "tags"] ![.null, .array ![.string "a", .decimal twoAndAHalf rfl]], .null])

/-- The nested text as the event it becomes. -/
def nestedEvent : Value :=
  .ofMap ((((∅ : ObjectMap).insert "code" (.integer (-7))).insert "detail"
    (.ofMap (((∅ : ObjectMap).insert "level" .null).insert "tags"
      (.array ![.ofStr "a", .float ⟨twoAndAHalf, rfl⟩])))).insert "none" .null)

/-- A program that stops at an event with a code. -/
def abortsOnCode : Program where
  resolve _ target :=
    match target.value with
    | .object keys _ =>
      if "code" ∈ keys.names then (.error (.abort "coded"), target) else (.ok .null, target)
    | _ => (.ok .null, target)

end VectorVrl.Proofs.Outcome
