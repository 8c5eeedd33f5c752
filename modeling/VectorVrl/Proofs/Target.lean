import VectorVrl.Target
import VectorVrl.Proofs.Outcome

namespace VectorVrl.Proofs.Target
open Lib.Effects Lib.OrderedMap Outcome

theorem latest_secret (key : String) (secrets : SecretMap) (ops : List SecretOp) :
    (ops.foldl SecretOp.apply secrets)[key]? = latestSecret key secrets[key]? ops := by
  induction ops generalizing secrets with
  | nil => rfl
  | cons op rest ih =>
    rw [List.foldl_cons, ih, latestSecret, latestSecret, List.foldl_cons]
    congr 1
    cases op with
    | set other value => simp [SecretOp.apply, Std.ExtTreeMap.getElem?_insert]
    | remove other => simp [SecretOp.apply, Std.ExtTreeMap.getElem?_erase]

theorem rejected_secrets [Libraries] [SerdeJson] {eventData : String}
    {outOfRange : IntegerOutOfRange} (h : eventValue eventData = .error outOfRange) (run : Resolve)
    (secrets : SecretMap) :
    (executeVrlOnEvent run eventData secrets).secrets = secrets := by
  simp only [executeVrlOnEvent, h]

section
variable [paths : ValuePaths]

/-- Only the operations under a prefix reach the value under it. -/
theorem perform_under (pathPrefix : PathPrefix) (op : TargetOp) (target : EventTarget) :
    (EventTarget.perform op target).2.under pathPrefix =
      (op.under pathPrefix).elim (target.under pathPrefix)
        (ValueOp.apply (target.under pathPrefix)) := by
  cases op with
  | insert p value => obtain ⟨pre, path⟩ := p; cases pre <;> cases pathPrefix <;> rfl
  | get p => obtain ⟨pre, path⟩ := p; cases pre <;> cases pathPrefix <;> rfl
  | getMut p write => obtain ⟨pre, path⟩ := p; cases pre <;> cases pathPrefix <;> rfl
  | remove p compact => obtain ⟨pre, path⟩ := p; cases pre <;> cases pathPrefix <;> rfl
  | _ => cases pathPrefix <;> rfl

/-- Only the secret operations reach the secrets. -/
theorem perform_secrets (op : TargetOp) (target : EventTarget) :
    (EventTarget.perform op target).2.secrets =
      op.onSecrets.elim target.secrets (SecretOp.apply target.secrets) := by
  cases op with
  | insert p value => obtain ⟨pre, path⟩ := p; cases pre <;> rfl
  | getMut p write => obtain ⟨pre, path⟩ := p; cases pre <;> rfl
  | remove p compact => obtain ⟨pre, path⟩ := p; cases pre <;> rfl
  | _ => rfl

section
variable {ρ : Type} (script : Script ρ) (target : EventTarget)

theorem run_under (pathPrefix : PathPrefix) :
    (script.run EventTarget.perform target).state.under pathPrefix =
      ((script.run EventTarget.perform target).ops.filterMap (·.under pathPrefix)).foldl
        ValueOp.apply (target.under pathPrefix) := by
  rw [Prog.run_state]
  exact Prog.part_after _ (·.under pathPrefix) (perform_under pathPrefix) _ target

theorem run_secrets :
    (script.run EventTarget.perform target).state.secrets =
      ((script.run EventTarget.perform target).ops.filterMap TargetOp.onSecrets).foldl
        SecretOp.apply target.secrets := by
  rw [Prog.run_state]
  exact Prog.part_after _ EventTarget.secrets perform_secrets _ target

/-- Each `get_secret` is answered with the latest value the operations before it set. -/
theorem run_get_secret {before rest : List (Event TargetOp TargetOp.Answer)} {key : String}
    {answer : Option String}
    (h : (script.run EventTarget.perform target).log =
      before ++ ⟨.getSecret key, answer⟩ :: rest) :
    answer = latestSecret key target.secrets[key]?
      ((before.map Sigma.fst).filterMap TargetOp.onSecrets) := by
  have hanswer := Prog.run_answer _ script target h
  rw [hanswer, ← latest_secret, ← Prog.part_after _ EventTarget.secrets perform_secrets]
  rfl

end

section
variable [Libraries]

/-- An argument that resolves to a text hands it on; one that fails stops the call. -/
theorem resolve_text_run (argument : TargetExpr) (next : String → TargetExpr)
    (target : EventTarget) {value : Value} {text : String}
    (hvalue : (argument.run EventTarget.perform target).result = .ok value)
    (htext : value.tryBytesUtf8Lossy = .ok text) :
    (resolveText argument next).run EventTarget.perform target =
      let first := argument.run EventTarget.perform target
      let second := (next text).run EventTarget.perform first.state
      ⟨first.log ++ second.log, second.result, second.state⟩ := by
  rw [resolveText, Prog.run_bind]
  simp only [hvalue, htext]

theorem get_secret_run (key : TargetExpr) (target : EventTarget) {value : Value} {text : String}
    (hvalue : (key.run EventTarget.perform target).result = .ok value)
    (htext : value.tryBytesUtf8Lossy = .ok text) :
    ∃ answer, ((getSecretFn key).run EventTarget.perform target).result =
        .ok (secretValue answer) ∧
      ((getSecretFn key).run EventTarget.perform target).log =
        (key.run EventTarget.perform target).log ++ [⟨.getSecret text, answer⟩] := by
  rw [getSecretFn, resolve_text_run key _ target hvalue htext]
  exact ⟨_, rfl, rfl⟩

end

section
variable [Libraries] [SerdeJson]

/-- The secrets of an outcome are those the run left, however it ended. -/
theorem outcome_secrets {eventData : String} {value : Value}
    (h : eventValue eventData = .ok value) (script : Script (Except Terminate Value))
    (secrets : SecretMap) :
    (executeVrlOnEvent (runScript script) eventData secrets).secrets =
      (script.run EventTarget.perform (.new value secrets)).state.secrets := by
  simp only [executeVrlOnEvent, h, runScript]

end

end

example : latestSecret "k" (some "old") [.set "k" "new", .remove "other"] = some "new" := by decide

def fieldsOf : Value → ObjectMap
  | .object keys field => toMap keys field
  | _ => ∅

/-- The paths that name one top-level field. -/
@[reducible] def fieldPaths : ValuePaths where
  Path := String
  insert v key new := .ofMap ((fieldsOf v).insert key new)
  get v key := (fieldsOf v)[key]?
  getMut v key write :=
    match (fieldsOf v)[key]? with
    | some old => (some old, .ofMap ((fieldsOf v).insert key (write old)))
    | none => (none, v)
  remove v key _ :=
    match (fieldsOf v)[key]? with
    | some old => (some old, .ofMap ((fieldsOf v).erase key))
    | none => (none, v)

section
local instance : Libraries := asciiLibraries
local instance : SerdeJson := readsNested
local instance : ValuePaths := fieldPaths

/-- A program that sets a secret and a field, and aborts. -/
def tokenScript : Script (Except Terminate Value) :=
  .perform (.insertSecret "token" "s3cr3t") fun _ =>
    .perform (.insert ⟨.event, "echo"⟩ .null) fun _ => .stop (.error (.abort "stopped"))

end

end VectorVrl.Proofs.Target
