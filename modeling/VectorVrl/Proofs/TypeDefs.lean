import VectorVrl.Proofs.Agreement
import VectorVrl.TypeDefs

namespace VectorVrl.Proofs.TypeDefs
open Lib.Effects Agreement

section
variable {Ctx α β : Type}

/-- Evaluation leaves its context as it finds it. -/
def Keeps (e : Eval Ctx α) : Prop := ∀ ctx, (e.run.run ctx).2 = ctx

theorem keeps_pure (a : α) : Keeps (pure a : Eval Ctx α) := fun _ => rfl

theorem keeps_throw (e : ExpressionError) : Keeps (throw e : Eval Ctx α) := fun _ => rfl

theorem keeps_lift (x : Except String α) : Keeps (liftError x : Eval Ctx α) := by
  intro ctx
  rw [run_lift]

theorem keeps_bind {e : Eval Ctx α} {f : α → Eval Ctx β} (he : Keeps e) (hf : ∀ a, Keeps (f a)) :
    Keeps (e >>= f) := by
  intro ctx
  have hctx := he ctx
  rw [run_bind]
  cases hrun : e.run.run ctx with
  | mk result after =>
    rw [hrun] at hctx
    obtain rfl : after = ctx := hctx
    cases result with
    | error e => rfl
    | ok a => exact hf a after

theorem keeps_each {f : α → Eval Ctx β} {l : List α} (h : ∀ a ∈ l, Keeps (f a)) :
    Keeps (l.mapM f) := by
  induction l with
  | nil =>
    rw [List.mapM_nil]
    exact keeps_pure []
  | cons a rest ih =>
    rw [List.forall_mem_cons] at h
    rw [List.mapM_cons]
    exact keeps_bind h.1 fun b => keeps_bind (ih h.2) fun bs => keeps_pure (b :: bs)

/-- Evaluation is these expressions in turn, and what comes after it goes on from there. -/
def Threads (e : Eval Ctx α) (es : List (Eval Ctx Value)) : Prop :=
  ∀ ctx rest, leftBy (es ++ rest) ctx =
    match e.run.run ctx with
    | (.ok _, after) => leftBy rest after
    | (.error _, after) => after

theorem threads_one (e : Eval Ctx Value) : Threads e [e] := by
  intro ctx rest
  rw [List.singleton_append, leftBy]
  cases e.run.run ctx with
  | mk result after => cases result <;> rfl

theorem threads_pure (a : α) : Threads (pure a : Eval Ctx α) [] := fun _ _ => rfl

theorem threads_bind {e : Eval Ctx α} {f : α → Eval Ctx β} {es es' : List (Eval Ctx Value)}
    (he : Threads e es) (hf : ∀ a, Threads (f a) es') : Threads (e >>= f) (es ++ es') := by
  intro ctx rest
  rw [List.append_assoc, he, run_bind]
  cases e.run.run ctx with
  | mk result after =>
    cases result with
    | error e => rfl
    | ok a => exact hf a after rest

theorem threads_each {f : α → Eval Ctx β} {g : α → Eval Ctx Value} (h : ∀ a, Threads (f a) [g a])
    (l : List α) : Threads (l.mapM f) (l.map g) := by
  induction l with
  | nil =>
    rw [List.mapM_nil]
    exact threads_pure []
  | cons a rest ih =>
    rw [List.mapM_cons, List.map_cons, ← List.singleton_append]
    refine threads_bind (h a) fun b => ?_
    rw [← List.append_nil (rest.map g)]
    exact threads_bind ih fun bs => threads_pure (b :: bs)

/-- With nothing evaluated after them, expressions in turn leave what the last leaves. -/
theorem threads_leave {e : Eval Ctx α} {f : α → Eval Ctx β} {es es' : List (Eval Ctx Value)}
    (he : Threads e es) (hf : ∀ a ctx, ((f a).run.run ctx).2 = leftBy es' ctx) (ctx : Ctx) :
    ((e >>= f).run.run ctx).2 = leftBy (es ++ es') ctx := by
  rw [he, run_bind]
  cases e.run.run ctx with
  | mk result after =>
    cases result with
    | error e => rfl
    | ok a => exact hf a after

theorem threads_keep {e : Eval Ctx α} {f : α → Eval Ctx β} {es : List (Eval Ctx Value)}
    (he : Threads e es) (hf : ∀ a, Keeps (f a)) (ctx : Ctx) :
    ((e >>= f).run.run ctx).2 = leftBy es ctx := by
  have hafter : ∀ a ctx, ((f a).run.run ctx).2 = leftBy [] ctx := hf
  have hleave := threads_leave he hafter ctx
  rwa [List.append_nil] at hleave

/-- The kind of what comes last is the kind of the whole. -/
theorem kind_bind {e : Eval Ctx α} {f : α → Eval Ctx Value} {kind : Kind}
    (hf : ∀ a, HasKind (f a) kind) : HasKind (e >>= f) kind := by
  intro ctx w hw
  rw [run_bind] at hw
  cases hrun : e.run.run ctx with
  | mk result after =>
    rw [hrun] at hw
    cases result with
    | error e => cases hw
    | ok a => exact hf a after w hw

end

theorem objects_array {v : Value} (h : (Kind.array .object).has v = true) :
    (Kind.array .any).has v = true := by
  cases v with
  | array items =>
    rw [Kind.has, List.all_eq_true]
    exact fun item _ => by cases item <;> rfl
  | _ => cases h

theorem secret_kind (secret : Option String) :
    (Kind.or .bytes .null).has (secretValue secret) = true := by
  cases secret <;> rfl

section
variable [ValuePaths]

/-- An operation on the secrets whose answer becomes the value. -/
def secretStep (op : TargetOp) (value : op.Answer → Value) : TargetExpr :=
  .perform op fun answer => .stop (.ok (value answer))

theorem step_run (op : TargetOp) (value : op.Answer → Value) (target : EventTarget) :
    (secretStep op value).eval.run.run target =
      (.ok (value (EventTarget.perform op target).1), (EventTarget.perform op target).2) := rfl

theorem step_infallible (op : TargetOp) (value : op.Answer → Value) (target : EventTarget) :
    Infallible (secretStep op value).eval target := by
  intro message
  rw [step_run]
  intro h
  cases h

theorem step_kind {op : TargetOp} {value : op.Answer → Value} {kind : Kind}
    (h : ∀ answer, kind.has (value answer) = true) : HasKind (secretStep op value).eval kind := by
  intro target v hv
  rw [step_run] at hv
  obtain rfl := Except.ok.inj hv
  exact h _

end

section
variable [Libraries]

/-- A value of the kind of bytes has a text. -/
theorem bytes_read {v : Value} (h : Kind.bytes.has v = true) :
    ∃ text, v.tryBytesUtf8Lossy = .ok text := by
  cases v with
  | bytes b => exact ⟨fromUtf8Lossy b, rfl⟩
  | string s => exact ⟨s, rfl⟩
  | _ => cases h

section
variable {Ctx : Type} {found : EnrichmentTable} {args : CompiledArgs Ctx}

/-- A lookup leaves what its arguments leave, in the order they are resolved in. -/
theorem lookup_leaves (ctx : Ctx) :
    ((resolveLookup args.condition args.select).run.run ctx).2 =
      leftBy (args.condition.toList.map Prod.snd ++ args.select.toList) ctx := by
  refine threads_leave (threads_each (fun entry => ?_) _) ?_ ctx
  · exact threads_bind (threads_one entry.2) fun v => threads_pure _
  · intro conditions
    cases args.select with
    | none => exact fun _ => rfl
    | some select =>
      refine threads_keep (threads_one select) ?_
      intro v
      split
      · exact keeps_bind (keeps_each fun item _ => keeps_lift _) fun fields => keeps_pure _
      · exact keeps_throw _

theorem enrichment_leaves (fn : LookupFn) (ctx : Ctx) :
    ((resolveOn found fn args).run.run ctx).2 =
      ((resolveLookup args.condition args.select).run.run ctx).2 := by
  cases fn with
  | getEnrichmentTableRecord =>
    rw [resolve_get]
    split <;> rename_i heq <;> rw [heq]
  | findEnrichmentTableRecords =>
    rw [resolve_find]
    split <;> rename_i heq <;> rw [heq]

theorem get_kind : HasKind (resolveOn found .getEnrichmentTableRecord args) .object := by
  intro ctx v hv
  rw [resolve_get] at hv
  split at hv
  · obtain ⟨row, _, rfl⟩ := Lib.Collect.map_ok_iff.mp hv
    rfl
  · cases hv

theorem find_kind : HasKind (resolveOn found .findEnrichmentTableRecords args) (.array .object) := by
  intro ctx v hv
  rw [resolve_find] at hv
  split at hv
  · obtain ⟨rows, _, rfl⟩ := Lib.Collect.map_ok_iff.mp hv
    rw [foundRows, Kind.has, List.all_eq_true]
    intro item hitem
    obtain ⟨i, rfl⟩ := List.mem_ofFn.mp hitem
    rfl
  · cases hv

end

section
variable [ValuePaths]

/-- A script that reads a text is the argument, its text and then the rest. -/
theorem text_eval (argument : TargetExpr) (next : String → TargetExpr) :
    (resolveText argument next).eval =
      (argument.eval >>= fun v => liftError v.tryBytesUtf8Lossy >>= fun text =>
        (next text).eval) := by
  funext target
  have hrun := run_bind argument.eval
    (fun v => liftError v.tryBytesUtf8Lossy >>= fun text => (next text).eval) target
  refine Eq.trans ?_ hrun.symm
  have hargument : argument.eval.run.run target =
    ((argument.run EventTarget.perform target).result,
      (argument.run EventTarget.perform target).state) := rfl
  rw [resolveText, TargetExpr.eval, Prog.run_bind, hargument]
  cases hresult : (argument.run EventTarget.perform target).result with
  | error e =>
    simp only [hresult]
    rfl
  | ok v =>
    simp only [hresult, run_bind, run_lift]
    cases v.tryBytesUtf8Lossy <;> rfl

/-- Once its argument gives a text, what reads it fails only as the rest does. -/
theorem text_infallible {argument : TargetExpr} {next : String → TargetExpr}
    {others : List (Kind × Eval EventTarget Value)} {target : EventTarget}
    (hserved : Served ((.bytes, argument.eval) :: others) target)
    (hnext : ∀ text after, Served others after → Infallible (next text).eval after) :
    Infallible (resolveText argument next).eval target := by
  intro message
  rw [text_eval, run_bind]
  rw [Served] at hserved
  cases hrun : argument.eval.run.run target with
  | mk result after =>
    rw [hrun] at hserved
    cases result with
    | error e =>
      cases e with
      | abort message => exact fun h => by cases h
      | error message => exact hserved.elim
    | ok v =>
      obtain ⟨text, htext⟩ := bytes_read hserved.1
      simp only [htext]
      exact hnext text after hserved.2 message

theorem text_kind {argument : TargetExpr} {next : String → TargetExpr} {kind : Kind}
    (hnext : ∀ text, HasKind (next text).eval kind) :
    HasKind (resolveText argument next).eval kind := by
  rw [text_eval]
  exact kind_bind fun v => kind_bind hnext

theorem text_leaves {argument : TargetExpr} {next : String → TargetExpr}
    (hnext : ∀ text, Keeps (next text).eval) (target : EventTarget) :
    ((resolveText argument next).eval.run.run target).2 = leftBy [argument.eval] target := by
  rw [text_eval]
  exact threads_keep (threads_one argument.eval) (fun v => keeps_bind (keeps_lift _) hnext) target

/-- Every call of the functions that the crate adds is as its type definition says: its
values are of the declared kind, it fails by itself only if it is declared fallible, and it
leaves the target as its arguments leave it if it is declared pure. -/
theorem calls_as_typed (call : FnCall) : call.AsTyped := by
  cases call with
  | getSecret key =>
    have hkind : HasKind (FnCall.getSecret key).resolve (.or .bytes .null) :=
      text_kind fun text => step_kind secret_kind
    refine ⟨hkind, hkind, ?_, ?_⟩
    · exact fun _ target hserved =>
        text_infallible hserved fun text after _ => step_infallible _ _ after
    · exact fun _ target => text_leaves (fun text after => rfl) target
  | setSecret key secret =>
    have hkind : HasKind (FnCall.setSecret key secret).resolve .null :=
      text_kind fun text => text_kind fun text' => step_kind fun _ => rfl
    refine ⟨hkind, hkind, ?_, ?_⟩
    · exact fun _ target hserved => text_infallible hserved fun text after hsecret =>
        text_infallible hsecret fun text' after' _ => step_infallible _ _ after'
    · intro h
      cases h
  | removeSecret key =>
    have hkind : HasKind (FnCall.removeSecret key).resolve .null :=
      text_kind fun text => step_kind fun _ => rfl
    refine ⟨hkind, hkind, ?_, ?_⟩
    · exact fun _ target hserved =>
        text_infallible hserved fun text after _ => step_infallible _ _ after
    · intro h
      cases h
  | enrichment fn found args =>
    have hleaves : ∀ target, ((resolveOn found fn args).run.run target).2 =
        leftBy ((FnCall.enrichment fn found args).arguments.map Prod.snd) target := by
      intro target
      rw [enrichment_leaves, lookup_leaves, FnCall.arguments, List.map_append, List.map_map,
        List.map_map]
      simp [Function.comp_def]
    cases fn with
    | getEnrichmentTableRecord =>
      exact ⟨get_kind, get_kind, (nomatch ·), fun _ => hleaves⟩
    | findEnrichmentTableRecords =>
      refine ⟨find_kind, ?_, (nomatch ·), fun _ => hleaves⟩
      exact fun ctx v hv => objects_array (find_kind ctx v hv)

end

end

end VectorVrl.Proofs.TypeDefs
