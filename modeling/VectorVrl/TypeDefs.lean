import VectorVrl.Target

namespace VectorVrl
open Lib.Effects

/-- The kinds of values that the functions' parameters and results are declared with. -/
inductive Kind where
  | any
  | bytes
  | null
  | object
  | array (items : Kind)
  | or (a b : Kind)
deriving DecidableEq, Repr

namespace Kind

/-- The value is of the kind; a text is of the kind of bytes however it is stored. -/
def has : Kind → Value → Bool
  | .any, _ => true
  | .bytes, .bytes _ | .bytes, .string _ => true
  | .null, .null => true
  | .object, .object _ _ => true
  | .array kind, .array items => (List.ofFn items).all kind.has
  | .or a b, v => a.has v || b.has v
  | _, _ => false

end Kind

/-- What a function tells VRL's compiler of its calls: the kind of their value, whether
they can fail by themselves, and whether they leave the target alone. -/
structure TypeDef where
  kind : Kind
  fallible : Bool
  pure : Bool
deriving DecidableEq, Repr

def TypeDef.of (kind : Kind) : TypeDef := ⟨kind, false, true⟩

def TypeDef.setFallible (d : TypeDef) : TypeDef := { d with fallible := true }

def TypeDef.impure (d : TypeDef) : TypeDef := { d with pure := false }

/-- A call of one of the functions that the crate adds to VRL's own, with its arguments;
an enrichment function has the table that its compilation found. -/
inductive FnCall [ValuePaths] where
  | getSecret (key : TargetExpr)
  | setSecret (key secret : TargetExpr)
  | removeSecret (key : TargetExpr)
  | enrichment (fn : LookupFn) (found : EnrichmentTable) (args : CompiledArgs EventTarget)

section
variable [ValuePaths]

/-- A script as an expression in the context of its target. -/
def TargetExpr.eval (e : TargetExpr) : Eval EventTarget Value := fun target =>
  let ran := e.run EventTarget.perform target
  (ran.result, ran.state)

namespace FnCall

/-- The arguments that a call resolves, each with the kind of its parameter. The fields of
a condition are of any kind. -/
def arguments : FnCall → List (Kind × Eval EventTarget Value)
  | .getSecret key => [(.bytes, key.eval)]
  | .setSecret key secret => [(.bytes, key.eval), (.bytes, secret.eval)]
  | .removeSecret key => [(.bytes, key.eval)]
  | .enrichment _ _ args =>
    (args.condition.toList.map fun entry => (.any, entry.2)) ++
      args.select.toList.map fun select => (.array .any, select)

/-- `return_kind` of the function. -/
def returnKind : FnCall → Kind
  | .getSecret _ => .or .bytes .null
  | .setSecret _ _ => .null
  | .removeSecret _ => .null
  | .enrichment .getEnrichmentTableRecord _ _ => .object
  | .enrichment .findEnrichmentTableRecords _ _ => .array .any

/-- `type_def` of the compiled call. -/
def typeDef : FnCall → TypeDef
  | .getSecret _ => .of (.or .bytes .null)
  | .setSecret _ _ => (TypeDef.of .null).impure
  | .removeSecret _ => (TypeDef.of .null).impure
  | .enrichment .getEnrichmentTableRecord _ _ => (TypeDef.of .object).setFallible
  | .enrichment .findEnrichmentTableRecords _ _ => (TypeDef.of (.array .object)).setFallible

/-- `resolve` of the compiled call. -/
def resolve [Libraries] : FnCall → Eval EventTarget Value
  | .getSecret key => (getSecretFn key).eval
  | .setSecret key secret => (setSecretFn key secret).eval
  | .removeSecret key => (removeSecretFn key).eval
  | .enrichment fn found args => resolveOn found fn args

end FnCall

end

section
variable {Ctx α : Type}

/-- Evaluation does not end in an error of its own here; an abort is none. -/
def Infallible (e : Eval Ctx α) (ctx : Ctx) : Prop :=
  ∀ message, (e.run.run ctx).1 ≠ .error (.error message)

/-- Every value of the expression is of the kind. -/
def HasKind (e : Eval Ctx Value) (kind : Kind) : Prop :=
  ∀ ctx v, (e.run.run ctx).1 = .ok v → kind.has v = true

/-- Arguments resolved one after the other each give a value of their parameter's kind, or
one aborts the program first. -/
def Served : List (Kind × Eval Ctx Value) → Ctx → Prop
  | [], _ => True
  | (kind, e) :: rest, ctx =>
    match e.run.run ctx with
    | (.ok v, after) => kind.has v = true ∧ Served rest after
    | (.error (.abort _), _) => True
    | (.error (.error _), _) => False

/-- What expressions leave that are evaluated one after the other, up to one that gives no
value. -/
def leftBy : List (Eval Ctx Value) → Ctx → Ctx
  | [], ctx => ctx
  | e :: rest, ctx =>
    match e.run.run ctx with
    | (.ok _, after) => leftBy rest after
    | (.error _, after) => after

end

/-- A call is what its function says of it. -/
structure FnCall.AsTyped [ValuePaths] [Libraries] (call : FnCall) : Prop where
  kind : HasKind call.resolve call.typeDef.kind
  returns : HasKind call.resolve call.returnKind
  infallible : call.typeDef.fallible = false →
    ∀ target, Served call.arguments target → Infallible call.resolve target
  pure : call.typeDef.pure = true → ∀ target,
    (call.resolve.run.run target).2 = leftBy (call.arguments.map Prod.snd) target

end VectorVrl
