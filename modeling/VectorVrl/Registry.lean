import VectorVrl.Enrichment
import VectorVrl.Lib.Runs

namespace VectorVrl
open Lib.Runs

/-- A VRL program named a table that is not in the registry. -/
structure UnknownTable where
  table : String
  registered : List String
deriving DecidableEq, Repr

namespace UnknownTable

def display [Libraries] (self : UnknownTable) : String :=
  if self.registered.isEmpty then
    s!"unknown enrichment table {debugStr self.table}: no enrichment tables are registered"
  else
    let names := ", ".intercalate self.registered
    s!"unknown enrichment table {debugStr self.table}; registered tables: {names}"

/-- The code Vector's own enrichment integration uses. -/
def code (_self : UnknownTable) : Nat := 111

end UnknownTable

/-- Why a call of an enrichment function does not compile. -/
inductive CompileError where
  | argument (message : String)
  | unknownTable (e : UnknownTable)

/-- Why an expression has no value at run time. -/
inductive ExpressionError where
  | abort (message : Option String)
  | error (message : String)

/-- Evaluation in a context, which keeps what was done to it before an error. -/
abbrev Eval (Ctx : Type) := ExceptT ExpressionError (StateM Ctx)

abbrev Expression (Ctx : Type) := Eval Ctx Value

/-- The arguments of a call as VRL's compiler hands them over, literals already evaluated. -/
structure ArgumentList (Ctx : Type) where
  table : Except String ByteArray
  condition : Except String (BTreeMap (Expression Ctx))
  select : Option (Expression Ctx)
  caseSensitive : Except String (Option Value)

/-- Which of the two enrichment functions is called. -/
inductive LookupFn where
  | getEnrichmentTableRecord
  | findEnrichmentTableRecords
deriving DecidableEq, Repr

/-- The arguments both enrichment functions take, resolved at compile time.
`data` is the shared table. -/
structure CompiledArgs (Ctx : Type) where
  table : String
  data : Nat
  index : Option RowIndex
  condition : BTreeMap (Expression Ctx)
  select : Option (Expression Ctx)
  caseSensitive : Bool

def Value.asBoolean : Value → Option Bool
  | .boolean b => some b
  | _ => none

section
variable {Ctx : Type} [Libraries]

/-- The part of `compile_args` after the table is found: it may leave an index in its cache. -/
def compileOn (found : EnrichmentTable) (data : Nat) (table : String)
    (arguments : ArgumentList Ctx) : Except CompileError (CompiledArgs Ctx) × EnrichmentTable :=
  match arguments.condition, arguments.caseSensitive with
  | .error e, _ => (.error (.argument e), found)
  | .ok _, .error e => (.error (.argument e), found)
  | .ok condition, .ok literal =>
    let caseSensitive := (literal.bind Value.asBoolean).getD true
    let (index, found) := found.indexFor caseSensitive condition.keys
    (.ok ⟨table, data, index, condition, arguments.select, caseSensitive⟩, found)

def liftError {α : Type} (x : Except String α) : Eval Ctx α :=
  match x with
  | .ok a => pure a
  | .error e => throw (.error e)

/-- Resolve the condition object and the optional `select` list for one event. -/
def resolveLookup (condition : BTreeMap (Expression Ctx)) (select : Option (Expression Ctx)) :
    Eval Ctx (List (String × Value) × Option (List String)) := do
  let conditions ← condition.toList.mapM fun (key, expr) => do return (key, ← expr)
  match select with
  | none => return (conditions, none)
  | some expr =>
    match ← expr with
    | .array items =>
      let fields ← (List.ofFn items).mapM fun item => liftError item.tryBytesUtf8Lossy
      return (conditions, some fields)
    | _ => throw (.error "select must be an array of field names")

/-- Run a compiled lookup on the table it holds. -/
def resolveOn (found : EnrichmentTable) (fn : LookupFn) (args : CompiledArgs Ctx) :
    Eval Ctx Value := do
  let (conditions, select) ← resolveLookup args.condition args.select
  match fn with
  | .getEnrichmentTableRecord =>
    let rows ← liftError (found.findRows args.index conditions args.caseSensitive select .one)
    if rows.length > 1 then
      throw (.error s!"More than one row found in enrichment table {debugStr args.table}")
    match rows.getLast? with
    | some row => return .ofMap row
    | none => throw (.error s!"No rows found in enrichment table {debugStr args.table}")
  | .findEnrichmentTableRecords =>
    let rows ← liftError (found.findRows args.index conditions args.caseSensitive select .all)
    return .array fun i => .ofMap (rows.get i)

end

/-- Name to shared table, an `Arc` being a place in the list of all tables ever loaded. -/
abbrev TableMap := BTreeMap Nat

/-- The registry, the tables it and the compiled programs share, and these programs. -/
structure World (Ctx : Type) where
  tables : List EnrichmentTable
  registry : TableMap
  programs : List (LookupFn × CompiledArgs Ctx)

/-- The table a registration reads, before it is bound. -/
def loadTable [Libraries] (files : Files) (name kind path : String) (delimiter : UInt8) :
    Except String EnrichmentTable :=
  if name.isEmpty then .error "enrichment table name must not be empty"
  else if kind = "file" then (FileTable.load files path delimiter).map .file
  else if kind = "geoip" then (GeoipTable.load files path).map .geoip
  else .error s!"unknown enrichment table kind {debugStr kind}"

namespace World
variable {Ctx : Type}

def start : World Ctx := ⟨[], ∅, []⟩

/-- Register a table under `name`, replacing any table already using that name. -/
def registerTable [Libraries] (w : World Ctx) (files : Files) (name kind path : String)
    (delimiter : UInt8) : Except String Unit × World Ctx :=
  match loadTable files name kind path delimiter with
  | .error e => (.error e, w)
  | .ok table =>
    (.ok (), { w with
      tables := w.tables ++ [table]
      registry := w.registry.insert name w.tables.length })

def clearTables (w : World Ctx) : World Ctx := { w with registry := ∅ }

/-- (name, kind, path, row count) for every registered table, name-ordered. -/
def listTables (w : World Ctx) : List (String × String × String × Option Nat) :=
  w.registry.toList.filterMap fun (name, arc) =>
    w.tables[arc]?.map fun table => (name, table.kind, table.path, table.rowCount)

/-- The shared table under a name; an `Arc` in the registry never dangles. -/
def bound (w : World Ctx) (name : String) : Option (Nat × EnrichmentTable) := do
  let data ← w.registry[name]?
  let found ← w.tables[data]?
  return (data, found)

variable [Libraries]

/-- Resolve the table name against the registry and pull out the shared arguments. -/
def compileArgs (w : World Ctx) (arguments : ArgumentList Ctx) :
    Except CompileError (CompiledArgs Ctx) × World Ctx :=
  match arguments.table with
  | .error e => (.error (.argument e), w)
  | .ok literal =>
    let table := fromUtf8Lossy literal
    match w.bound table with
    | some (data, found) =>
      let (args, found) := compileOn found data table arguments
      (args, { w with tables := w.tables.set data found })
    | none => (.error (.unknownTable ⟨table, w.registry.keys⟩), w)

/-- Compile a call; what compiles is kept as a program, by its number. -/
def compile (w : World Ctx) (fn : LookupFn) (arguments : ArgumentList Ctx) :
    Except CompileError Nat × World Ctx :=
  match w.compileArgs arguments with
  | (.error e, w) => (.error e, w)
  | (.ok args, w) => (.ok w.programs.length, { w with programs := w.programs ++ [(fn, args)] })

/-- Run a program on the table it holds. -/
def resolve (w : World Ctx) (program : Nat) (ctx : Ctx) :
    Option (Except ExpressionError Value × Ctx) := do
  let (fn, args) ← w.programs[program]?
  let found ← w.tables[args.data]?
  return (resolveOn found fn args).run.run ctx

end World

/-- What callers do with the registry and their programs. -/
inductive Op (Ctx : Type) where
  | register (files : Files) (name kind path : String) (delimiter : UInt8)
  | clear
  | compile (fn : LookupFn) (arguments : ArgumentList Ctx)
  | run (program : Nat) (ctx : Ctx)

section
variable {Ctx : Type} [Libraries]

/-- One operation; none where it runs a program that was never compiled. -/
def World.step (w : World Ctx) : Op Ctx → Option (World Ctx)
  | .register files name kind path delimiter =>
    some (w.registerTable files name kind path delimiter).2
  | .clear => some w.clearTables
  | .compile fn arguments => some (w.compile fn arguments).2
  | .run program ctx => (w.resolve program ctx).map fun _ => w

/-- The contents bound to each name after a history, as they were loaded. -/
def bindings (ops : List (Op Ctx)) : BTreeMap EnrichmentTable :=
  ops.foldl (fun bound op =>
    match op with
    | .register files name kind path delimiter =>
      match loadTable files name kind path delimiter with
      | .ok table => bound.insert name table
      | .error _ => bound
    | .clear => ∅
    | .compile _ _ | .run _ _ => bound) ∅

/-- The operation replaces or removes what is bound to a name. -/
def Op.Rebinds (name : String) : Op Ctx → Prop
  | .register files other kind path delimiter =>
    other = name ∧ ∃ table, loadTable files name kind path delimiter = .ok table
  | .clear => True
  | .compile _ _ | .run _ _ => False

/-- The last successful registration of a name since the last clear loaded this table. -/
def LastRegistered (ops : List (Op Ctx)) (name kind path : String) (table : EnrichmentTable) :
    Prop :=
  ∃ before files delimiter after, ops = before ++ .register files name kind path delimiter :: after ∧
    loadTable files name kind path delimiter = .ok table ∧ ∀ op ∈ after, ¬op.Rebinds name

/-- The same call compiled and run at once on contents nobody else uses. -/
def lookupOn (contents : EnrichmentTable) (table : String) (fn : LookupFn)
    (arguments : ArgumentList Ctx) (ctx : Ctx) : Option (Except ExpressionError Value × Ctx) :=
  match compileOn contents 0 table arguments with
  | (.ok args, contents) => some ((resolveOn contents fn args).run.run ctx)
  | (.error _, _) => none

end

end VectorVrl
