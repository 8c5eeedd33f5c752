import VectorVrl.IndexCache
import VectorVrl.Lib.Linearize
import VectorVrl.Lib.Locks
import VectorVrl.Registry

namespace VectorVrl
open Lib.Locks Lib.Runs

/-- What threads call on the registry and on the programs compiled from it. -/
inductive RegistryCall (Ctx : Type) where
  | register (name kind path : String) (delimiter : UInt8)
  | clear
  | list
  | compile (fn : LookupFn) (arguments : ArgumentList Ctx)
  | run (program : Nat) (ctx : Ctx)

inductive RegistryAnswer (Ctx : Type) where
  | registered (result : Except String Unit)
  | cleared
  | listed (tables : List (String × String × String × Option Nat))
  | compiled (result : Except CompileError Nat)
  | ran (result : Option (Except ExpressionError Value × Ctx))

/-- How a call takes the registry's lock; a run of a program never does. -/
def RegistryCall.mode {Ctx : Type} : RegistryCall Ctx → Option LockMode
  | .register _ _ _ _ | .clear => some .write
  | .list | .compile _ _ => some .read
  | .run _ _ => none

/-- A lookup's table and arguments, as they are before its index is sought. -/
structure Located (Ctx : Type) where
  data : Nat
  table : String
  condition : BTreeMap (Expression Ctx)
  caseSensitive : Bool

def Located.key {Ctx : Type} (site : Located Ctx) : IndexKey :=
  (site.caseSensitive, site.condition.keys)

/-- The index step of a table: what `indexFor` does between two accesses to the cache. -/
def EnrichmentTable.indexStep [Libraries] (table : EnrichmentTable) (key : IndexKey)
    (phase : IndexPhase) : IndexPhase × EnrichmentTable :=
  match table, phase with
  | .geoip t, _ => (.returned none, .geoip t)
  | .file t, .waiting =>
    if !key.2.all t.hasColumn then (.returned none, .file t)
    else
      match t.cached key with
      | some index => (.returned (some index), .file t)
      | none => (.building, .file t)
  | .file t, .building => (.built (FileTable.buildIndex t.rows key), .file t)
  | .file t, .built index => (.returned (some index), .file (t.store key index))
  | .file t, .returned index => (.returned index, .file t)

namespace World
variable {Ctx : Type} [Libraries]

/-- The part of `compile_args` before the index is sought. -/
def locate (w : World Ctx) (arguments : ArgumentList Ctx) : Except CompileError (Located Ctx) :=
  match arguments.table with
  | .error e => .error (.argument e)
  | .ok literal =>
    let table := fromUtf8Lossy literal
    match w.bound table with
    | none => .error (.unknownTable ⟨table, w.registry.keys⟩)
    | some (data, _) =>
      match arguments.condition, arguments.caseSensitive with
      | .error e, _ => .error (.argument e)
      | .ok _, .error e => .error (.argument e)
      | .ok condition, .ok literal =>
        .ok ⟨data, table, condition, (literal.bind Value.asBoolean).getD true⟩

/-- A call made alone, with the file system it finds. -/
def perform (w : World Ctx) (files : Files) :
    RegistryCall Ctx → RegistryAnswer Ctx × World Ctx
  | .register name kind path delimiter =>
    let (result, w) := w.registerTable files name kind path delimiter
    (.registered result, w)
  | .clear => (.cleared, w.clearTables)
  | .list => (.listed w.listTables, w)
  | .compile fn arguments =>
    let (result, w) := w.compile fn arguments
    (.compiled result, w)
  | .run program ctx => (.ran (w.resolve program ctx), w)

end World

/-- How far a call has come. -/
inductive RegistryPhase (Ctx : Type) where
  | waiting
  | loaded (files : Files) (table : EnrichmentTable)
  | binding (files : Files) (table : EnrichmentTable)
  | locked
  | indexing (site : Located Ctx) (index : IndexPhase)
  | done (answer : RegistryAnswer Ctx)
  | returned (answer : RegistryAnswer Ctx)

namespace RegistryPhase
variable {Ctx : Type}

/-- The call has the lock of its mode. -/
def holding : RegistryPhase Ctx → Bool
  | .binding _ _ | .locked | .indexing _ _ | .done _ => true
  | .waiting | .loaded _ _ | .returned _ => false

/-- The answer the call is bound to give. -/
def answer : RegistryPhase Ctx → Option (RegistryAnswer Ctx)
  | .done answer | .returned answer => some answer
  | _ => none

/-- The file system a registration has loaded its table from. -/
def files : RegistryPhase Ctx → Option Files
  | .loaded files _ | .binding files _ => some files
  | _ => none

end RegistryPhase

/-- The registry with its lock, shared between threads, and every call ever made on it. -/
structure SharedRegistry (Ctx : Type) where
  world : World Ctx
  lock : RwLock Nat
  phase : Nat → RegistryPhase Ctx

/-- The next step of a call, with the file system as it is then. -/
structure RegistryAct where
  call : Nat
  files : Files

namespace SharedRegistry
variable {Ctx : Type}

def start : SharedRegistry Ctx := ⟨.start, .free, fun _ => .waiting⟩

def setPhase (s : SharedRegistry Ctx) (c : Nat) (phase : RegistryPhase Ctx) :
    SharedRegistry Ctx :=
  { s with phase := fun other => if other = c then phase else s.phase other }

/-- Go on once the lock is taken. -/
def take (s : SharedRegistry Ctx) (c : Nat) (mode : LockMode) (phase : RegistryPhase Ctx) :
    Option (SharedRegistry Ctx) :=
  (s.lock.acquire mode c).map fun lock => { s with lock }.setPhase c phase

variable [Libraries]

/-- One step of one thread; none where the call has to wait or is over. A cache's
mutex is held for a step at most, so it has no state of its own. -/
def step (calls : Nat → RegistryCall Ctx) (s : SharedRegistry Ctx) (act : RegistryAct) :
    Option (SharedRegistry Ctx) :=
  let c := act.call
  match s.phase c, calls c with
  -- the file is read before the lock is asked for
  | .waiting, .register name kind path delimiter =>
    match loadTable act.files name kind path delimiter with
    | .error e => some (s.setPhase c (.returned (.registered (.error e))))
    | .ok table => some (s.setPhase c (.loaded act.files table))
  | .loaded files table, .register _ _ _ _ => s.take c .write (.binding files table)
  | .binding _ table, .register name _ _ _ =>
    some ({ s with world := { s.world with
      tables := s.world.tables ++ [table]
      registry := s.world.registry.insert name s.world.tables.length } }.setPhase c
        (.done (.registered (.ok ()))))
  | .waiting, .clear => s.take c .write .locked
  | .locked, .clear =>
    some ({ s with world := s.world.clearTables }.setPhase c (.done .cleared))
  | .waiting, .list => s.take c .read .locked
  | .locked, .list => some (s.setPhase c (.done (.listed s.world.listTables)))
  | .waiting, .compile _ _ => s.take c .read .locked
  | .locked, .compile _ arguments =>
    match s.world.locate arguments with
    | .error e => some (s.setPhase c (.done (.compiled (.error e))))
    | .ok site => some (s.setPhase c (.indexing site .waiting))
  -- the lock is kept while the index is sought, built and stored
  | .indexing site (.returned index), .compile fn arguments =>
    let args := ⟨site.table, site.data, index, site.condition, arguments.select, site.caseSensitive⟩
    some ({ s with world := { s.world with
      programs := s.world.programs ++ [(fn, args)] } }.setPhase c
        (.done (.compiled (.ok s.world.programs.length))))
  | .indexing site index, .compile _ _ =>
    s.world.tables[site.data]?.map fun found =>
      let (index, found) := found.indexStep site.key index
      { s with world := { s.world with
        tables := s.world.tables.set site.data found } }.setPhase c (.indexing site index)
  | .waiting, .run program ctx =>
    some (s.setPhase c (.returned (.ran (s.world.resolve program ctx))))
  | .done answer, call =>
    call.mode.map fun mode =>
      { s with lock := s.lock.release mode c }.setPhase c (.returned answer)
  | _, _ => none

/-- A call takes effect with the step that fixes its answer, on the files it found. -/
def effect (calls : Nat → RegistryCall Ctx) (s : SharedRegistry Ctx) (act : RegistryAct) :
    Option (Nat × Files) :=
  if (s.phase act.call).answer.isNone then
    ((s.step calls act).bind fun t => (t.phase act.call).answer).map fun _ =>
      (act.call, (s.phase act.call).files.getD act.files)
  else none

def shared (calls : Nat → RegistryCall Ctx) :
    Lib.Linearize.Shared (SharedRegistry Ctx) RegistryAct Files (RegistryAnswer Ctx) where
  step := step calls
  effect := effect calls
  started s c := s.phase c ≠ .waiting
  bound s c := (s.phase c).answer

/-- The first step of a call, which for a registration is the one that reads its file. -/
def FirstStep (calls : Nat → RegistryCall Ctx) (trace : List RegistryAct) (act : RegistryAct) :
    Prop :=
  ∃ before after s, trace = before ++ act :: after ∧
    exec (step calls) start before = some s ∧ s.phase act.call = .waiting

/-- The step looks the table of a compiling call up. -/
def LooksUp (calls : Nat → RegistryCall Ctx) (s : SharedRegistry Ctx) (act : RegistryAct) : Prop :=
  s.phase act.call = .locked ∧ ∃ fn arguments, calls act.call = .compile fn arguments

/-- The step changes what a name is bound to: it binds a table to it, or clears the registry. -/
def Rebinds (calls : Nat → RegistryCall Ctx) (s : SharedRegistry Ctx) (act : RegistryAct)
    (name : String) : Prop :=
  (∃ files table kind path delimiter, s.phase act.call = .binding files table ∧
      calls act.call = .register name kind path delimiter) ∨
    s.phase act.call = .locked ∧ calls act.call = .clear

/-- No step of a run changes what a name is bound to. -/
def Unrebound (calls : Nat → RegistryCall Ctx) (name : String) :
    SharedRegistry Ctx → List RegistryAct → Prop
  | _, [] => True
  | s, act :: rest => ¬Rebinds calls s act name ∧
      ∀ t, s.step calls act = some t → Unrebound calls name t rest

/-- A compiling call has made a program that holds this table under this name. -/
def HoldsTable (s : SharedRegistry Ctx) (c : Nat) (name : String) (data : Nat) : Prop :=
  ∃ program fn args, (s.phase c).answer = some (.compiled (.ok program)) ∧
    s.world.programs[program]? = some (fn, args) ∧ args.table = name ∧ args.data = data

/-- A compiling call's answer is what its arguments come to in a world. -/
def AnswersIn (s : SharedRegistry Ctx) (c : Nat) (fn : LookupFn) (arguments : ArgumentList Ctx)
    (w : World Ctx) : Prop :=
  match w.locate arguments with
  | .error e => (s.phase c).answer = some (.compiled (.error e))
  | .ok site => ∃ program index, (s.phase c).answer = some (.compiled (.ok program)) ∧
      s.world.programs[program]? = some (fn,
        ⟨site.table, site.data, index, site.condition, arguments.select, site.caseSensitive⟩)

end SharedRegistry

end VectorVrl
