import VectorVrl.Enrichment
import VectorVrl.Lib.Runs

namespace VectorVrl

/-- How far an `index_for` call has come. -/
inductive IndexPhase where
  | waiting
  | building
  | built (index : RowIndex)
  | returned (result : Option RowIndex)

/-- A table shared between threads, with every `index_for` call ever made on it. -/
structure SharedTable where
  table : FileTable
  phase : Nat → IndexPhase

/-- The steps threads take. `poison` is a panic of a thread that holds the lock,
which leaves the map as it is. -/
inductive IndexAct where
  | lookUp (call : Nat)
  | build (call : Nat)
  | insert (call : Nat)
  | poison
deriving DecidableEq

/-- The call whose step it is. -/
def IndexAct.call : IndexAct → Option Nat
  | .lookUp c | .build c | .insert c => some c
  | .poison => none

namespace SharedTable

/-- A table as loading leaves it, before any call. -/
def start (t : FileTable) : SharedTable := ⟨{ t with indexes := ⟨false, ∅⟩ }, fun _ => .waiting⟩

def setPhase (s : SharedTable) (call : Nat) (phase : IndexPhase) : SharedTable :=
  { s with phase := fun other => if other = call then phase else s.phase other }

variable [Libraries]

/-- One step of one thread; none where the step is not its next. -/
def step (calls : Nat → IndexKey) (s : SharedTable) : IndexAct → Option SharedTable
  | .lookUp c =>
    match s.phase c with
    | .waiting =>
      if !(calls c).2.all s.table.hasColumn then some (s.setPhase c (.returned none))
      else
        match s.table.cached (calls c) with
        | some index => some (s.setPhase c (.returned (some index)))
        | none => some (s.setPhase c .building)
    | _ => none
  | .build c =>
    match s.phase c with
    | .building => some (s.setPhase c (.built (FileTable.buildIndex s.table.rows (calls c))))
    | _ => none
  | .insert c =>
    match s.phase c with
    | .built index =>
      some ({ s with table := s.table.store (calls c) index }.setPhase c (.returned (some index)))
    | _ => none
  | .poison =>
    some { s with table := { s.table with indexes := { s.table.indexes with poisoned := true } } }

end SharedTable

/-- The call is made in a history. -/
def Made (trace : List IndexAct) (call : Nat) : Prop := .lookUp call ∈ trace

end VectorVrl
