import Mathlib.Data.List.Nodup

namespace Lib.Locks

inductive LockMode where
  | read
  | write
deriving DecidableEq, Repr

/-- A lock that one writer or any number of readers hold. -/
structure RwLock (ι : Type*) where
  writer : Option ι
  readers : List ι
  exclusive : writer ≠ none → readers = []
  nodup : readers.Nodup

namespace RwLock
variable {ι : Type*}

def free : RwLock ι := ⟨none, [], fun _ => rfl, List.nodup_nil⟩

def Holds (l : RwLock ι) : LockMode → ι → Prop
  | .read, c => c ∈ l.readers
  | .write, c => l.writer = some c

variable [DecidableEq ι]

/-- Take the lock; none where that has to wait. -/
def acquire (l : RwLock ι) : LockMode → ι → Option (RwLock ι)
  | .read, c =>
    if h : l.writer = none ∧ c ∉ l.readers then
      some ⟨none, c :: l.readers, fun hne => absurd rfl hne, List.nodup_cons.mpr ⟨h.2, l.nodup⟩⟩
    else none
  | .write, c =>
    if l.writer = none ∧ l.readers = [] then some ⟨some c, [], fun _ => rfl, List.nodup_nil⟩
    else none

def release (l : RwLock ι) : LockMode → ι → RwLock ι
  | .read, c =>
    ⟨l.writer, l.readers.erase c, fun h => by rw [l.exclusive h, List.erase_nil],
      l.nodup.erase c⟩
  | .write, _ => ⟨none, l.readers, fun h => absurd rfl h, l.nodup⟩

variable {l l' : RwLock ι} {mode mode' : LockMode} {c d : ι}

omit [DecidableEq ι] in
theorem free_holds (mode : LockMode) (c : ι) : ¬(free : RwLock ι).Holds mode c := by
  cases mode <;> simp [free, Holds]

omit [DecidableEq ι] in
/-- Nobody else holds the lock while a writer does. -/
theorem write_alone (hw : l.Holds .write c) (h : l.Holds mode d) : mode = .write ∧ d = c := by
  cases mode with
  | read =>
    have hsome : l.writer ≠ none := by
      rw [show l.writer = some c from hw]
      exact Option.some_ne_none c
    rw [Holds, l.exclusive hsome] at h
    cases h
  | write =>
    rw [Holds] at hw h
    rw [hw] at h
    exact ⟨rfl, (Option.some.inj h).symm⟩

omit [DecidableEq ι] in
theorem holders_all (l : RwLock ι) (mode : LockMode) (c : ι) (h : l.Holds mode c) :
    c ∈ l.writer.toList ++ l.readers := by
  rw [List.mem_append, Option.mem_toList]
  cases mode with
  | read => exact Or.inr h
  | write => exact Or.inl h

theorem acquire_holds (h : l.acquire mode c = some l') :
    l'.Holds mode' d ↔ l.Holds mode' d ∨ mode' = mode ∧ d = c := by
  cases mode with
  | read =>
    rw [acquire] at h
    split at h
    · rename_i hfree
      cases h
      cases mode' <;> simp [Holds, hfree.1, or_comm]
    · cases h
  | write =>
    rw [acquire] at h
    split at h
    · rename_i hfree
      cases h
      cases mode' <;> simp [Holds, hfree.1, hfree.2, eq_comm]
    · cases h

theorem release_holds (h : l.Holds mode c) :
    (l.release mode c).Holds mode' d ↔ l.Holds mode' d ∧ ¬(mode' = mode ∧ d = c) := by
  cases mode with
  | read =>
    cases mode' with
    | read => simp [Holds, release, l.nodup.mem_erase_iff, and_comm]
    | write => simp [Holds, release]
  | write =>
    cases mode' with
    | read => simp [Holds, release]
    | write =>
      rw [Holds] at h
      simp [Holds, release, h, eq_comm]

/-- A lock that nobody holds can be taken. -/
theorem acquire_free (h : ∀ mode c, ¬l.Holds mode c) (mode : LockMode) (c : ι) :
    ∃ l', l.acquire mode c = some l' := by
  have hwriter : l.writer = none := by
    cases hw : l.writer with
    | none => rfl
    | some d => exact absurd hw (h .write d)
  have hreaders : l.readers = [] := List.eq_nil_iff_forall_not_mem.mpr (h .read)
  cases mode <;> simp [acquire, hwriter, hreaders]

end RwLock

end Lib.Locks
