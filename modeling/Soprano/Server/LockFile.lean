import Mathlib

/-! `LockFile`: a descriptor with a record lock of the process on one file.  The number of the descriptor
is kept when the lock is refused, so that it can be closed again when it is another one's. -/

namespace Soprano

/-- What a descriptor of the process was opened for. -/
inductive Descriptor where
  | lockFile
  | other
deriving DecidableEq

/-- Who has the record lock on the file: this process, or the process of that id. -/
inductive Holder where
  | us
  | other (pid : Nat)
deriving DecidableEq

/-- The open descriptors of the process and the lock on the file of its `LockFile`. -/
structure Descriptors where
  descriptors : Nat → Option Descriptor
  holder : Option Holder

namespace Descriptors

/-- `close`: the process loses its record lock with any descriptor for the file. -/
def close (os : Descriptors) (fd : Nat) : Descriptors where
  descriptors := Function.update os.descriptors fd none
  holder := if os.descriptors fd = some .lockFile ∧ os.holder = some .us then none else os.holder

/-- A descriptor for the file. -/
def opened (os : Descriptors) (fd : Nat) : Descriptors :=
  { os with descriptors := Function.update os.descriptors fd (some .lockFile) }

@[simp] theorem close_self (os : Descriptors) (fd : Nat) : (os.close fd).descriptors fd = none := by
  simp [close]

theorem close_of_ne {os : Descriptors} {fd n : Nat} (h : n ≠ fd) :
    (os.close fd).descriptors n = os.descriptors n := by
  simp [close, h]

@[simp] theorem opened_self (os : Descriptors) (fd : Nat) :
    (os.opened fd).descriptors fd = some .lockFile := by
  simp [opened]

theorem opened_of_ne {os : Descriptors} {fd n : Nat} (h : n ≠ fd) :
    (os.opened fd).descriptors n = os.descriptors n := by
  simp [opened, h]

end Descriptors

/-- `LockFile::Private`; no number is -1. -/
structure LockFile where
  fd : Option Nat
deriving DecidableEq

namespace LockFile

variable (d : LockFile) (os : Descriptors)

/-- `releaseLock`: the descriptor 0 is not closed. -/
def releaseLock : LockFile × Descriptors :=
  match d.fd with
  | some fd => (⟨none⟩, if 0 < fd then os.close fd else os)
  | none => (⟨none⟩, os)

/-- `aquireLock`, where `file` is what `open` returns. The result is whether the lock was taken and the id
that is left in `owningPid`. -/
def aquireLock (file : Option Nat) : (Bool × Nat) × LockFile × Descriptors :=
  let os := (d.releaseLock os).2
  match file with
  | none => ((false, 0), ⟨none⟩, os)
  | some fd =>
    match os.holder with
    | some (.other pid) => ((false, pid), ⟨some fd⟩, (os.opened fd).close fd)
    | _ => ((true, 0), ⟨some fd⟩, { os.opened fd with holder := some .us })

/-- What `open` returns is a descriptor that is not open. -/
def Opens (file : Option Nat) : Prop := ∀ fd ∈ file, (d.releaseLock os).2.descriptors fd = none

instance (file : Option Nat) : Decidable (d.Opens os file) :=
  match file with
  | none => .isTrue fun _ h => by cases h
  | some fd => decidable_of_iff ((d.releaseLock os).2.descriptors fd = none)
      ⟨fun h _ hMem => Option.some.inj hMem ▸ h, fun h => h fd rfl⟩

variable {d os}

@[simp] theorem fd_releaseLock : (d.releaseLock os).1.fd = none := by
  unfold releaseLock
  split <;> rfl

/-- Other numbers are as they were. -/
theorem releaseLock_of_ne {n : Nat} (h : d.fd ≠ some n) :
    (d.releaseLock os).2.descriptors n = os.descriptors n := by
  unfold releaseLock
  split
  · rename_i fd hFd
    split
    · exact Descriptors.close_of_ne fun hEq => h (hEq ▸ hFd)
    · rfl
  · rfl

theorem releaseLock_self {n : Nat} (h : d.fd = some n) (hPos : 0 < n) :
    (d.releaseLock os).2 = os.close n := by
  simp only [releaseLock, h, if_pos hPos]

theorem holder_releaseLock {pid : Nat} :
    (d.releaseLock os).2.holder = some (.other pid) ↔ os.holder = some (.other pid) := by
  unfold releaseLock
  split
  · split
    · simp only [Descriptors.close]
      split
      · rename_i hOurs
        simp [hOurs.2]
      · rfl
    · rfl
  · rfl

/-- The ways in which `aquireLock` ends: the file is not opened, another process has the lock, or it is
taken. -/
theorem aquireLock_cases (d : LockFile) (os : Descriptors) (file : Option Nat) :
    (file = none ∧ d.aquireLock os file = ((false, 0), ⟨none⟩, (d.releaseLock os).2)) ∨
      (∃ fd pid, file = some fd ∧ os.holder = some (.other pid) ∧ d.aquireLock os file =
        ((false, pid), ⟨some fd⟩, ((d.releaseLock os).2.opened fd).close fd)) ∨
      ∃ fd, file = some fd ∧ (∀ pid, os.holder ≠ some (.other pid)) ∧ d.aquireLock os file =
        ((true, 0), ⟨some fd⟩, { (d.releaseLock os).2.opened fd with holder := some .us }) := by
  cases file with
  | none => exact .inl ⟨rfl, rfl⟩
  | some fd =>
    right
    simp only [aquireLock]
    split
    · rename_i pid hHolder
      exact .inl ⟨fd, pid, rfl, holder_releaseLock.mp hHolder, rfl⟩
    · rename_i hHolder
      exact .inr ⟨fd, rfl, fun pid hOther => hHolder pid (holder_releaseLock.mpr hOther), rfl⟩

end LockFile

end Soprano
