import Mathlib.Logic.Function.Basic
import Mathlib.Data.List.Basic

/-!
# Files under a name

The files that were ever there under one name, each with what is in it and the process
that has it locked for writing. A file that is removed loses the name; the processes that
have it open keep it, with its lock.

Locks are advisory: `setlk` grants a lock that nobody else has, and nothing else looks at
them.
-/

namespace JobProvenance

/-- The files there ever were under a name, numbered as they were made, and the one that
    is there now. -/
structure NamedFile (α : Type*) where
  contents : ℕ → List α
  lock : ℕ → Option ℕ
  current : Option ℕ
  next : ℕ

namespace NamedFile

variable {α : Type*}

/-- No file yet. -/
def empty : NamedFile α where
  contents _ := []
  lock _ := none
  current := none
  next := 0

/-- The file of the name when it is opened for appending; it is made when there is none. -/
def openAppend (n : NamedFile α) : ℕ × NamedFile α :=
  match n.current with
  | some file => (file, n)
  | none => (n.next, {
      contents := Function.update n.contents n.next []
      lock := Function.update n.lock n.next none
      current := some n.next
      next := n.next + 1 })

/-- The lock of a file is given to a process, or back. -/
def setLock (n : NamedFile α) (file : ℕ) (lock : Option ℕ) : NamedFile α :=
  { n with lock := Function.update n.lock file lock }

/-- A process locks a file, unless another one has it locked. -/
def setlk (n : NamedFile α) (process file : ℕ) : Option (NamedFile α) :=
  if n.lock file = none ∨ n.lock file = some process then some (n.setLock file (some process))
  else none

/-- Writes at the end of a file. -/
def append (n : NamedFile α) (file : ℕ) (xs : List α) : NamedFile α :=
  { n with contents := Function.update n.contents file (n.contents file ++ xs) }

/-- The file loses the name. -/
def remove (n : NamedFile α) : NamedFile α := { n with current := none }

/-- What a file under the name contains, if there is one. -/
def named (n : NamedFile α) : List α := n.current.elim [] n.contents

variable {n m : NamedFile α} {process file other : ℕ} {xs : List α} {lock : Option ℕ}

@[simp] theorem setLock_contents : (n.setLock file lock).contents = n.contents := rfl
@[simp] theorem setLock_current : (n.setLock file lock).current = n.current := rfl
@[simp] theorem setLock_next : (n.setLock file lock).next = n.next := rfl

@[simp] theorem setLock_lock_self : (n.setLock file lock).lock file = lock :=
  Function.update_self ..

@[simp] theorem setLock_lock_of_ne (h : other ≠ file) :
    (n.setLock file lock).lock other = n.lock other :=
  Function.update_of_ne h ..

theorem setLock_eq_self (h : n.lock file = lock) : n.setLock file lock = n := by
  rw [setLock, ← h, Function.update_eq_self]

@[simp] theorem append_lock : (n.append file xs).lock = n.lock := rfl
@[simp] theorem append_current : (n.append file xs).current = n.current := rfl
@[simp] theorem append_next : (n.append file xs).next = n.next := rfl

@[simp] theorem append_contents_self :
    (n.append file xs).contents file = n.contents file ++ xs :=
  Function.update_self ..

@[simp] theorem append_contents_of_ne (h : other ≠ file) :
    (n.append file xs).contents other = n.contents other :=
  Function.update_of_ne h ..

theorem append_nil (n : NamedFile α) (file : ℕ) : n.append file [] = n := by
  rw [append, List.append_nil, Function.update_eq_self]

/-- What opening does: the file is there, or it is made and is a new one. -/
theorem openAppend_cases (n : NamedFile α) :
    (n.current = some n.openAppend.1 ∧ n.openAppend.2 = n) ∨
    (n.current = none ∧ n.openAppend.1 = n.next ∧ n.openAppend.2 = {
      contents := Function.update n.contents n.next []
      lock := Function.update n.lock n.next none
      current := some n.next
      next := n.next + 1 }) := by
  unfold openAppend
  split
  · exact .inl ⟨by assumption, rfl⟩
  · exact .inr ⟨by assumption, rfl, rfl⟩

theorem setlk_eq_some : n.setlk process file = some m ↔
    (n.lock file = none ∨ n.lock file = some process) ∧ m = n.setLock file (some process) := by
  rw [setlk, Option.ite_none_right_eq_some]
  exact and_congr_right fun _ => by rw [Option.some_inj, eq_comm]

end NamedFile

end JobProvenance
