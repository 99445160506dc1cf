/-
Named semaphores.

A name stands for a semaphore that the system keeps, or for none.  `sem_open` with
`O_CREAT` makes one with the given value, but leaves one that exists as it is, whoever
used it before; only `sem_unlink` removes it.
-/

namespace LinuxSystems

/-- What a name stands for: a semaphore and its value, or nothing. -/
structure Semaphore where
  semaphore : Option Nat
  deriving DecidableEq

namespace Semaphore

/-- How often `sem_wait` would return at once. -/
def value (s : Semaphore) : Nat := s.semaphore.getD 0

/-- `sem_open` with `O_CREAT`. -/
def semOpen (value : Nat) (s : Semaphore) : Semaphore := ⟨some (s.semaphore.getD value)⟩

def semPost (s : Semaphore) : Semaphore := ⟨some (s.value + 1)⟩

/-- `sem_wait`, where the value is positive. -/
def semWait (s : Semaphore) : Semaphore := ⟨some (s.value - 1)⟩

def semUnlink (_ : Semaphore) : Semaphore := ⟨none⟩

/-- A semaphore that is opened with zero keeps the value that its name stood for. -/
@[simp] theorem value_semOpen_zero (s : Semaphore) : (s.semOpen 0).value = s.value := rfl

@[simp] theorem value_semPost (s : Semaphore) : s.semPost.value = s.value + 1 := rfl

@[simp] theorem value_semWait (s : Semaphore) : s.semWait.value = s.value - 1 := rfl

end Semaphore

end LinuxSystems
