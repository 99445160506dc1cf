/-
What the runs leave in the semaphores.

Where nobody can go on, each run has posted `sem_prod` in `main`, and what was taken since was
posted again.  One post is lost with each child that copies from a region that has no size yet: it
is killed with what it has taken.
-/
import LinuxSystems.ShmExample.Finish

namespace LinuxSystems.ShmExample

variable {s : ShmExample} {r : Nat}

/-! ### A run at rest -/

/-- How many parents have filled the region. -/
def produced (s : ShmExample) : Nat := s.total fun run => run.filled.toNat

/-- How many children have come to their `exit`. -/
def consumed (s : ShmExample) : Nat := s.total fun run => (run.child = .exited : Bool).toNat

/-- How many children were killed at their `memcpy`. -/
def killed (s : ShmExample) : Nat := s.total fun run => (run.child = .killed : Bool).toNat

/-- The second child copies too early: it is killed, and posts nothing. -/
example :
    let s := machine.after machine.init (deadChild 0 ++ opening 1 ++
      List.replicate 4 (.child 1 true) ++ List.replicate 8 (.parent 1 true))
    s.semProd.value = 0 ∧ s.semCons.value = 1 ∧ s.killed = 1 := by decide +kernel

end LinuxSystems.ShmExample
