/-
Successive runs of `Chapter 7/shm_example.cpp`.

`main` opens two named semaphores, posts the first one and forks.  The parent makes a
region, fills it and posts `sem_cons`; the child opens the region, waits for `sem_cons` and
copies.  Every call that the source checks may fail, which ends the process that made it,
and the child cannot open a region that does not exist.  `main` removes the semaphores
after `process_creator`, but that ends the process on each of its ways.

What the name of the region stands for changes.  The parent that removes the name leaves the region
to whoever has it open, and the next parent makes another.  A region is empty until a parent has
given it its size; a child that copies from an empty one is killed by `SIGBUS`.

A run is started when the parents of all runs before it have ended.  Their children may
still be there, since a parent that throws does not wait for its child.
-/
import LinuxSystems.Machine.Run
import LinuxSystems.Posix.Semaphore
import Mathlib.Logic.Function.Basic

namespace LinuxSystems

namespace ShmExample

inductive ParentSite where
  /-- The run is not started. -/
  | idle
  /-- At `sem_open` of `SEM_PROD_ID`. -/
  | semOpenProd
  /-- At `sem_open` of `SEM_CONS_ID`. -/
  | semOpenCons
  /-- At `sem_post(sem_prod)`. -/
  | semPostProd
  | fork
  | shmOpen
  | ftruncate
  | mmap
  /-- At `sem_wait(sem_prod)`. -/
  | semWaitProd
  /-- At the `memcpy` of `produced_data`. -/
  | memcpy
  /-- At `sem_post(sem_cons)`. -/
  | semPostCons
  | waitpid
  | munmap
  | shmUnlink
  /-- At `sem_unlink` of `SEM_PROD_ID`, after `process_creator`. -/
  | semUnlinkProd
  /-- At `sem_unlink` of `SEM_CONS_ID`. -/
  | semUnlinkCons
  | exited
  | threw
  deriving DecidableEq

inductive ChildSite where
  /-- The parent has not forked. -/
  | unborn
  | shmOpen
  | mmap
  /-- At `sem_wait(sem_cons)`. -/
  | semWaitCons
  /-- At the `memcpy` from the region. -/
  | memcpy
  /-- At `sem_post(sem_prod)`. -/
  | semPostProd
  | exited
  | threw
  /-- By the `SIGBUS` of its `memcpy`. -/
  | killed
  deriving DecidableEq

def ParentSite.hasEnded : ParentSite → Bool
  | .exited | .threw => true
  | _ => false

def ChildSite.hasEnded : ChildSite → Bool
  | .exited | .threw | .killed => true
  | _ => false

/-- The child is alive and has not come past its `sem_wait`. -/
def ChildSite.isEarly : ChildSite → Bool
  | .shmOpen | .mmap | .semWaitCons => true
  | _ => false

structure Run where
  parent : ParentSite
  child : ChildSite
  /-- The parent's `ftruncate` was successful. -/
  truncated : Bool
  /-- The parent's `memcpy` is done. -/
  filled : Bool
  /-- The region that the parent has opened. -/
  parentRegion : Nat
  /-- The region that the child has opened. -/
  childRegion : Nat

/-- Before the start. -/
@[simp] def Run.idle : Run := ⟨.idle, .unborn, false, false, 0, 0⟩

end ShmExample

open ShmExample

/-- The two names, the region's name, and all runs. -/
structure ShmExample where
  semProd : Semaphore
  semCons : Semaphore
  /-- There is a region `SHM_ID`. -/
  region : Bool
  /-- The region that the name stands for, or will stand for next. -/
  current : Nat
  /-- The regions that have their size. -/
  sized : Nat → Bool
  /-- How many runs were started. -/
  count : Nat
  runs : Nat → Run

namespace ShmExample

/-- `ok` tells whether the call is successful. -/
inductive Action where
  | start
  | parent (r : Nat) (ok : Bool)
  | child (r : Nat) (ok : Bool)
  deriving DecidableEq

def parentEnabled (s : ShmExample) (r : Nat) (ok : Bool) : Bool :=
  match (s.runs r).parent with
  | .fork | .shmOpen | .ftruncate | .mmap | .munmap => true
  | .shmUnlink => !ok || s.region
  | .semWaitProd => ok && decide (0 < s.semProd.value)
  | .waitpid => ok && (s.runs r).child.hasEnded
  | .semOpenProd | .semOpenCons | .semPostProd | .memcpy | .semPostCons | .semUnlinkProd
  | .semUnlinkCons => ok
  | .idle | .exited | .threw => false

def childEnabled (s : ShmExample) (r : Nat) (ok : Bool) : Bool :=
  match (s.runs r).child with
  | .shmOpen => !ok || s.region
  | .mmap => true
  | .semWaitCons => ok && decide (0 < s.semCons.value)
  | .memcpy | .semPostProd => ok
  | .unborn | .exited | .threw | .killed => false

def enabled (s : ShmExample) : Action → Prop
  | .start => ∀ r, r < s.count → (s.runs r).parent.hasEnded = true
  | .parent r ok => s.parentEnabled r ok = true
  | .child r ok => s.childEnabled r ok = true

def setRun (s : ShmExample) (r : Nat) (run : Run) : ShmExample :=
  { s with runs := Function.update s.runs r run }

/-- The parent of run `r` goes on to `p`. -/
def setParent (s : ShmExample) (r : Nat) (p : ParentSite) : ShmExample :=
  s.setRun r { s.runs r with parent := p }

/-- The child of run `r` goes on to `c`. -/
def setChild (s : ShmExample) (r : Nat) (c : ChildSite) : ShmExample :=
  s.setRun r { s.runs r with child := c }

def parentStep (s : ShmExample) (r : Nat) (ok : Bool) : ShmExample :=
  match (s.runs r).parent with
  | .semOpenProd => { s.setParent r .semOpenCons with semProd := s.semProd.semOpen 0 }
  | .semOpenCons => { s.setParent r .semPostProd with semCons := s.semCons.semOpen 0 }
  | .semPostProd => { s.setParent r .fork with semProd := s.semProd.semPost }
  | .fork =>
      if ok then s.setRun r { s.runs r with parent := .shmOpen, child := .shmOpen }
      else s.setParent r .threw
  | .shmOpen =>
      if ok then
        { s.setRun r { s.runs r with parent := .ftruncate, parentRegion := s.current } with
          region := true }
      else s.setParent r .threw
  | .ftruncate =>
      if ok then
        { s.setRun r { s.runs r with parent := .mmap, truncated := true } with
          sized := Function.update s.sized (s.runs r).parentRegion true }
      else s.setParent r .threw
  | .mmap => s.setParent r (if ok then .semWaitProd else .threw)
  | .semWaitProd => { s.setParent r .memcpy with semProd := s.semProd.semWait }
  | .memcpy => s.setRun r { s.runs r with parent := .semPostCons, filled := true }
  | .semPostCons => { s.setParent r .waitpid with semCons := s.semCons.semPost }
  | .waitpid => s.setParent r .munmap
  | .munmap => s.setParent r (if ok then .shmUnlink else .threw)
  -- `exit(EXIT_SUCCESS)` and not a return
  | .shmUnlink =>
      if ok then { s.setParent r .exited with region := false, current := s.current + 1 }
      else s.setParent r .threw
  | .semUnlinkProd => { s.setParent r .semUnlinkCons with semProd := s.semProd.semUnlink }
  | .semUnlinkCons => { s.setParent r .exited with semCons := s.semCons.semUnlink }
  | .idle | .exited | .threw => s

def childStep (s : ShmExample) (r : Nat) (ok : Bool) : ShmExample :=
  match (s.runs r).child with
  | .shmOpen =>
      if ok then s.setRun r { s.runs r with child := .mmap, childRegion := s.current }
      else s.setChild r .threw
  | .mmap => s.setChild r (if ok then .semWaitCons else .threw)
  | .semWaitCons => { s.setChild r .memcpy with semCons := s.semCons.semWait }
  -- what is behind the end of the region cannot be read
  | .memcpy => s.setChild r (if s.sized (s.runs r).childRegion then .semPostProd else .killed)
  | .semPostProd => { s.setChild r .exited with semProd := s.semProd.semPost }
  | .unborn | .exited | .threw | .killed => s

def step (s : ShmExample) : Action → ShmExample
  | .start => { s.setParent s.count .semOpenProd with count := s.count + 1 }
  | .parent r ok => s.parentStep r ok
  | .child r ok => s.childStep r ok

/-- Before the first run, with neither semaphore and no region. -/
def machine : Machine ShmExample Action where
  init := ⟨⟨none⟩, ⟨none⟩, false, 0, fun _ => false, 0, fun _ => .idle⟩
  enabled := enabled
  next := step

instance (s : ShmExample) : ∀ a, Decidable (s.enabled a)
  | .start => inferInstanceAs (Decidable (∀ r, r < s.count → (s.runs r).parent.hasEnded = true))
  | .parent r ok => inferInstanceAs (Decidable (s.parentEnabled r ok = true))
  | .child r ok => inferInstanceAs (Decidable (s.childEnabled r ok = true))

instance (s : ShmExample) (a : Action) : Decidable (machine.enabled s a) :=
  inferInstanceAs (Decidable (s.enabled a))

/-! ### The run that takes a step -/

variable {s : ShmExample} {r q : Nat}

@[simp] theorem setRun_self (s : ShmExample) (r : Nat) (run : Run) :
    (s.setRun r run).runs r = run := Function.update_self ..

theorem setRun_of_ne (h : q ≠ r) (s : ShmExample) (run : Run) :
    (s.setRun r run).runs q = s.runs q := Function.update_of_ne h ..

end ShmExample

end LinuxSystems
