/-
The producer and the consumer of `Chapter 7/posix_semaphore_example.c`.

Two threads produce and consume one resource.  A flag says whether there is one, and a
semaphore is meant to let only one of the threads look at it at a time: `main` initialises
it to 1, but the consumer posts it once before its loop, and each thread once after it.
The threads end their loops by a common counter that both of them increment.

Nothing but the semaphore is atomic.  Every `++` and `--` is a load and a later store, and
the test of the flag and the store to it are apart as well.
-/
import LinuxSystems.Machine.Run
import Mathlib.Logic.Function.Basic

namespace LinuxSystems

namespace PosixSem

inductive Role where
  | producer
  | consumer
  deriving DecidableEq

namespace Role

def other : Role → Role
  | .producer => .consumer
  | .consumer => .producer

/-- The condition of the thread's loop, for the value that `counter++` has. -/
def goes (countLimit : Int) (v : BitVec 16) : Role → Bool
  | .producer => decide ((v.toNat : Int) < countLimit)
  | .consumer => decide ((v.toNat : Int) ≤ countLimit)

/-- The flag that lets the thread into its block. -/
def expects : Role → BitVec 8
  | .producer => 0
  | .consumer => 1

/-- The flag that the thread leaves behind there. -/
def leaves : Role → BitVec 8
  | .producer => 1
  | .consumer => 0

/-- What the thread does to `shared_resource`: `++` or `--`. -/
def update (v : BitVec 32) : Role → BitVec 32
  | .producer => v + 1
  | .consumer => v - 1

end Role

inductive Site where
  /-- At the consumer's `sem_post` before its loop. -/
  | entryPost
  /-- At the load of `counter`. -/
  | loadCounter
  /-- At its store and the test, with the value loaded. -/
  | storeCounter (v : BitVec 16)
  | wait
  /-- At "Producing... " or "Consuming... ". -/
  | announce
  /-- At the test of `full_flag`. -/
  | testFlag
  /-- At the load of `shared_resource`. -/
  | load
  /-- At its store, with the value loaded. -/
  | store (v : BitVec 32)
  /-- At the line with the new value. -/
  | report (v : BitVec 32)
  | setFlag
  | post
  /-- At `sched_yield`. -/
  | yield
  /-- At the `sem_post` after the loop. -/
  | finalPost
  | exited
  deriving DecidableEq

/-- What is printed. -/
inductive Line where
  | announce (r : Role)
  | value (v : BitVec 32)
  deriving DecidableEq

/-- Where a thread starts. -/
def Role.entry : Role → Site
  | .producer => .loadCounter
  | .consumer => .entryPost

/-- There is a next step, where the semaphore has the value `n`. -/
def Site.Passable (n : Nat) : Site → Prop
  | .wait => 0 < n
  | .exited => False
  | .entryPost | .loadCounter | .storeCounter _ | .announce | .testFlag | .load | .store _
  | .report _ | .setFlag | .post | .yield | .finalPost => True

instance (n : Nat) : ∀ x : Site, Decidable (x.Passable n)
  | .wait => inferInstanceAs (Decidable (0 < n))
  | .exited => isFalse id
  | .entryPost | .loadCounter | .storeCounter _ | .announce | .testFlag | .load | .store _
  | .report _ | .setFlag | .post | .yield | .finalPost => isTrue trivial

end PosixSem

open PosixSem

structure PosixSem where
  sem : Nat
  sharedResource : BitVec 32
  fullFlag : BitVec 8
  counter : BitVec 16
  site : Role → Site
  output : List Line

namespace PosixSem

def enabled (s : PosixSem) (r : Role) : Prop := (s.site r).Passable s.sem

instance (s : PosixSem) (r : Role) : Decidable (s.enabled r) :=
  inferInstanceAs (Decidable ((s.site r).Passable s.sem))

def goto (s : PosixSem) (r : Role) (x : Site) : PosixSem :=
  { s with site := Function.update s.site r x }

/-- The next step of a thread. -/
def step (countLimit : Int) (s : PosixSem) (r : Role) : PosixSem :=
  match s.site r with
  | .entryPost => { s.goto r .loadCounter with sem := s.sem + 1 }
  | .loadCounter => s.goto r (.storeCounter s.counter)
  | .storeCounter v =>
      { s.goto r (if r.goes countLimit v then .wait else .finalPost) with counter := v + 1 }
  | .wait => { s.goto r .announce with sem := s.sem - 1 }
  | .announce => { s.goto r .testFlag with output := s.output ++ [.announce r] }
  | .testFlag => s.goto r (if s.fullFlag = r.expects then .load else .post)
  | .load => s.goto r (.store s.sharedResource)
  | .store v => { s.goto r (.report (r.update v)) with sharedResource := r.update v }
  | .report v => { s.goto r .setFlag with output := s.output ++ [.value v] }
  | .setFlag => { s.goto r .post with fullFlag := r.leaves }
  | .post => { s.goto r .yield with sem := s.sem + 1 }
  | .yield => s.goto r .loadCounter
  | .finalPost => { s.goto r .exited with sem := s.sem + 1 }
  | .exited => s

/-- Both threads at their start, and the semaphore with the given value. -/
def machineFrom (value : Nat) (countLimit : Int) : Machine PosixSem Role where
  init := {
    sem := value
    sharedResource := 0
    fullFlag := 0
    counter := 0
    site := Role.entry
    output := [] }
  enabled := enabled
  next := step countLimit

/-- The threads after the `sem_init` of `main`. -/
abbrev machine (countLimit : Int) : Machine PosixSem Role := machineFrom 1 countLimit

instance (value : Nat) (countLimit : Int) (s : PosixSem) (r : Role) :
    Decidable ((machineFrom value countLimit).enabled s r) :=
  inferInstanceAs (Decidable (s.enabled r))

end PosixSem

end LinuxSystems
