/-
The two threads of `Chapter 7/cpp_atomic_flags.cpp`.

`increment` waits until `condFlag` is clear, sets it, increments `shared_resource` and
notifies; `decrement` waits until it is set, clears it, decrements and notifies.  `main`
has set the flag when they start.  A `wait` that finds the flag as it was told puts the
thread to sleep at the same moment; a notification, or nothing at all, wakes it up, and it
looks again.

Every atomic operation and every line of output is a step, and which thread takes the next
one is up to the scheduler.
-/
import LinuxSystems.Machine.Run
import Mathlib.Logic.Function.Basic

namespace LinuxSystems

namespace AtomicFlags

inductive Role where
  | increment
  | decrement
  deriving DecidableEq

namespace Role

def other : Role → Role
  | .increment => .decrement
  | .decrement => .increment

/-- The value that the thread waits to be changed, which is the one that it gives the flag:
`wait(true)` and `test_and_set()`, or `wait(false)` and `clear()`. -/
def flag : Role → Bool
  | .increment => true
  | .decrement => false

/-- What the thread does to `shared_resource`: `++` or `--`. -/
def update (v : BitVec 16) : Role → BitVec 16
  | .increment => v + 1
  | .decrement => v - 1

end Role

inductive Site where
  /-- At the condition of the loop. -/
  | test
  /-- At `condFlag.wait`, awake. -/
  | wait
  /-- In `condFlag.wait`, asleep. -/
  | waiting
  /-- At `condFlag.test_and_set()` or `condFlag.clear()`. -/
  | flip
  /-- At `++shared_resource` or `--shared_resource`. -/
  | update
  /-- At the output of `shared_resource`. -/
  | report
  | notify
  | returned
  deriving DecidableEq

/-- What is printed. -/
inductive Line where
  | value (v : BitVec 16)
  | finished (r : Role)
  deriving DecidableEq

end AtomicFlags

open AtomicFlags

structure AtomicFlags where
  condFlag : Bool
  sharedResource : BitVec 16
  site : Role → Site
  i : Role → Nat
  /-- Who set or cleared the flag, in order. -/
  flips : List Role
  /-- Who changed `shared_resource`, in order. -/
  updates : List Role
  output : List Line

namespace AtomicFlags

inductive Action where
  /-- The thread takes its next step. -/
  | run (r : Role)
  /-- The thread wakes up for no reason. -/
  | spurious (r : Role)

/-- The thread has a next step of its own. -/
def Site.isAwake : Site → Prop
  | .waiting | .returned => False
  | .test | .wait | .flip | .update | .report | .notify => True

instance : ∀ x : Site, Decidable x.isAwake
  | .waiting | .returned => isFalse id
  | .test | .wait | .flip | .update | .report | .notify => isTrue trivial

def enabled (s : AtomicFlags) : Action → Prop
  | .run r => (s.site r).isAwake
  | .spurious r => s.site r = .waiting

instance (s : AtomicFlags) : ∀ a, Decidable (s.enabled a)
  | .run r => inferInstanceAs (Decidable (s.site r).isAwake)
  | .spurious r => inferInstanceAs (Decidable (s.site r = .waiting))

def goto (s : AtomicFlags) (r : Role) (x : Site) : AtomicFlags :=
  { s with site := Function.update s.site r x }

/-- `notify_one` by the thread `r`: the other one looks again if it is asleep. -/
def wakeOther (s : AtomicFlags) (r : Role) : AtomicFlags :=
  if s.site r.other = .waiting then s.goto r.other .wait else s

/-- The next step of a thread. -/
def runStep (limit : Nat) (s : AtomicFlags) (r : Role) : AtomicFlags :=
  match s.site r with
  | .test =>
      if s.i r < limit then s.goto r .wait
      else { s.goto r .returned with output := s.output ++ [.finished r] }
  | .wait => s.goto r (if s.condFlag = r.flag then .waiting else .flip)
  | .flip => { s.goto r .update with condFlag := r.flag, flips := s.flips ++ [r] }
  | .update =>
      { s.goto r .report with
        sharedResource := r.update s.sharedResource
        updates := s.updates ++ [r] }
  | .report => { s.goto r .notify with output := s.output ++ [.value s.sharedResource] }
  | .notify => { (s.wakeOther r).goto r .test with i := Function.update s.i r (s.i r + 1) }
  | .waiting | .returned => s

def step (limit : Nat) (s : AtomicFlags) : Action → AtomicFlags
  | .run r => s.runStep limit r
  | .spurious r => s.goto r .wait

/-- Both threads at their start, after the `test_and_set` of `main`. -/
def machine (limit : Nat) : Machine AtomicFlags Action where
  init := {
    condFlag := true
    sharedResource := 0
    site := fun _ => .test
    i := fun _ => 0
    flips := []
    updates := []
    output := [] }
  enabled := enabled
  next := step limit

instance (limit : Nat) (s : AtomicFlags) (a : Action) : Decidable ((machine limit).enabled s a) :=
  inferInstanceAs (Decidable (s.enabled a))

end AtomicFlags

end LinuxSystems
