/-
The producer and the consumer of `Chapter 7/cpp_sem_example.cpp`.

Two threads share a number and pass the right to change it back and forth with two binary
semaphores: each acquires its own, changes the number, and releases the other's.  `main`
has released `sem_to_produce` once when they start.  The producer's loop ends at `limit`
and the consumer's one iteration after it.

Every acquire, load, store, release and output of a thread is a step of its own, and which
thread takes the next one is up to the scheduler.
-/
import LinuxSystems.Machine.Run
import Mathlib.Logic.Function.Basic

namespace LinuxSystems

namespace CppSem

inductive Role where
  | producer
  | consumer
  deriving DecidableEq

namespace Role

def other : Role → Role
  | .producer => .consumer
  | .consumer => .producer

/-- The condition of the thread's loop, in its iteration `i`. -/
def goes (limit i : Nat) : Role → Bool
  | .producer => decide (i < limit)
  | .consumer => decide (i ≤ limit)

/-- What the thread does to `shared_resource`: `++` or `--`. -/
def update (v : BitVec 32) : Role → BitVec 32
  | .producer => v + 1
  | .consumer => v - 1

end Role

inductive Site where
  /-- At the condition of the loop. -/
  | test
  /-- At "Waiting for data...", which only the consumer writes. -/
  | announce
  | acquire
  /-- At the load of `shared_resource`. -/
  | load
  /-- At the store, with the value loaded. -/
  | store (v : BitVec 32)
  /-- At the line with the value. -/
  | report
  | release
  /-- At the line that ends the iteration. -/
  | finish
  | returned
  deriving DecidableEq

/-- A line of the output. -/
inductive Line where
  | waitingForData
  | producingValue (v : BitVec 32)
  | valueAfterConsumer (v : BitVec 32)
  | producerFinished
  | consumerFinished
  deriving DecidableEq

namespace Role

/-- Where an iteration begins. -/
def entry : Role → Site
  | .producer => .acquire
  | .consumer => .announce

/-- The line with the value of `shared_resource`. -/
def report (v : BitVec 32) : Role → Line
  | .producer => .producingValue v
  | .consumer => .valueAfterConsumer v

def finished : Role → Line
  | .producer => .producerFinished
  | .consumer => .consumerFinished

end Role

end CppSem

open CppSem

structure CppSem where
  /-- The counter of the semaphore that the thread acquires: `sem_to_produce` and
  `sem_to_consume`. -/
  sem : Role → Nat
  sharedResource : BitVec 32
  site : Role → Site
  /-- An `int`: it gets to `limit + 1` at most, and the limit is below `INT_MAX`. -/
  i : Role → Nat
  /-- Who changed `shared_resource`, in order. -/
  updates : List Role
  output : List Line

namespace CppSem

/-- There is a next step, where the thread's semaphore has `n` permits. -/
def Site.Passable (n : Nat) : Site → Prop
  | .acquire => 0 < n
  | .returned => False
  | .test | .announce | .load | .store _ | .report | .release | .finish => True

instance (n : Nat) : ∀ x : Site, Decidable (x.Passable n)
  | .acquire => inferInstanceAs (Decidable (0 < n))
  | .returned => isFalse id
  | .test | .announce | .load | .store _ | .report | .release | .finish => isTrue trivial

def enabled (s : CppSem) (r : Role) : Prop := (s.site r).Passable (s.sem r)

instance (s : CppSem) (r : Role) : Decidable (s.enabled r) :=
  inferInstanceAs (Decidable ((s.site r).Passable (s.sem r)))

def goto (s : CppSem) (r : Role) (x : Site) : CppSem :=
  { s with site := Function.update s.site r x }

/-- The next step of a thread. -/
def step (limit : Nat) (s : CppSem) (r : Role) : CppSem :=
  match s.site r with
  | .test => s.goto r (if r.goes limit (s.i r) then r.entry else .returned)
  | .announce => { s.goto r .acquire with output := s.output ++ [.waitingForData] }
  | .acquire => { s.goto r .load with sem := Function.update s.sem r (s.sem r - 1) }
  | .load => s.goto r (.store s.sharedResource)
  | .store v =>
      { s.goto r .report with
        sharedResource := r.update v
        updates := s.updates ++ [r] }
  | .report => { s.goto r .release with output := s.output ++ [r.report s.sharedResource] }
  | .release =>
      { s.goto r .finish with sem := Function.update s.sem r.other (s.sem r.other + 1) }
  | .finish =>
      { s.goto r .test with
        output := s.output ++ [r.finished]
        i := Function.update s.i r (s.i r + 1) }
  | .returned => s

/-- Both threads at their start, after the `release` of `main`. -/
def machine (limit : Nat) : Machine CppSem Role where
  init := {
    sem := fun | .producer => 1 | .consumer => 0
    sharedResource := 0
    site := fun _ => .test
    i := fun _ => 0
    updates := []
    output := [] }
  enabled := enabled
  next := step limit

instance (limit : Nat) (s : CppSem) (r : Role) : Decidable ((machine limit).enabled s r) :=
  inferInstanceAs (Decidable (s.enabled r))

end CppSem

end LinuxSystems
