/-
The counters of `Chapter 7/cpp_mutex.cpp` and `Chapter 7/cpp_increment_atomic.cpp`.

In both programs some threads run the same loop: as long as their index, an `int`, is below an
unsigned limit, they increment `shared_resource`.  In one a mutex is held from before the
increment, which loads and then stores, until after it; in the other the increment is one
atomic step.
-/
import LinuxSystems.Machine.Simulation
import Mathlib.Algebra.Group.Int.Defs
import Mathlib.Logic.Function.Basic

namespace LinuxSystems.Increment

/-- `INT_MAX` -/
def intMax : Int := 2 ^ 31 - 1

/-- `i < limit`, for which the index is converted to the type of the limit. -/
def goes (limit : BitVec 32) (i : Int) : Bool := decide (BitVec.ofInt 32 i < limit)

/-- What both programs have. -/
structure Counter (ι : Type*) where
  sharedResource : BitVec 32
  /-- The index of each thread. -/
  i : ι → Int
  /-- Who incremented `shared_resource`, in order. -/
  increments : List ι
  /-- Who wrote "Increment finished!". -/
  output : List ι

namespace Counter

variable {ι : Type*}

def start : Counter ι := ⟨0, fun _ => 0, [], []⟩

/-- `++shared_resource`, where the thread has found `v`. -/
def increment (c : Counter ι) (t : ι) (v : BitVec 32) : Counter ι :=
  { c with sharedResource := v + 1, increments := c.increments ++ [t] }

/-- `i++` -/
def next [DecidableEq ι] (c : Counter ι) (t : ι) : Counter ι :=
  { c with i := Function.update c.i t (c.i t + 1) }

def finish (c : Counter ι) (t : ι) : Counter ι := { c with output := c.output ++ [t] }

end Counter

/-! ### The atomic counter -/

inductive Atomic.Site where
  /-- At the condition of the loop. -/
  | test
  /-- At `++shared_resource`. -/
  | add
  /-- At `i++`. -/
  | next
  /-- At "Increment finished!". -/
  | finish
  | returned
  deriving DecidableEq

structure Atomic (ι : Type*) where
  counter : Counter ι
  site : ι → Atomic.Site

namespace Atomic

variable {ι : Type*}

inductive Action (ι : Type*) where
  | test (t : ι)
  | add (t : ι)
  | next (t : ι)
  | finish (t : ι)

def enabled (s : Atomic ι) : Action ι → Prop
  | .test t => s.site t = .test
  | .add t => s.site t = .add
  | .next t => s.site t = .next
  | .finish t => s.site t = .finish

instance (s : Atomic ι) : ∀ a, Decidable (s.enabled a)
  | .test _ | .add _ | .next _ | .finish _ => inferInstanceAs (Decidable (s.site _ = _))

variable [DecidableEq ι]

/-- The thread goes on to `x`, where the counter is `c` then. -/
def goto (s : Atomic ι) (c : Counter ι) (t : ι) (x : Site) : Atomic ι :=
  ⟨c, Function.update s.site t x⟩

def step (limit : BitVec 32) (s : Atomic ι) : Action ι → Atomic ι
  | .test t => s.goto s.counter t (if goes limit (s.counter.i t) then .add else .finish)
  | .add t => s.goto (s.counter.increment t s.counter.sharedResource) t .next
  | .next t => s.goto (s.counter.next t) t .test
  | .finish t => s.goto (s.counter.finish t) t .returned

def machine (limit : BitVec 32) : Machine (Atomic ι) (Action ι) where
  init := ⟨.start, fun _ => .test⟩
  enabled := enabled
  next := step limit

end Atomic

/-! ### The counter with the mutex -/

inductive Mutex.Site where
  /-- At the condition of the loop. -/
  | test
  /-- At `lock_guard<mutex> lock(shres_guard)`. -/
  | lock
  /-- At the load of `shared_resource`. -/
  | load
  /-- At the store, with the value loaded. -/
  | store (v : BitVec 32)
  /-- At the destructor of `lock`. -/
  | unlock
  /-- At `i++`. -/
  | next
  /-- At "Increment finished!". -/
  | finish
  | returned
  deriving DecidableEq

structure Mutex (ι : Type*) where
  counter : Counter ι
  site : ι → Mutex.Site
  /-- Who holds `shres_guard`. -/
  owner : Option ι

namespace Mutex

variable {ι : Type*}

inductive Action (ι : Type*) where
  | test (t : ι)
  | lock (t : ι)
  | load (t : ι)
  | store (t : ι) (v : BitVec 32)
  | unlock (t : ι)
  | next (t : ι)
  | finish (t : ι)

def enabled (s : Mutex ι) : Action ι → Prop
  | .test t => s.site t = .test
  | .lock t => s.site t = .lock ∧ s.owner = none
  | .load t => s.site t = .load
  | .store t v => s.site t = .store v
  | .unlock t => s.site t = .unlock
  | .next t => s.site t = .next
  | .finish t => s.site t = .finish

instance [DecidableEq ι] (s : Mutex ι) : ∀ a, Decidable (s.enabled a)
  | .test _ | .load _ | .store _ _ | .unlock _ | .next _ | .finish _ =>
      inferInstanceAs (Decidable (s.site _ = _))
  | .lock _ => inferInstanceAs (Decidable (_ ∧ s.owner = none))

variable [DecidableEq ι]

/-- The thread goes on to `x`, where the counter is `c` then. -/
def goto (s : Mutex ι) (c : Counter ι) (t : ι) (x : Site) : Mutex ι :=
  { s with counter := c, site := Function.update s.site t x }

def step (limit : BitVec 32) (s : Mutex ι) : Action ι → Mutex ι
  | .test t => s.goto s.counter t (if goes limit (s.counter.i t) then .lock else .finish)
  | .lock t => { s.goto s.counter t .load with owner := some t }
  | .load t => s.goto s.counter t (.store s.counter.sharedResource)
  | .store t v => s.goto (s.counter.increment t v) t .unlock
  | .unlock t => { s.goto s.counter t .next with owner := none }
  | .next t => s.goto (s.counter.next t) t .test
  | .finish t => s.goto (s.counter.finish t) t .returned

def machine (limit : BitVec 32) : Machine (Mutex ι) (Action ι) where
  init := ⟨.start, fun _ => .test, none⟩
  enabled := enabled
  next := step limit

end Mutex

end LinuxSystems.Increment
