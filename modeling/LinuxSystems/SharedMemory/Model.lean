/-
The producers and consumers of `Chapter 9/shared_mem_sp.cpp`.

A call of `producer` waits until `work_done` is false, maps the region, writes its buffer
there, sets `work_done`, releases the mutex and notifies one waiting thread.  A call of
`consumer` waits until `work_done` is true, maps the region, resets `work_done` and
returns, which releases the mutex; it notifies nobody.  Either call throws when it cannot
open or map the region, and both return a pointer into it, which the caller destroys.

Every thread of `ι` makes one call.  A notification wakes any of the waiting threads, of
either kind, and waiting threads may wake up for no reason.  All mappings show one cell.
-/
import LinuxSystems.Machine.Monitor
import Mathlib.Data.Fintype.Defs

namespace LinuxSystems

namespace SharedMem

/-- What a thread calls. -/
inductive Call (T : Type*) where
  | producer (buffer : T)
  | consumer
  deriving DecidableEq

namespace Call

variable {T : Type*}

/-- The predicate of the call's `cond_var.wait`. -/
def isReady : Call T → Bool → Bool
  | .producer _, workDone => workDone == false
  | .consumer, workDone => workDone == true

/-- What the call places in the region. -/
def buffer : Call T → Option T
  | .producer b => some b
  | .consumer => none

def isProducer : Call T → Bool
  | .producer _ => true
  | .consumer => false

end Call

/-- The kind of a call that was successful. -/
inductive Completion where
  | producer
  | consumer
  deriving DecidableEq

inductive Site where
  /-- At `unique_lock lock(cv_mutex)`. -/
  | lock
  /-- At the predicate of `cond_var.wait`. -/
  | test
  /-- In `cond_var.wait`, asleep. -/
  | waiting
  /-- In `cond_var.wait`, awake and without the mutex. -/
  | woken
  | shmOpen
  | mmap
  /-- At `new (ptr) T(buffer)`. -/
  | place
  /-- At `work_done = true`. -/
  | setDone
  /-- At `lock.unlock()`. -/
  | unlock
  /-- At `cond_var.notify_one()`. -/
  | notify
  /-- At `work_done = false`. -/
  | clearDone
  /-- At the return of the consumer that is the `i`-th to succeed. -/
  | leave (i : Nat)
  /-- An exception is thrown, and the mutex not yet released. -/
  | throwing
  /-- A producer has returned its pointer. -/
  | published
  /-- The consumer that was the `i`-th to succeed has returned its pointer. -/
  | received (i : Nat)
  /-- The pointer is destroyed. -/
  | finished
  | threw
  deriving DecidableEq

/-- Where a call stands with `cv_mutex` and `cond_var`. -/
def Site.stand : Site → Stand
  | .lock | .notify | .published | .received _ | .finished | .threw => .outside
  | .test | .shmOpen | .mmap | .place | .setDone | .unlock | .clearDone | .leave _ | .throwing =>
      .inside
  | .waiting => .waiting
  | .woken => .woken

end SharedMem

open SharedMem

structure SharedMem (ι T : Type*) where
  site : ι → Site
  /-- Who holds `cv_mutex`. -/
  owner : Option ι
  workDone : Bool
  /-- What the region holds. -/
  cell : Option T
  /-- The buffers of the producers that succeeded, in order. -/
  placed : List T
  /-- How many consumers have succeeded. -/
  taken : Nat
  completions : List Completion

namespace SharedMem

variable {ι T : Type*}

inductive Action (ι : Type*) where
  | lock (t : ι)
  | test (t : ι)
  /-- `t` wakes up for no reason. -/
  | spurious (t : ι)
  | relock (t : ι)
  | shmOpen (t : ι) (ok : Bool)
  | mmap (t : ι) (ok : Bool)
  | place (t : ι)
  | setDone (t : ι)
  | unlock (t : ι)
  /-- `w` is woken, or nobody. -/
  | notify (t : ι) (w : Option ι)
  | clearDone (t : ι)
  | leave (t : ι) (i : Nat)
  /-- The exception leaves the call. -/
  | unwind (t : ι)
  | destroy (t : ι)

/-- A pointer that a call returned and that is not destroyed. -/
def Site.isLive : Site → Prop
  | .published | .received _ => True
  | _ => False

instance : ∀ x : Site, Decidable x.isLive
  | .published | .received _ => isTrue trivial
  | .lock | .test | .waiting | .woken | .shmOpen | .mmap | .place | .setDone | .unlock | .notify
  | .clearDone | .leave _ | .throwing | .finished | .threw => isFalse id

/-- Whom a notification may wake. -/
def Wakes (s : SharedMem ι T) : Option ι → Prop
  | none => ∀ u, s.site u ≠ .waiting
  | some u => s.site u = .waiting

def enabled (s : SharedMem ι T) : Action ι → Prop
  | .lock t => s.site t = .lock ∧ s.owner = none
  | .test t => s.site t = .test
  | .spurious t => s.site t = .waiting
  | .relock t => s.site t = .woken ∧ s.owner = none
  | .shmOpen t _ => s.site t = .shmOpen
  | .mmap t _ => s.site t = .mmap
  | .place t => s.site t = .place
  | .setDone t => s.site t = .setDone
  | .unlock t => s.site t = .unlock
  | .notify t w => s.site t = .notify ∧ s.Wakes w
  | .clearDone t => s.site t = .clearDone
  | .leave t i => s.site t = .leave i
  | .unwind t => s.site t = .throwing
  | .destroy t => (s.site t).isLive

instance [Fintype ι] (s : SharedMem ι T) : ∀ w, Decidable (s.Wakes w)
  | none => inferInstanceAs (Decidable (∀ u, s.site u ≠ .waiting))
  | some u => inferInstanceAs (Decidable (s.site u = .waiting))

instance [Fintype ι] (s : SharedMem ι T) : ∀ a, Decidable (s.enabled a)
  | .lock t => inferInstanceAs (Decidable (s.site t = .lock ∧ s.owner = none))
  | .relock t => inferInstanceAs (Decidable (s.site t = .woken ∧ s.owner = none))
  | .test t | .spurious t | .shmOpen t _ | .mmap t _ | .place t | .setDone t | .unlock t
  | .clearDone t | .leave t _ | .unwind t => inferInstanceAs (Decidable (s.site t = _))
  | .notify t w => inferInstanceAs (Decidable (s.site t = .notify ∧ s.Wakes w))
  | .destroy t => inferInstanceAs (Decidable (s.site t).isLive)

variable [DecidableEq ι]

/-- The call of `t` goes on to `x`. -/
def goto (s : SharedMem ι T) (t : ι) (x : Site) : SharedMem ι T :=
  { s with site := Function.update s.site t x }

/-- `w` leaves the waiting set. -/
def wake (s : SharedMem ι T) : Option ι → SharedMem ι T
  | none => s
  | some u => s.goto u .woken

/-- `call t` is what the thread `t` calls. -/
def step (call : ι → Call T) (s : SharedMem ι T) : Action ι → SharedMem ι T
  | .lock t | .relock t => { s.goto t .test with owner := some t }
  | .test t =>
      if (call t).isReady s.workDone then s.goto t .shmOpen
      else { s.goto t .waiting with owner := none }
  | .spurious t => s.goto t .woken
  | .shmOpen t ok => s.goto t (if ok then .mmap else .throwing)
  | .mmap t ok =>
      s.goto t (if ok then (if (call t).isProducer then .place else .clearDone) else .throwing)
  | .place t => { s.goto t .setDone with cell := (call t).buffer }
  | .setDone t =>
      { s.goto t .unlock with
        workDone := true
        placed := s.placed ++ (call t).buffer.toList
        completions := s.completions ++ [.producer] }
  | .unlock t => { s.goto t .notify with owner := none }
  | .notify t w => (s.wake w).goto t .published
  | .clearDone t =>
      { s.goto t (.leave s.taken) with
        workDone := false
        taken := s.taken + 1
        completions := s.completions ++ [.consumer] }
  -- the destructor of `lock` comes after the last statement
  | .leave t i => { s.goto t (.received i) with owner := none }
  | .unwind t => { s.goto t .threw with owner := none }
  | .destroy t => s.goto t .finished

/-- Every call at its start. -/
def machine (call : ι → Call T) : Machine (SharedMem ι T) (Action ι) where
  init := ⟨fun _ => .lock, none, false, none, [], 0, []⟩
  enabled := enabled
  next := step call

instance [Fintype ι] (call : ι → Call T) (s : SharedMem ι T) (a : Action ι) :
    Decidable ((machine call).enabled s a) :=
  inferInstanceAs (Decidable (s.enabled a))

end SharedMem

end LinuxSystems
