/-
Waiting for work, `Chapter 9/condition_var.cpp`.

Some threads run `waiting`: they take the mutex, wait for the condition variable, and process
what they waited for.  Others run `done`, and notify one waiting thread.  There is no flag
beside the condition variable, and `wait` is called without a predicate: whatever wakes a
thread lets it go on.

A thread that waits gives the mutex up and joins the waiting set at once, and needs the mutex
again when it is woken.  It is woken by a notification, which reaches any thread of the waiting
set, or none if it is empty; or for no reason.
-/
import LinuxSystems.Machine.Run
import LinuxSystems.Machine.Monitor
import Mathlib.Data.Fintype.Defs

namespace LinuxSystems

namespace ConditionVar

/-- Where a thread stands in `waiting`. -/
inductive Waiting where
  /-- At "Waiting for work...". -/
  | announce
  /-- At `unique_lock<mutex> lock(cv_mutex)`. -/
  | lock
  /-- At `cond_var.wait(lock)`. -/
  | wait
  /-- In the waiting set. -/
  | waiting
  /-- Out of it, and without the mutex still. -/
  | woken
  /-- At `processing()`. -/
  | processing
  /-- At "Work done.". -/
  | finish
  /-- At the destructor of `lock`. -/
  | unlock
  | returned
  deriving DecidableEq

/-- Where a thread stands in `done`. -/
inductive Done where
  /-- At "Shared resource ready.". -/
  | announce
  /-- At `cond_var.notify_one()`. -/
  | notify
  | returned
  deriving DecidableEq

/-- A line of the output. -/
inductive Line where
  | waitingForWork
  | processing
  | workDone
  | resourceReady
  deriving DecidableEq

end ConditionVar

open ConditionVar

/-- The threads `ι` that wait, and the threads `κ` that notify. -/
structure ConditionVar (ι κ : Type*) where
  /-- Who holds `cv_mutex`. -/
  owner : Option ι
  waiting : ι → Waiting
  done : κ → Done
  output : List Line

namespace ConditionVar

variable {ι κ : Type*}

inductive Action (ι κ : Type*) where
  | announce (t : ι)
  | lock (t : ι)
  | wait (t : ι)
  | relock (t : ι)
  | processing (t : ι)
  | finish (t : ι)
  | unlock (t : ι)
  /-- The thread is woken for no reason. -/
  | spurious (t : ι)
  | ready (j : κ)
  /-- The notification reaches a thread, or nobody. -/
  | notify (j : κ) (reached : Option ι)

/-- Whom a notification may reach. -/
def MayReach (s : ConditionVar ι κ) : Option ι → Prop
  | some t => s.waiting t = .waiting
  | none => ∀ t, s.waiting t ≠ .waiting

instance [Fintype ι] (s : ConditionVar ι κ) : ∀ x, Decidable (s.MayReach x)
  | some _ => inferInstanceAs (Decidable (s.waiting _ = _))
  | none => inferInstanceAs (Decidable (∀ _, _))

def enabled (s : ConditionVar ι κ) : Action ι κ → Prop
  | .announce t => s.waiting t = .announce
  | .lock t => s.waiting t = .lock ∧ s.owner = none
  | .wait t => s.waiting t = .wait
  | .relock t => s.waiting t = .woken ∧ s.owner = none
  | .processing t => s.waiting t = .processing
  | .finish t => s.waiting t = .finish
  | .unlock t => s.waiting t = .unlock
  | .spurious t => s.waiting t = .waiting
  | .ready j => s.done j = .announce
  | .notify j reached => s.done j = .notify ∧ s.MayReach reached

instance [Fintype ι] [DecidableEq ι] (s : ConditionVar ι κ) : ∀ a, Decidable (s.enabled a)
  | .announce _ | .wait _ | .processing _ | .finish _ | .unlock _ | .spurious _ =>
      inferInstanceAs (Decidable (s.waiting _ = _))
  | .lock _ | .relock _ => inferInstanceAs (Decidable (_ ∧ s.owner = none))
  | .ready _ => inferInstanceAs (Decidable (s.done _ = _))
  | .notify _ reached => inferInstanceAs (Decidable (_ ∧ s.MayReach reached))

variable [DecidableEq ι] [DecidableEq κ]

def goto (s : ConditionVar ι κ) (t : ι) (x : Waiting) : ConditionVar ι κ :=
  { s with waiting := Function.update s.waiting t x }

def gotoDone (s : ConditionVar ι κ) (j : κ) (x : Done) : ConditionVar ι κ :=
  { s with done := Function.update s.done j x }

def print (s : ConditionVar ι κ) (line : Line) : ConditionVar ι κ :=
  { s with output := s.output ++ [line] }

/-- The notification takes the thread that it reaches out of the waiting set. -/
def wake (s : ConditionVar ι κ) : Option ι → ConditionVar ι κ
  | some t => s.goto t .woken
  | none => s

def step (s : ConditionVar ι κ) : Action ι κ → ConditionVar ι κ
  | .announce t => (s.print .waitingForWork).goto t .lock
  | .lock t => { s.goto t .wait with owner := some t }
  | .wait t => { s.goto t .waiting with owner := none }
  | .relock t => { s.goto t .processing with owner := some t }
  | .processing t => (s.print .processing).goto t .finish
  | .finish t => (s.print .workDone).goto t .unlock
  | .unlock t => { s.goto t .returned with owner := none }
  | .spurious t => s.goto t .woken
  | .ready j => (s.print .resourceReady).gotoDone j .notify
  | .notify j reached => (s.wake reached).gotoDone j .returned

/-- Every call at its start. -/
def machine (ι κ : Type*) [DecidableEq ι] [DecidableEq κ] :
    Machine (ConditionVar ι κ) (Action ι κ) where
  init := ⟨none, fun _ => .announce, fun _ => .announce, []⟩
  enabled := enabled
  next := step

instance [Fintype ι] (s : ConditionVar ι κ) (a : Action ι κ) :
    Decidable ((machine ι κ).enabled s a) :=
  inferInstanceAs (Decidable (s.enabled a))

end ConditionVar

end LinuxSystems
