/-
The worker that is asked to stop in `Chapter 9/coop_cancellation.cpp`.

`main` starts a worker, which waits on a condition variable until it is asked to stop, and
enrolls a callback that says who executes it.  Then it starts the thread that asks, waits
for it, and asks itself where it leaves its scope.

`wait` enrolls a callback of its own that wakes the waiting thread.  It looks for the request
and goes to sleep in one step: a request that comes after it has looked wakes it.  It may
also wake up for no reason, and looks again.
-/
import LinuxSystems.Machine.StopState

namespace LinuxSystems.Coop

inductive Thread where
  | main
  | worker
  | stopper
  deriving DecidableEq

inductive Callback where
  /-- `callback` in `main`. -/
  | announce
  /-- The one of `wait`. -/
  | wake
  deriving DecidableEq

inductive Line where
  | mainThread
  | working
  | callbackExecuted (t : Thread)
  | requestExecuted (t : Thread)
  deriving DecidableEq

inductive MainSite where
  /-- At the first line. -/
  | first
  | makeWorker
  | makeCallback
  | makeStopper
  | joinStopper
  /-- At the destructor of `callback`. -/
  | dropCallback
  /-- At the destructor of `worker`, which asks it to stop ... -/
  | request
  /-- ... executes the callbacks, where it was the first to ask ... -/
  | executing
  /-- ... and joins it. -/
  | joinWorker
  | returned
  deriving DecidableEq

inductive WorkerSite where
  | absent
  /-- At the beginning of `wait`. -/
  | enroll
  | check
  | asleep
  /-- At the end of `wait`. -/
  | leave
  /-- At the line of the worker. -/
  | work
  | done
  deriving DecidableEq

inductive StopperSite where
  | absent
  | request
  /-- Its request counted. -/
  | executing
  | print
  | done
  deriving DecidableEq

inductive Action where
  | main
  | worker
  | stopper
  /-- The worker wakes up for no reason. -/
  | spurious
  /-- The thread whose request counted begins with `c`. -/
  | start (c : Callback)
  | finish
  deriving DecidableEq

end Coop

open Coop

structure Coop where
  main : MainSite
  worker : WorkerSite
  stopper : StopperSite
  stop : StopState Thread Callback
  cout : List Line

namespace Coop

def mainReady (s : Coop) : MainSite → Prop
  | .first | .makeWorker | .makeCallback | .makeStopper | .request => True
  | .joinStopper => s.stopper = .done
  | .dropCallback => s.stop.running ≠ some .announce
  | .executing => s.stop.Settled
  | .joinWorker => s.worker = .done
  | .returned => False

def workerReady (s : Coop) : WorkerSite → Prop
  | .absent | .asleep | .done => False
  | .enroll | .check | .work => True
  | .leave => s.stop.running ≠ some .wake

def stopperReady (s : Coop) : StopperSite → Prop
  | .absent | .done => False
  | .request | .print => True
  | .executing => s.stop.Settled

def enabled (s : Coop) : Action → Prop
  | .main => s.mainReady s.main
  | .worker => s.workerReady s.worker
  | .stopper => s.stopperReady s.stopper
  | .spurious => s.worker = .asleep
  | .start c => (s.main = .executing ∨ s.stopper = .executing) ∧ s.stop.running = none ∧
      c ∈ s.stop.kept
  | .finish => s.stop.running ≠ none

instance (s : Coop) : ∀ x, Decidable (s.mainReady x)
  | .first | .makeWorker | .makeCallback | .makeStopper | .request => isTrue trivial
  | .joinStopper => inferInstanceAs (Decidable (s.stopper = .done))
  | .dropCallback => inferInstanceAs (Decidable (¬ s.stop.running = some .announce))
  | .executing => inferInstanceAs (Decidable s.stop.Settled)
  | .joinWorker => inferInstanceAs (Decidable (s.worker = .done))
  | .returned => isFalse id

instance (s : Coop) : ∀ x, Decidable (s.workerReady x)
  | .absent | .asleep | .done => isFalse id
  | .enroll | .check | .work => isTrue trivial
  | .leave => inferInstanceAs (Decidable (¬ s.stop.running = some .wake))

instance (s : Coop) : ∀ x, Decidable (s.stopperReady x)
  | .absent | .done => isFalse id
  | .request | .print => isTrue trivial
  | .executing => inferInstanceAs (Decidable s.stop.Settled)

instance (s : Coop) : ∀ a, Decidable (s.enabled a)
  | .main => inferInstanceAs (Decidable (s.mainReady s.main))
  | .worker => inferInstanceAs (Decidable (s.workerReady s.worker))
  | .stopper => inferInstanceAs (Decidable (s.stopperReady s.stopper))
  | .spurious => inferInstanceAs (Decidable (s.worker = .asleep))
  | .start c => inferInstanceAs (Decidable ((s.main = .executing ∨ s.stopper = .executing) ∧
      s.stop.running = none ∧ c ∈ s.stop.kept))
  | .finish => inferInstanceAs (Decidable (¬ s.stop.running = none))

def mainStep (s : Coop) : Coop :=
  match s.main with
  | .first => { s with main := .makeWorker, cout := s.cout ++ [.mainThread] }
  | .makeWorker => { s with main := .makeCallback, worker := .enroll }
  | .makeCallback =>
      { s with
        main := .makeStopper
        stop := s.stop.step (.enroll .main .announce)
        cout := s.cout ++ if s.stop.requester = none then [] else [.callbackExecuted .main] }
  | .makeStopper => { s with main := .joinStopper, stopper := .request }
  | .joinStopper => { s with main := .dropCallback }
  | .dropCallback => { s with main := .request, stop := s.stop.step (.withdraw .announce) }
  | .request =>
      { s with
        main := if s.stop.requester = none then .executing else .joinWorker
        stop := s.stop.step (.request .main) }
  | .executing => { s with main := .joinWorker }
  | .joinWorker => { s with main := .returned }
  | .returned => s

def workerStep (s : Coop) : Coop :=
  match s.worker with
  | .enroll => { s with worker := .check, stop := s.stop.step (.enroll .worker .wake) }
  | .check => { s with worker := if s.stop.requester = none then .asleep else .leave }
  | .leave => { s with worker := .work, stop := s.stop.step (.withdraw .wake) }
  | .work => { s with worker := .done, cout := s.cout ++ [.working] }
  | .absent | .asleep | .done => s

def stopperStep (s : Coop) : Coop :=
  match s.stopper with
  | .request =>
      { s with
        stopper := if s.stop.requester = none then .executing else .done
        stop := s.stop.step (.request .stopper) }
  | .executing => { s with stopper := .print }
  | .print => { s with stopper := .done, cout := s.cout ++ [.requestExecuted .stopper] }
  | .absent | .done => s

/-- What the callback that is being executed does. -/
def finishStep (s : Coop) : Coop :=
  match s.stop.running with
  | some .announce =>
      { s with
        stop := s.stop.step .finish
        cout := s.cout ++ (s.stop.requester.map Line.callbackExecuted).toList }
  | some .wake =>
      { s with
        stop := s.stop.step .finish
        worker := if s.worker = .asleep then .check else s.worker }
  | none => s

def step (s : Coop) : Action → Coop
  | .main => s.mainStep
  | .worker => s.workerStep
  | .stopper => s.stopperStep
  | .spurious => { s with worker := .check }
  | .start c => { s with stop := s.stop.step (.start c) }
  | .finish => s.finishStep

def machine : Machine Coop Action where
  init := ⟨.first, .absent, .absent, (StopState.machine Thread Callback).init, []⟩
  enabled := enabled
  next := step

instance (s : Coop) (a : Action) : Decidable (machine.enabled s a) :=
  inferInstanceAs (Decidable (s.enabled a))

/-! ### Pieces of runs -/

/-- The worker goes to sleep, and the stopper asks it to stop. -/
def untilRequest : List Action :=
  [.main, .main, .worker, .worker, .main, .main, .stopper, .start .wake, .finish]

/-- The worker wakes up and says so. -/
def wakesUp : List Action := [.worker, .worker, .worker]

def executesCallback : List Action := [.start .announce, .finish]

def saysSo : List Action := [.stopper, .stopper]

/-- `main` leaves its scope. -/
def leaves : List Action := [.main, .main, .main, .main]

end Coop

end LinuxSystems
