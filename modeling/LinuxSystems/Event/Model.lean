/-
The event of `Chapter 10/shmem_coroutines.cpp`: receivers that await it and calls
that notify it.

A receiver is a coroutine.  At its `co_await` it is suspended and `await_suspend`
runs, which looks at `notified` and then stores the awaiter in `suspended`; when it
is resumed it maps the shared memory, prints what it finds there and runs to its
end, where its frame is destroyed, the awaiter with it.  A call of `notify` clears
`notified`, loads `suspended`, writes its buffer to the shared memory if it can map
it, and resumes the coroutine of the awaiter it found.  The rest of that coroutine
runs inside the call.

Every load and store of `notified` and `suspended` is a step of its own, and so is
everything else another thread could see.  The result of `ftruncate` is not looked
at in the source, so it does not appear; whether a `mmap` succeeds is part of the
action.
-/
import LinuxSystems.Machine.Run

namespace LinuxSystems

namespace Event

/-- The life of a receiver's coroutine frame. -/
inductive Frame where
  /-- Before its `co_await`. -/
  | running
  | suspended
  /-- Continued past its `co_await`, about to map the shared memory. -/
  | resumed
  /-- About to print `*res`. -/
  | mapped
  /-- It ran to completion: `final_suspend` never suspends. -/
  | destroyed
  deriving DecidableEq

/-- The coroutine has been continued past its `co_await`. -/
def Frame.past : Frame → Prop
  | .resumed | .mapped | .destroyed => True
  | .running | .suspended => False

instance : DecidablePred Frame.past
  | .resumed | .mapped | .destroyed => isTrue trivial
  | .running | .suspended => isFalse id

/-- Where a receiver's call of `await_suspend` stands. -/
inductive Await where
  | idle
  /-- At `if (event.notified) return false`. -/
  | check
  /-- At `event.suspended.store(this)`. -/
  | store
  /-- At `return true`. -/
  | stored
  | returned
  deriving DecidableEq

/-- Between the call of `await_suspend` and its return. -/
def Await.inProgress : Await → Prop
  | .check | .store | .stored => True
  | .idle | .returned => False

instance : DecidablePred Await.inProgress
  | .check | .store | .stored => isTrue trivial
  | .idle | .returned => isFalse id

/-- The receiver is past its store of the awaiter. -/
def Await.hasStored : Await → Prop
  | .stored | .returned => True
  | .idle | .check | .store => False

instance : DecidablePred Await.hasStored
  | .stored | .returned => isTrue trivial
  | .idle | .check | .store => isFalse id

/-- Where a call of `notify` stands; `r` is the receiver whose awaiter it loaded. -/
inductive Notify (R : Type*) where
  | idle
  /-- At `suspended.load()`. -/
  | load
  /-- At `mmap`. -/
  | map (r : R)
  /-- At `new (ptr) T(buffer)`. -/
  | write (r : R)
  /-- At `waiter->coroutineHandle.resume()`. -/
  | resume (r : R)
  /-- Inside `resume()`. -/
  | running (r : R)
  | returned
  deriving DecidableEq

/-- The call has done its `suspended.load()`. -/
def Notify.loaded {R : Type*} : Notify R → Prop
  | .idle | .load => False
  | .map _ | .write _ | .resume _ | .running _ | .returned => True

instance {R : Type*} : DecidablePred (Notify.loaded (R := R))
  | .idle | .load => isFalse id
  | .map _ | .write _ | .resume _ | .running _ | .returned => isTrue trivial

/-- The awaiter the call has loaded and not yet resumed. -/
def Notify.carries {R : Type*} : Notify R → Option R
  | .map r | .write r | .resume r => some r
  | .idle | .load | .running _ | .returned => none

end Event

open Event

/-- The event, its receivers `R`, the calls `N` of `notify`, and the shared memory.  The
last three fields record what happened and are looked at by no step. -/
structure Event (R N T : Type*) where
  suspended : Option R
  notified : Bool
  frame : R → Frame
  await : R → Await
  call : N → Notify R
  region : T
  /-- What the receivers printed. -/
  printed : List (R × T)
  /-- The awaiters that calls of `notify` have loaded. -/
  loads : List R
  /-- The coroutines `resume()` was called on, and the state each was in. -/
  resumes : List (R × Frame)
  /-- The call that continued a receiver. -/
  waker : R → Option N

namespace Event

variable {R N T : Type*}

inductive Action (R N : Type*) where
  /-- `co_await event`: the coroutine is suspended and `await_suspend` called. -/
  | await (r : R)
  | check (r : R)
  | store (r : R)
  | returnTrue (r : R)
  /-- The receiver's `mmap`. -/
  | mapRead (r : R) (ok : Bool)
  | print (r : R)
  /-- `notified = false`. -/
  | clear (j : N)
  | load (j : N)
  /-- The `mmap` in `notify`. -/
  | mapWrite (j : N) (r : R) (ok : Bool)
  | write (j : N) (r : R)
  | resume (j : N) (r : R)
  | returnNotify (j : N) (r : R)

def enabled (s : Event R N T) : Action R N → Prop
  | .await r => s.frame r = .running
  | .check r => s.await r = .check
  | .store r => s.await r = .store
  | .returnTrue r => s.await r = .stored
  | .mapRead r _ => s.frame r = .resumed
  | .print r => s.frame r = .mapped
  | .clear j => s.call j = .idle
  | .load j => s.call j = .load
  | .mapWrite j r _ => s.call j = .map r
  | .write j r => s.call j = .write r
  | .resume j r => s.call j = .resume r
  | .returnNotify j r => s.call j = .running r ∧ s.frame r = .destroyed

instance [DecidableEq R] (s : Event R N T) : ∀ a, Decidable (s.enabled a)
  | .await r => inferInstanceAs (Decidable (s.frame r = _))
  | .check r | .store r | .returnTrue r => inferInstanceAs (Decidable (s.await r = _))
  | .mapRead r _ | .print r => inferInstanceAs (Decidable (s.frame r = _))
  | .clear j | .load j | .mapWrite j _ _ | .write j _ | .resume j _ =>
      inferInstanceAs (Decidable (s.call j = _))
  | .returnNotify j r => inferInstanceAs (Decidable (s.call j = .running r ∧ s.frame r = _))

variable [DecidableEq R] [DecidableEq N]

/-- The receiver's coroutine goes on to `f`. -/
def setFrame (s : Event R N T) (r : R) (f : Frame) : Event R N T :=
  { s with frame := Function.update s.frame r f }

def setAwait (s : Event R N T) (r : R) (x : Await) : Event R N T :=
  { s with await := Function.update s.await r x }

def setCall (s : Event R N T) (j : N) (x : Notify R) : Event R N T :=
  { s with call := Function.update s.call j x }

/-- `buffer j` is the argument of the call `j` of `notify`. -/
def step (buffer : N → T) (s : Event R N T) : Action R N → Event R N T
  | .await r => (s.setFrame r .suspended).setAwait r .check
  | .check r =>
      -- returning false continues the coroutine at once
      if s.notified then (s.setFrame r .resumed).setAwait r .returned else s.setAwait r .store
  | .store r => { s.setAwait r .stored with suspended := some r }
  | .returnTrue r => s.setAwait r .returned
  | .mapRead r ok => s.setFrame r (if ok then .mapped else .destroyed)
  | .print r => { s.setFrame r .destroyed with printed := s.printed ++ [(r, s.region)] }
  | .clear j => { s.setCall j .load with notified := false }
  | .load j => match s.suspended with
    | none => s.setCall j .returned
    | some r => { s.setCall j (.map r) with loads := s.loads ++ [r] }
  | .mapWrite j r ok => s.setCall j (if ok then .write r else .resume r)
  | .write j r => { s.setCall j (.resume r) with region := buffer j }
  | .resume j r =>
      -- only a suspended coroutine may be resumed; the record says what this one was
      let s' := { s.setCall j (.running r) with resumes := s.resumes ++ [(r, s.frame r)] }
      if s.frame r = .suspended then
        { s'.setFrame r .resumed with waker := Function.update s.waker r (some j) }
      else s'
  | .returnNotify j _ => s.setCall j .returned

/-- `Event event{}`, a region that reads as `zero`, and nobody has started. -/
def machine (R N : Type*) [DecidableEq R] [DecidableEq N] (zero : T) (buffer : N → T) :
    Machine (Event R N T) (Action R N) where
  init := ⟨none, false, fun _ => .running, fun _ => .idle, fun _ => .idle, zero, [], [], [],
    fun _ => none⟩
  enabled := enabled
  next := step buffer

instance (zero : T) (buffer : N → T) (s : Event R N T) (a : Action R N) :
    Decidable ((machine R N zero buffer).enabled s a) :=
  inferInstanceAs (Decidable (s.enabled a))

end Event

end LinuxSystems
