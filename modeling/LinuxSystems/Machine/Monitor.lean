/-
A mutex and a condition variable.

A thread that waits gives the mutex up and joins the waiting set in one step.  It leaves
the set when it is woken, by a notification or for no reason, and needs the mutex again
before it goes on.  Who holds the mutex is inside, and nobody else is; and somebody who
wants to get inside can, or somebody else is there and can go on.
-/
import LinuxSystems.Machine.Simulation
import Mathlib.Logic.Function.Basic

namespace LinuxSystems

/-- Where a thread stands with the mutex and the condition variable. -/
inductive Stand where
  /-- Without the mutex. -/
  | outside
  /-- With the mutex. -/
  | inside
  /-- In the waiting set. -/
  | waiting
  /-- Out of the waiting set, and without the mutex still. -/
  | woken
  deriving DecidableEq

structure Monitor (ι : Type*) where
  owner : Option ι
  stand : ι → Stand

namespace Monitor

variable {ι : Type*} [DecidableEq ι]

inductive Action (ι : Type*) where
  | lock (t : ι)
  | unlock (t : ι)
  | wait (t : ι)
  | wake (t : ι)
  | relock (t : ι)

def enabled (m : Monitor ι) : Action ι → Prop
  | .lock t => m.stand t = .outside ∧ m.owner = none
  | .unlock t | .wait t => m.stand t = .inside
  | .wake t => m.stand t = .waiting
  | .relock t => m.stand t = .woken ∧ m.owner = none

def step (m : Monitor ι) : Action ι → Monitor ι
  | .lock t | .relock t => { owner := some t, stand := Function.update m.stand t .inside }
  | .unlock t => { owner := none, stand := Function.update m.stand t .outside }
  | .wait t => { owner := none, stand := Function.update m.stand t .waiting }
  | .wake t => { m with stand := Function.update m.stand t .woken }

/-- Everybody outside. -/
def machine (ι : Type*) [DecidableEq ι] : Machine (Monitor ι) (Action ι) where
  init := ⟨none, fun _ => .outside⟩
  enabled := enabled
  next := step

/-- The owner is inside, and nobody else. -/
def Owned (m : Monitor ι) : Prop := ∀ t, m.stand t = .inside ↔ m.owner = some t

variable {m : Monitor ι} {t : ι}

/-- Somebody takes a free mutex. -/
theorem Owned.enter (h : Owned m) (hfree : m.owner = none) (t : ι) :
    Owned { owner := some t, stand := Function.update m.stand t .inside } := by
  intro u
  by_cases hu : u = t
  · simp [hu]
  · have hnot := h u
    simp only [hfree, reduceCtorEq, iff_false] at hnot
    simp [Function.update_of_ne hu, hnot, Ne.symm hu]

/-- The owner gives the mutex up. -/
theorem Owned.exit (h : Owned m) (hin : m.stand t = .inside) {x : Stand} (hx : x ≠ .inside) :
    Owned { owner := none, stand := Function.update m.stand t x } := by
  intro u
  by_cases hu : u = t
  · simp [hu, hx]
  · have howner := (h t).mp hin
    have hnot := h u
    simp only [howner, Option.some.injEq, Ne.symm hu, iff_false] at hnot
    simp [Function.update_of_ne hu, hnot]

/-- Somebody else leaves the waiting set. -/
theorem Owned.wake (h : Owned m) (hwait : m.stand t = .waiting) :
    Owned { m with stand := Function.update m.stand t .woken } := by
  intro u
  by_cases hu : u = t
  · have hnot := h t
    simp only [hwait, reduceCtorEq, false_iff] at hnot
    simp [hu, hnot]
  · show Function.update m.stand t Stand.woken u = .inside ↔ m.owner = some u
    rw [Function.update_of_ne hu]
    exact h u

theorem reachable_owned (h : (machine ι).Reachable m) : Owned m := by
  refine h.invariant (P := Owned) (fun t => by simp [machine]) ?_
  intro m a _ hm ha
  cases a with
  | lock t | relock t => exact hm.enter ha.2 t
  | unlock t | wait t => exact hm.exit ha (by simp)
  | wake t => exact hm.wake ha

/-- Two threads are not inside at the same time. -/
theorem inside_unique (h : (machine ι).Reachable m) {u : ι} (ht : m.stand t = .inside)
    (hu : m.stand u = .inside) : t = u := by
  have howner := reachable_owned h
  exact Option.some.inj (((howner t).mp ht).symm.trans ((howner u).mp hu))

end Monitor

end LinuxSystems
