/-
A lock for readers and writers.

Any number of threads may hold the lock together as readers, or one alone as a writer.
Whoever holds it as a writer is the only one who holds it at all; so what only writers
change stays as it is while somebody holds the lock as a reader.
-/
import LinuxSystems.Machine.Simulation
import Mathlib.Data.Fintype.Defs
import Mathlib.Logic.Function.Basic

namespace LinuxSystems

/-- How a thread holds the lock. -/
inductive Hold where
  | outside
  | shared
  | exclusive
  deriving DecidableEq

/-- How each thread holds the lock. -/
abbrev RwLock (ι : Type*) := ι → Hold

namespace RwLock

variable {ι : Type*} [DecidableEq ι]

inductive Action (ι : Type*) where
  | lockShared (t : ι)
  | lock (t : ι)
  | unlock (t : ι)

def enabled (m : RwLock ι) : Action ι → Prop
  | .lockShared t => m t = .outside ∧ ∀ u, m u ≠ .exclusive
  | .lock _ => ∀ u, m u = .outside
  | .unlock t => m t ≠ .outside

instance [Fintype ι] (m : RwLock ι) : ∀ a, Decidable (enabled m a)
  | .lockShared _ => inferInstanceAs (Decidable (_ ∧ _))
  | .lock _ => inferInstanceAs (Decidable (∀ _, _))
  | .unlock _ => inferInstanceAs (Decidable (_ ≠ _))

def step (m : RwLock ι) : Action ι → RwLock ι
  | .lockShared t => Function.update m t .shared
  | .lock t => Function.update m t .exclusive
  | .unlock t => Function.update m t .outside

/-- Nobody holds the lock. -/
def machine (ι : Type*) [DecidableEq ι] : Machine (RwLock ι) (Action ι) where
  init := fun _ => .outside
  enabled := enabled
  next := step

/-- A writer is alone. -/
def Excludes (m : RwLock ι) : Prop :=
  ∀ t u, m t = .exclusive → m u ≠ .outside → u = t

variable {m : RwLock ι} {t u : ι}

theorem Excludes.lockShared (hnone : ∀ u, m u ≠ .exclusive) (t : ι) :
    Excludes (Function.update m t .shared) := by
  intro u v hu _
  by_cases hut : u = t
  · rw [hut, Function.update_self] at hu
    exact Hold.noConfusion hu
  · rw [Function.update_of_ne hut] at hu
    exact absurd hu (hnone u)

theorem Excludes.lock (hfree : ∀ u, m u = .outside) (t : ι) :
    Excludes (Function.update m t .exclusive) := by
  have hown : ∀ u, Function.update m t Hold.exclusive u ≠ .outside → u = t := by
    intro u hu
    by_contra hut
    rw [Function.update_of_ne hut] at hu
    exact hu (hfree u)
  intro u v hu hv
  have hut : u = t := hown u (by rw [hu]; exact Hold.noConfusion)
  rw [hut]
  exact hown v hv

theorem Excludes.unlock (h : Excludes m) (t : ι) : Excludes (Function.update m t .outside) := by
  have hold : ∀ u, Function.update m t Hold.outside u ≠ .outside →
      Function.update m t Hold.outside u = m u := by
    intro u hu
    by_cases hut : u = t
    · rw [hut, Function.update_self] at hu
      exact absurd rfl hu
    · exact Function.update_of_ne hut ..
  intro u v hu hv
  have hu' := hold u (by rw [hu]; exact Hold.noConfusion)
  have hv' := hold v hv
  rw [hu'] at hu
  rw [hv'] at hv
  exact h u v hu hv

theorem reachable_excludes (h : (machine ι).Reachable m) : Excludes m := by
  refine h.invariant (P := Excludes) (fun _ _ ht _ => Hold.noConfusion ht) ?_
  intro m a _ hm ha
  cases a with
  | lockShared t => exact Excludes.lockShared ha.2 t
  | lock t => exact Excludes.lock ha t
  | unlock t => exact hm.unlock t

end RwLock

end LinuxSystems
