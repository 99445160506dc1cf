/-
Counting threads by where they are.

Every place has a weight, and the tally is the sum of the weights of the places where the
threads are.  When one thread goes from one place to another, the tally changes by the
difference of their weights; so what each step does to a tally is read off the two places.
-/
import Mathlib.Algebra.BigOperators.Group.Finset.Basic
import Mathlib.Algebra.Order.BigOperators.Group.Finset
import Mathlib.Data.Fintype.Basic

namespace LinuxSystems

variable {ι X : Type*} [Fintype ι] {w w' : X → Nat} {f : ι → X}

/-- The weights of all threads together. -/
def tally (w : X → Nat) (f : ι → X) : Nat := ∑ t, w (f t)

/-- **One thread moves.** -/
theorem tally_update [DecidableEq ι] (w : X → Nat) (f : ι → X) (t : ι) (x : X) :
    tally w (Function.update f t x) + w (f t) = tally w f + w x := by
  have hrest : ∑ u ∈ Finset.univ.erase t, w (Function.update f t x u) =
      ∑ u ∈ Finset.univ.erase t, w (f u) := by
    refine Finset.sum_congr rfl fun u hu => ?_
    rw [Function.update_of_ne (Finset.ne_of_mem_erase hu)]
  unfold tally
  rw [← Finset.add_sum_erase _ _ (Finset.mem_univ t),
    ← Finset.add_sum_erase _ (fun u => w (f u)) (Finset.mem_univ t), hrest, Function.update_self]
  omega

/-- No thread is at a place with a weight. -/
theorem tally_eq_zero : tally w f = 0 ↔ ∀ t, w (f t) = 0 := by
  unfold tally
  rw [Finset.sum_eq_zero_iff]
  exact ⟨fun h t => h t (Finset.mem_univ t), fun h t _ => h t⟩

theorem le_tally (w : X → Nat) (f : ι → X) (t : ι) : w (f t) ≤ tally w f :=
  Finset.single_le_sum (f := fun u => w (f u)) (fun _ _ => Nat.zero_le _) (Finset.mem_univ t)

theorem tally_congr (h : ∀ t, w (f t) = w' (f t)) : tally w f = tally w' f :=
  Finset.sum_congr rfl fun t _ => h t

theorem tally_mono (h : ∀ x, w x ≤ w' x) : tally w f ≤ tally w' f :=
  Finset.sum_le_sum fun t _ => h (f t)

/-- All threads at one place. -/
theorem tally_const (w : X → Nat) (x : X) : tally w (fun _ : ι => x) = Fintype.card ι * w x :=
  Finset.sum_const_nat fun _ _ => rfl

end LinuxSystems
