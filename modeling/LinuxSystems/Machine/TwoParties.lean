/-
Two parties, and the other one of them.

Many programs have two threads of which each does to the other what the other does to it.  What
is said of one of them and of the other one is then said of both, and what the two have
together does not depend on which of them one begins with.
-/
import Mathlib.Logic.Function.Basic

namespace LinuxSystems

/-- There are two parties, and `other` takes each of them to the other one. -/
structure TwoParties {α : Type*} (other : α → α) : Prop where
  ne : ∀ r, other r ≠ r
  eq_or : ∀ r u, u = r ∨ u = other r

namespace TwoParties

variable {α : Type*} {other : α → α} (h : TwoParties other)
include h

theorem other_other (r : α) : other (other r) = r :=
  (h.eq_or r (other (other r))).resolve_right (h.ne (other r))

/-- What is added up over the two does not depend on where one begins. -/
theorem add_other {a b : α} (hab : other a = b) (f : α → Nat) (r : α) :
    f r + f (other r) = f a + f b := by
  subst hab
  rcases h.eq_or a r with rfl | rfl
  · rfl
  · rw [h.other_other]
    exact Nat.add_comm ..

end TwoParties

end LinuxSystems
