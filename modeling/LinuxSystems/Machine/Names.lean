/-
Numerals as names.

The runs that serve as examples call their threads `0`, `1` and `2`.  That there is a thread `0`
has one proof here.  A file with such a run takes it for an instance of its own, and a name
then is the same term in every file.
-/
import Mathlib.Algebra.NeZero

namespace LinuxSystems

theorem neZeroTwo : @NeZero Nat Zero.ofOfNat0 2 := ⟨Nat.succ_ne_zero 1⟩

theorem neZeroThree : @NeZero Nat Zero.ofOfNat0 3 := ⟨Nat.succ_ne_zero 2⟩

/-- So many bytes has a socket address. -/
theorem neZeroSixteen : @NeZero Nat Zero.ofOfNat0 16 := ⟨Nat.succ_ne_zero 15⟩

end LinuxSystems
