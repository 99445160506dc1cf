/-
Taking turns.

A history of two kinds of events alternates when its first event is of the one kind, its
second of the other, and so on.  Whether one more event keeps it so depends on nothing but
how many there were: this is what a proof about a program uses, a step at a time.  What it
gets in the end is how many events there are of each kind.
-/
import Mathlib.Data.List.Induction
import Mathlib.Data.List.Count

namespace LinuxSystems

variable {α : Type*} {a b x : α} {l : List α}

/-- Whose turn it is after `n` events, where `a` comes first. -/
def turn (a b : α) (n : Nat) : α := if n % 2 = 0 then a else b

/-- The first `n` of `a, b, a, b, …`. -/
def alternate (a b : α) : Nat → List α
  | 0 => []
  | n + 1 => alternate a b n ++ [turn a b n]

/-- The history alternates, beginning with `a`. -/
def Alternates (a b : α) (l : List α) : Prop := l = alternate a b l.length

@[simp] theorem length_alternate (a b : α) (n : Nat) : (alternate a b n).length = n := by
  induction n with
  | zero => rfl
  | succ n ih => simp [alternate, ih]

theorem turn_of_even {n : Nat} (h : n % 2 = 0) : turn a b n = a := if_pos h

theorem turn_of_odd {n : Nat} (h : n % 2 = 1) : turn a b n = b :=
  if_neg (by omega)

theorem turn_eq_left (hab : a ≠ b) {n : Nat} : turn a b n = a ↔ n % 2 = 0 := by
  refine ⟨fun h => ?_, turn_of_even⟩
  by_contra hodd
  rw [turn_of_odd (by omega)] at h
  exact hab h.symm

theorem turn_eq_right (hab : a ≠ b) {n : Nat} : turn a b n = b ↔ n % 2 = 1 := by
  refine ⟨fun h => ?_, turn_of_odd⟩
  by_contra heven
  rw [turn_of_even (by omega)] at h
  exact hab h

/-- Then it is the other's turn. -/
theorem turn_succ {f : α → α} (ha : f a = b) (hb : f b = a) (n : Nat) :
    turn a b (n + 1) = f (turn a b n) := by
  rcases Nat.mod_two_eq_zero_or_one n with heven | hodd
  · rw [turn_of_even heven, ha, turn_of_odd (by omega)]
  · rw [turn_of_odd hodd, hb, turn_of_even (by omega)]

namespace Alternates

theorem nil : Alternates a b [] := rfl

/-- **One more event.**  A history goes on alternating exactly with the one whose turn it is. -/
theorem snoc_iff : Alternates a b (l ++ [x]) ↔ Alternates a b l ∧ x = turn a b l.length := by
  unfold Alternates
  rw [List.length_append, List.length_singleton, alternate]
  constructor
  · intro h
    obtain ⟨hl, hx⟩ := List.append_inj' h rfl
    exact ⟨hl, by simpa using hx⟩
  · intro ⟨hl, hx⟩
    rw [← hl, hx]

theorem snoc (h : Alternates a b l) (hx : x = turn a b l.length) : Alternates a b (l ++ [x]) :=
  snoc_iff.mpr ⟨h, hx⟩

variable [DecidableEq α]

/-- **How many there are of each.** -/
theorem count (hab : a ≠ b) (h : Alternates a b l) :
    l.count a = (l.length + 1) / 2 ∧ l.count b = l.length / 2 := by
  induction l using List.reverseRecOn with
  | nil => simp
  | append_singleton l x ih =>
      obtain ⟨hl, hx⟩ := snoc_iff.mp h
      obtain ⟨ha, hb⟩ := ih hl
      rw [List.count_append, List.count_append, List.length_append, List.length_singleton, ha, hb]
      rcases Nat.mod_two_eq_zero_or_one l.length with heven | hodd
      · rw [hx, turn_of_even heven, List.count_singleton_self, List.count_singleton, if_neg]
        · omega
        · simpa using hab
      · rw [hx, turn_of_odd hodd, List.count_singleton_self, List.count_singleton, if_neg]
        · omega
        · simpa using hab.symm

end Alternates

end LinuxSystems
