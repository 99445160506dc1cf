/-
The mean of `Chapter 4/mean_value.cpp`.

An object adds up the values that it is called with and counts them; what is printed is the one
divided by the other, or NaN where nothing was counted.  To construct an object by a move leaves
the source with no sum and the count -1, so that NaN is printed for it; but the first value that
it is called with only brings the count to zero.  To assign by a move leaves the source as it
is.

Beside the objects stand the lists of values they should have the mean of.  Sums are rational
numbers here and counts integers.
-/
import LinuxSystems.Machine.Run
import LinuxSystems.Machine.Names
import Mathlib.Algebra.BigOperators.Group.List.Basic
import Mathlib.Algebra.Field.Rat
import Mathlib.Data.Int.Cast.Lemmas

namespace LinuxSystems

structure Mean where
  sum : ℚ
  count : Int
  deriving DecidableEq

namespace Mean

/-- `Mean()`. -/
def new : Mean := ⟨0, 0⟩

/-- `Mean(const Mean& a)`. -/
def copy (a : Mean) : Mean := ⟨a.sum, a.count⟩

/-- `Mean(Mean&& a)`: the new object, and the source. -/
def moveConstruct (a : Mean) : Mean × Mean := (⟨a.sum, a.count⟩, ⟨0, -1⟩)

/-- `operator=(Mean&& a)`: the object that is assigned to, and the source. -/
def moveAssign (a : Mean) : Mean × Mean := (⟨a.sum, a.count⟩, a)

/-- `operator()(val)`. -/
def call (val : ℚ) (a : Mean) : Mean := ⟨a.sum + val, a.count + 1⟩

/-- What `operator<<` prints; none is NaN. -/
def printed (a : Mean) : Option ℚ := if a.count > 0 then some (a.sum / a.count) else none

/-- The mean of a list, or none of an empty one. -/
def mean (values : List ℚ) : Option ℚ :=
  if values = [] then none else some (values.sum / values.length)

/-! ### One object -/

/-- The object has counted and added up the values; or a construction has moved them out of it. -/
def Holds (m : Mean) (values : List ℚ) : Prop :=
  m.count = values.length ∧ m.sum = values.sum ∨ m = ⟨0, -1⟩ ∧ values = []

variable {m : Mean} {values : List ℚ}

theorem mean_eq_none : mean values = none ↔ values = [] := by
  unfold mean
  split
  case isTrue hnil => exact iff_of_true rfl hnil
  case isFalse hsome => exact iff_of_false nofun hsome

theorem Holds.printed (h : m.Holds values) : m.printed = mean values := by
  rcases h with ⟨hcount, hsum⟩ | ⟨rfl, rfl⟩
  · unfold Mean.printed mean
    rw [hcount, hsum]
    by_cases hnil : values = []
    · rw [if_pos hnil, if_neg (by rw [hnil]; decide)]
    · have hpos : 0 < values.length := List.length_pos_of_ne_nil hnil
      rw [if_neg hnil, if_pos (by omega), Int.cast_natCast]
  · rfl

theorem holds_new : Mean.new.Holds [] := Or.inl ⟨rfl, rfl⟩

/-- What a construction by a move leaves behind. -/
theorem holds_source (m : Mean) : m.moveConstruct.2.Holds [] := Or.inr ⟨rfl, rfl⟩

theorem Holds.call (h : m.Holds values) (hcount : m.count ≠ -1) (val : ℚ) :
    (m.call val).Holds (values ++ [val]) := by
  rcases h with ⟨hlength, hsum⟩ | ⟨rfl, -⟩
  · refine Or.inl ⟨?_, ?_⟩
    · show m.count + 1 = _
      rw [List.length_append, List.length_singleton, hlength]
      omega
    · show m.sum + val = _
      rw [List.sum_append, List.sum_singleton, hsum]
  · exact absurd rfl hcount

/-- An object that was moved from is none the better for one value. -/
theorem not_printed_call (h : m.Holds values) (hcount : m.count = -1) (val : ℚ) :
    (m.call val).printed ≠ mean (values ++ [val]) := by
  rcases h with ⟨hlength, -⟩ | ⟨rfl, -⟩
  · omega
  · intro heq
    have hnone : (Mean.call val ⟨0, -1⟩).printed = none := rfl
    rw [hnone] at heq
    exact absurd (mean_eq_none.mp heq.symm) (List.append_ne_nil_of_right_ne_nil _ nofun)

end Mean

/-- The objects that exist, and the values that each holds logically. -/
structure Means (ι : Type*) where
  object : ι → Option Mean
  values : ι → List ℚ

namespace Means

variable {ι : Type*}

inductive Action (ι : Type*) where
  | construct (v : ι)
  | copyConstruct (v a : ι)
  | moveConstruct (v a : ι)
  | moveAssign (v a : ι)
  | call (v : ι) (val : ℚ)
  | destruct (v : ι)

def enabled (s : Means ι) : Action ι → Prop
  | .construct v => s.object v = none
  | .copyConstruct v a | .moveConstruct v a => s.object v = none ∧ (s.object a).isSome
  | .moveAssign v a => (s.object v).isSome ∧ (s.object a).isSome
  | .call v _ | .destruct v => (s.object v).isSome

instance (s : Means ι) : ∀ a, Decidable (s.enabled a)
  | .construct v => inferInstanceAs (Decidable (s.object v = none))
  | .copyConstruct v _ | .moveConstruct v _ =>
      inferInstanceAs (Decidable (s.object v = none ∧ (s.object _).isSome))
  | .moveAssign v a => inferInstanceAs (Decidable ((s.object v).isSome ∧ (s.object a).isSome))
  | .call v _ | .destruct v => inferInstanceAs (Decidable (s.object v).isSome)

variable [DecidableEq ι]

/-- The object `v` is `m`, and holds `l`. -/
def put (s : Means ι) (v : ι) (m : Mean) (l : List ℚ) : Means ι :=
  { object := Function.update s.object v (some m), values := Function.update s.values v l }

/-- What an operation with the source `a` does, if there is such an object: `f` is what becomes of
the two.  The values go over to `v`, and `a` is left with none. -/
def transfer (s : Means ι) (f : Mean → Mean × Mean) (v a : ι) : Means ι :=
  match s.object a with
  | some m => (s.put a (f m).2 []).put v (f m).1 (s.values a)
  | none => s

def step (s : Means ι) : Action ι → Means ι
  | .construct v => s.put v .new []
  | .copyConstruct v a =>
      match s.object a with
      | some m => s.put v m.copy (s.values a)
      | none => s
  | .moveConstruct v a => s.transfer Mean.moveConstruct v a
  | .moveAssign v a => s.transfer Mean.moveAssign v a
  | .call v val =>
      match s.object v with
      | some m => s.put v (m.call val) (s.values v ++ [val])
      | none => s
  | .destruct v =>
      { object := Function.update s.object v none, values := Function.update s.values v [] }

/-- No objects. -/
def machine (ι : Type*) [DecidableEq ι] : Machine (Means ι) (Action ι) where
  init := ⟨fun _ => none, fun _ => []⟩
  enabled := enabled
  next := step

instance (s : Means ι) (a : Action ι) : Decidable ((machine ι).enabled s a) :=
  inferInstanceAs (Decidable (s.enabled a))

/-! ### What is wanted of the objects -/

/-- The mean of what each object holds is printed for it. -/
def Right (s : Means ι) : Prop := ∀ v m, s.object v = some m → m.printed = Mean.mean (s.values v)

/-- An object is assigned from only if it holds nothing, or by itself; and none is called that a
move has left the count -1. -/
def Used (s : Means ι) : Action ι → Prop
  | .moveAssign v a => v = a ∨ s.values a = []
  | .call v _ => ∀ m ∈ s.object v, m.count ≠ -1
  | .construct _ | .copyConstruct _ _ | .moveConstruct _ _ | .destruct _ => True

instance (s : Means ι) : ∀ a, Decidable (Used s a)
  | .moveAssign v a => inferInstanceAs (Decidable (v = a ∨ s.values a = []))
  | .call v _ => inferInstanceAs (Decidable (∀ m ∈ s.object v, _))
  | .construct _ | .copyConstruct _ _ | .moveConstruct _ _ | .destruct _ => isTrue trivial

variable {s : Means ι} {x : Action ι} {m : Mean} {l : List ℚ} {tr : List (Action ι)} {v a : ι}

/-! ### All of them -/

/-- Each object holds its values. -/
def Hold (s : Means ι) : Prop := ∀ v m, s.object v = some m → m.Holds (s.values v)

omit [DecidableEq ι] in
theorem Hold.right (h : Hold s) : Right s := fun v m hm => (h v m hm).printed

theorem Hold.put (h : Hold s) (hm : m.Holds l) : Hold (s.put v m l) := by
  intro w m' hm'
  by_cases hw : w = v
  · subst hw
    have heq : m = m' := by simpa [Means.put] using hm'
    simpa [Means.put, ← heq] using hm
  · simp only [Means.put, Function.update_of_ne hw] at hm' ⊢
    exact h w m' hm'

theorem put_put (s : Means ι) (v : ι) (m m' : Mean) (l l' : List ℚ) :
    (s.put v m' l').put v m l = s.put v m l := by
  simp [put]

theorem transfer_eq (f : Mean → Mean × Mean) (hm : s.object a = some m) :
    s.transfer f v a = (s.put a (f m).2 []).put v (f m).1 (s.values a) := by
  rw [transfer, hm]

/-- **An operation that is used so keeps all of them.** -/
theorem Hold.step (h : Hold s) (hx : s.enabled x) (hu : Used s x) : Hold (s.step x) := by
  cases x with
  | construct v => exact h.put Mean.holds_new
  | copyConstruct v a =>
      obtain ⟨m, hm⟩ := Option.isSome_iff_exists.mp hx.2
      show Hold (match s.object a with
        | some m => s.put v m.copy (s.values a)
        | none => s)
      rw [hm]
      exact h.put (h a m hm)
  | moveConstruct v a =>
      obtain ⟨m, hm⟩ := Option.isSome_iff_exists.mp hx.2
      show Hold (s.transfer Mean.moveConstruct v a)
      rw [transfer_eq _ hm]
      exact (h.put m.holds_source).put (h a m hm)
  | moveAssign v a =>
      obtain ⟨m, hm⟩ := Option.isSome_iff_exists.mp hx.2
      show Hold (s.transfer Mean.moveAssign v a)
      rw [transfer_eq _ hm]
      rcases hu with rfl | hnil
      · rw [put_put]
        exact h.put (h v m hm)
      · have hsource : m.Holds [] := hnil ▸ h a m hm
        exact (h.put hsource).put (h a m hm)
  | call v val =>
      obtain ⟨m, hm⟩ := Option.isSome_iff_exists.mp hx
      show Hold (match s.object v with
        | some m => s.put v (m.call val) (s.values v ++ [val])
        | none => s)
      rw [hm]
      exact h.put ((h v m hm).call (hu m hm) val)
  | destruct v =>
      intro w m hm
      have hw : w ≠ v := by
        rintro rfl
        simp [Means.step] at hm
      simp only [Means.step, Function.update_of_ne hw] at hm ⊢
      exact h w m hm

/-- **One that is not gives a wrong mean at once.** -/
theorem used_of_right (h : Hold s) (hx : s.enabled x) (hr : Right (s.step x)) : Used s x := by
  cases x with
  | construct v | copyConstruct v a | moveConstruct v a | destruct v => exact trivial
  | moveAssign v a =>
      obtain ⟨m, hm⟩ := Option.isSome_iff_exists.mp hx.2
      refine or_iff_not_imp_left.mpr fun hne => ?_
      have hstep : s.step (.moveAssign v a) = (s.put a m []).put v m (s.values a) :=
        transfer_eq Mean.moveAssign hm
      have hsource := hr a m (by rw [hstep]; simp [put, Ne.symm hne])
      -- the source prints what it printed before, and should print nothing
      have hnone : (s.step (.moveAssign v a)).values a = [] := by
        rw [hstep]
        simp [put, Ne.symm hne]
      rw [hnone, (h a m hm).printed] at hsource
      exact Mean.mean_eq_none.mp hsource
  | call v val =>
      intro m hm hcount
      have hm' : s.object v = some m := hm
      have hstep : s.step (.call v val) = s.put v (m.call val) (s.values v ++ [val]) := by
        show (match s.object v with
          | some m => s.put v (m.call val) (s.values v ++ [val])
          | none => s) = _
        rw [hm']
      have hprinted := hr v (m.call val) (by rw [hstep]; simp [put])
      have hvalues : (s.step (.call v val)).values v = s.values v ++ [val] := by
        rw [hstep]
        simp [put]
      rw [hvalues] at hprinted
      exact Mean.not_printed_call (h v m hm') hcount val hprinted

/--
**When the means are right.**  All along a run of constructions, moves, copies and calls of any
number of objects, what is printed for each is the mean of what it holds, exactly when no object
is assigned from that holds something, but by itself, and none is called that a move has left the
count -1.
-/
theorem means_right (hl : (machine ι).Legal (machine ι).init tr) :
    (∀ pre, pre <+: tr → Right ((machine ι).after (machine ι).init pre)) ↔
      ((machine ι).restrict Used).Legal (machine ι).init tr := by
  refine Machine.always_iff_of (Q := Hold) ?_ ?_ ?_ ?_ hl
  · intro v m hm
    have hnone : none = some m := hm
    exact nomatch hnone
  · intro s h
    exact h.right
  · intro s x h hx hu
    exact h.step hx hu
  · intro s x h hx hr
    exact used_of_right h hx hr

attribute [local instance] neZeroTwo

/-- Two values, then a move into another object and a third value there. -/
def movedOnce : List (Action (Fin 2)) :=
  [.construct 0, .call 0 1, .call 0 4, .moveConstruct 1 0, .call 1 4]

theorem means_right_moved : Right ((machine (Fin 2)).after (machine (Fin 2)).init movedOnce) :=
  (means_right (by decide +kernel)).mpr (by decide +kernel) movedOnce List.prefix_rfl

/-- A value for an object that was moved from; and an object that is assigned from. -/
theorem means_wrong :
    (machine (Fin 2)).Legal (machine (Fin 2)).init (movedOnce ++ [.call 0 7]) ∧
      ¬ Right ((machine (Fin 2)).after (machine (Fin 2)).init (movedOnce ++ [.call 0 7])) ∧
    (machine (Fin 2)).Legal (machine (Fin 2)).init (movedOnce ++ [.moveAssign 0 1]) ∧
      ¬ Right ((machine (Fin 2)).after (machine (Fin 2)).init (movedOnce ++ [.moveAssign 0 1])) := by
  refine ⟨by decide +kernel, fun h => ?_, by decide +kernel, fun h => ?_⟩
  · exact absurd (h 0 ⟨7, 0⟩ (by decide +kernel)) (by decide +kernel)
  · exact absurd (h 1 ⟨9, 3⟩ (by decide +kernel)) (by decide +kernel)

end Means

end LinuxSystems
