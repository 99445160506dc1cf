/-
What the atomic counter counts.

Every increment is one step, so `shared_resource` is the number of increments modulo its width.
A thread has made as many of them as its index says, and one more while it is at `i++`; and the
index gets to the limit and no further.  So it does not overflow, although it is compared as an
unsigned number, and in the end every thread has made as many increments as the limit says.
-/
import LinuxSystems.Increment.Model
import LinuxSystems.Machine.Endless
import Mathlib.Algebra.BigOperators.Group.Finset.Basic

namespace LinuxSystems.Increment

variable {ι : Type*} {limit : BitVec 32} {i : Int}

/-! ### What is wanted of a counter -/

/--
What a program with the counter does: the counter has all increments, no index overflows, no
run goes on for ever, and a run that cannot go on has the whole number of increments.
-/
structure Counts [Fintype ι] (limit : BitVec 32) {S A : Type*} (m : Machine S A)
    (counter : S → Counter ι) (returned : S → Prop) : Prop where
  counted : ∀ s, m.Reachable s →
    (counter s).sharedResource = BitVec.ofNat 32 (counter s).increments.length
  inRange : ∀ s, m.Reachable s → ∀ t, 0 ≤ (counter s).i t ∧ (counter s).i t ≤ intMax
  total : ∀ s, m.Reachable s → returned s →
    (counter s).sharedResource = BitVec.ofNat 32 (Fintype.card ι * limit.toNat)
  ends : ∀ run, ¬ m.Endless run
  returns : ∀ s, m.Reachable s → m.Stuck s → returned s

/-! ### The index and the limit -/

/-- An index that is not negative is compared as it is. -/
theorem goes_iff (hlimit : (limit.toNat : Int) ≤ intMax) (hi : 0 ≤ i) (hle : i ≤ limit.toNat) :
    goes limit i = true ↔ i < limit.toNat := by
  have hsmall : i < ((2 ^ 32 : Nat) : Int) := by
    unfold intMax at hlimit
    omega
  unfold goes
  rw [decide_eq_true_iff, BitVec.lt_def, BitVec.toNat_ofInt, Int.emod_eq_of_lt hi hsmall]
  omega

namespace Atomic

variable {s : Atomic ι} {a : Action ι} {t u : ι} {x : Site}

/-- The increments of the iteration that the thread is in. -/
def Site.pending : Site → Nat
  | .next => 1
  | .test | .add | .finish | .returned => 0

/-- What the thread knows of its index. -/
def Knows (limit : BitVec 32) (i : Int) : Site → Prop
  | .test => i ≤ limit.toNat
  | .add | .next => i < limit.toNat
  | .finish | .returned => i = limit.toNat

theorem Knows.le (h : Knows limit i x) : i ≤ limit.toNat := by
  cases x with
  | test => exact h
  | add | next => exact le_of_lt h
  | finish | returned => exact le_of_eq h

variable [DecidableEq ι]

/-- Where a thread is, what it has done. -/
structure Stands (limit : BitVec 32) (s : Atomic ι) (t : ι) : Prop where
  count : (s.counter.increments.count t : Int) = s.counter.i t + (s.site t).pending
  nonneg : 0 ≤ s.counter.i t
  knows : Knows limit (s.counter.i t) (s.site t)

/-- Every increment is in the counter. -/
structure Counted (limit : BitVec 32) (s : Atomic ι) : Prop where
  counted : s.counter.sharedResource = BitVec.ofNat 32 s.counter.increments.length
  stands : ∀ t, Stands limit s t

@[simp] theorem goto_site (s : Atomic ι) (c : Counter ι) (t : ι) (x : Site) :
    (s.goto c t x).site t = x := Function.update_self ..

theorem goto_site_of_ne (h : u ≠ t) (s : Atomic ι) (c : Counter ι) (x : Site) :
    (s.goto c t x).site u = s.site u := Function.update_of_ne h ..

/-- The threads that do not move. -/
theorem Stands.goto (h : Stands limit s u) (hut : u ≠ t) {c : Counter ι}
    (hcount : c.increments.count u = s.counter.increments.count u)
    (hi : c.i u = s.counter.i u) : Stands limit (s.goto c t x) u := by
  have hsite := goto_site_of_ne hut s c x
  refine ⟨?_, ?_, ?_⟩
  · rw [hsite]
    show ((c.increments.count u : Nat) : Int) = c.i u + _
    rw [hcount, hi]
    exact h.count
  · show 0 ≤ c.i u
    rw [hi]
    exact h.nonneg
  · rw [hsite]
    show Knows limit (c.i u) _
    rw [hi]
    exact h.knows

/-- A thread goes on without touching the counter or its index. -/
theorem Counted.move (h : Counted limit s) {c : Counter ι}
    (hshared : c.sharedResource = s.counter.sharedResource)
    (hincrements : c.increments = s.counter.increments) (hi : c.i = s.counter.i)
    (hpending : x.pending = (s.site t).pending) (hknows : Knows limit (s.counter.i t) x) :
    Counted limit (s.goto c t x) := by
  refine ⟨?_, fun u => ?_⟩
  · show c.sharedResource = BitVec.ofNat 32 c.increments.length
    rw [hshared, hincrements]
    exact h.counted
  · by_cases hut : u = t
    · subst hut
      refine ⟨?_, ?_, ?_⟩
      · rw [goto_site, hpending]
        show ((c.increments.count u : Nat) : Int) = c.i u + _
        rw [hincrements, hi]
        exact (h.stands u).count
      · show 0 ≤ c.i u
        rw [hi]
        exact (h.stands u).nonneg
      · rw [goto_site]
        show Knows limit (c.i u) x
        rw [hi]
        exact hknows
    · exact (h.stands u).goto hut (by rw [hincrements]) (by rw [hi])

theorem Counted.add (h : Counted limit s) (hat : s.site t = .add) :
    Counted limit (s.goto (s.counter.increment t s.counter.sharedResource) t .next) := by
  refine ⟨?_, fun u => ?_⟩
  · show s.counter.sharedResource + 1 = BitVec.ofNat 32 (s.counter.increments ++ [t]).length
    rw [List.length_append, List.length_singleton, BitVec.ofNat_add, h.counted]
    rfl
  · by_cases hut : u = t
    · subst hut
      have hcount := (h.stands u).count
      have hknows := (h.stands u).knows
      rw [hat] at hcount hknows
      refine ⟨?_, (h.stands u).nonneg, ?_⟩
      · rw [goto_site]
        show (((s.counter.increments ++ [u]).count u : Nat) : Int) = s.counter.i u + 1
        rw [List.count_append, List.count_singleton_self, Int.natCast_add, hcount]
        simp [Site.pending]
      · rw [goto_site]
        exact hknows
    · refine (h.stands u).goto hut ?_ rfl
      show (s.counter.increments ++ [t]).count u = _
      rw [List.count_append, List.count_singleton, if_neg (by simpa using Ne.symm hut), Nat.add_zero]

theorem Counted.next (h : Counted limit s) (hat : s.site t = .next) :
    Counted limit (s.goto (s.counter.next t) t .test) := by
  refine ⟨h.counted, fun u => ?_⟩
  by_cases hut : u = t
  · subst hut
    have hcount := (h.stands u).count
    have hknows := (h.stands u).knows
    have hnonneg := (h.stands u).nonneg
    rw [hat] at hcount hknows
    have hi : (s.counter.next u).i u = s.counter.i u + 1 := Function.update_self ..
    have hlt : s.counter.i u < limit.toNat := hknows
    refine ⟨?_, ?_, ?_⟩
    · rw [goto_site]
      show ((s.counter.increments.count u : Nat) : Int) = (s.counter.next u).i u + 0
      rw [hi, hcount]
      simp [Site.pending]
    · show 0 ≤ (s.counter.next u).i u
      omega
    · rw [goto_site]
      show (s.counter.next u).i u ≤ limit.toNat
      omega
  · exact (h.stands u).goto hut rfl (Function.update_of_ne hut ..)

theorem counted_step (hlimit : (limit.toNat : Int) ≤ intMax) (h : Counted limit s)
    (ha : s.enabled a) : Counted limit (s.step limit a) := by
  cases a with
  | add t => exact h.add ha
  | next t => exact h.next ha
  | test t =>
      have hat : s.site t = .test := ha
      have hknows := (h.stands t).knows
      rw [hat] at hknows
      have hgoes := goes_iff hlimit (h.stands t).nonneg hknows
      show Counted limit (s.goto s.counter t (if goes limit (s.counter.i t) then .add else .finish))
      by_cases hlt : s.counter.i t < limit.toNat
      · rw [if_pos (hgoes.mpr hlt)]
        exact h.move rfl rfl rfl (by rw [hat]; rfl) hlt
      · rw [if_neg fun hg => hlt (hgoes.mp hg)]
        refine h.move rfl rfl rfl (by rw [hat]; rfl) ?_
        exact le_antisymm hknows (not_lt.mp hlt)
  | finish t =>
      have hat : s.site t = .finish := ha
      have hknows := (h.stands t).knows
      rw [hat] at hknows
      exact h.move rfl rfl rfl (by rw [hat]; rfl) hknows

theorem counted (hlimit : (limit.toNat : Int) ≤ intMax) (h : (machine limit).Reachable s) :
    Counted limit s := by
  refine h.invariant (P := Counted limit) ?_ fun s a _ hs ha => counted_step hlimit hs ha
  refine ⟨rfl, fun t => ⟨rfl, le_refl 0, ?_⟩⟩
  exact Int.natCast_nonneg _

theorem Counted.inRange (hlimit : (limit.toNat : Int) ≤ intMax) (h : Counted limit s) (t : ι) :
    0 ≤ s.counter.i t ∧ s.counter.i t ≤ intMax :=
  ⟨(h.stands t).nonneg, (h.stands t).knows.le.trans hlimit⟩

/-! ### All increments -/

/-- The increments of all threads together. -/
theorem sum_count [Fintype ι] (l : List ι) : ∑ t, l.count t = l.length := by
  have hsum := Multiset.sum_count_eq_card (s := Finset.univ) (m := (l : Multiset ι))
    fun t _ => Finset.mem_univ t
  simpa only [Multiset.coe_count, Multiset.coe_card] using hsum

theorem Counted.total [Fintype ι] (h : Counted limit s) (hall : ∀ t, s.site t = .returned) :
    s.counter.sharedResource = BitVec.ofNat 32 (Fintype.card ι * limit.toNat) := by
  have hcount : ∀ t, s.counter.increments.count t = limit.toNat := by
    intro t
    have hcount := (h.stands t).count
    have hknows := (h.stands t).knows
    rw [hall t] at hcount hknows
    have hi : s.counter.i t = limit.toNat := hknows
    simp only [Site.pending] at hcount
    omega
  have hlength := sum_count s.counter.increments
  rw [Finset.sum_const_nat fun t _ => hcount t] at hlength
  rw [h.counted, ← hlength]
  rfl

/-- While a thread is yet to make an increment, the whole number is not reached. -/
theorem Counted.length_lt [Fintype ι] (h : Counted limit s) (hat : s.site t = .add) :
    s.counter.increments.length < Fintype.card ι * limit.toNat := by
  have hle : ∀ u, s.counter.increments.count u ≤ limit.toNat := by
    intro u
    have hcount := (h.stands u).count
    have hknows := (h.stands u).knows
    cases hu : s.site u with
    | next =>
        rw [hu] at hcount hknows
        have hlt : s.counter.i u < limit.toNat := hknows
        have hone : Site.next.pending = 1 := rfl
        omega
    | test | add | finish | returned =>
        rw [hu] at hcount hknows
        have hi := hknows.le
        simp only [Site.pending] at hcount
        omega
  have hlt : s.counter.increments.count t < limit.toNat := by
    have hcount := (h.stands t).count
    have hknows := (h.stands t).knows
    rw [hat] at hcount hknows
    have hi : s.counter.i t < limit.toNat := hknows
    simp only [Site.pending] at hcount
    omega
  have hsum := Finset.sum_lt_sum (s := Finset.univ) (fun u _ => hle u)
    ⟨t, Finset.mem_univ t, hlt⟩
  rwa [sum_count, Finset.sum_const_nat fun _ _ => rfl] at hsum

/-- Where all increments fit into the counter, none wraps around. -/
theorem Counted.not_wrap [Fintype ι] (h : Counted limit s)
    (hfits : Fintype.card ι * limit.toNat < 2 ^ 32) (hat : s.site t = .add) :
    (s.counter.sharedResource + 1).toNat = s.counter.sharedResource.toNat + 1 := by
  have hlt := h.length_lt hat
  have hvalue : s.counter.sharedResource.toNat = s.counter.increments.length := by
    rw [h.counted, BitVec.toNat_ofNat]
    exact Nat.mod_eq_of_lt (by omega)
  have hone : (1 : BitVec 32).toNat = 1 := rfl
  rw [BitVec.toNat_add_of_lt (by omega), hone]

/-! ### The end -/

/-- The steps of an iteration that are left. -/
def Site.left : Site → Nat
  | .test => 3
  | .add => 2
  | .next => 1
  | .finish => 1
  | .returned => 0

/-- The steps that a thread can take at most. -/
def left (limit : BitVec 32) (s : Atomic ι) (t : ι) : Nat :=
  3 * (limit.toNat - s.counter.i t).toNat + (s.site t).left

/-- Who takes the step. -/
def Action.actor : Action ι → ι
  | .test t | .add t | .next t | .finish t => t

theorem left_step (h : Counted limit s) (ha : s.enabled a) :
    (s.step limit a).left limit a.actor < s.left limit a.actor := by
  cases a with
  | test t =>
      have hat : s.site t = .test := ha
      show (s.goto s.counter t (if goes limit (s.counter.i t) then .add else .finish)).left limit t
        < s.left limit t
      unfold left
      rw [goto_site, hat]
      refine Nat.add_lt_add_left ?_ _
      cases goes limit (s.counter.i t) <;> decide
  | add t =>
      have hat : s.site t = .add := ha
      show (s.goto _ t .next).left limit t < s.left limit t
      unfold left
      rw [goto_site, hat]
      exact Nat.lt_succ_self _
  | next t =>
      have hat : s.site t = .next := ha
      have hknows := (h.stands t).knows
      rw [hat] at hknows
      have hlt : s.counter.i t < limit.toNat := hknows
      have hi : (s.counter.next t).i t = s.counter.i t + 1 := Function.update_self ..
      show 3 * (limit.toNat - (s.counter.next t).i t).toNat + ((s.goto _ t .test).site t).left <
        s.left limit t
      unfold left
      rw [goto_site, hat, hi]
      simp only [Site.left]
      omega
  | finish t =>
      have hat : s.site t = .finish := ha
      show (s.goto _ t .returned).left limit t < s.left limit t
      unfold left
      rw [goto_site, hat]
      exact Nat.lt_succ_self _

theorem left_other (limit : BitVec 32) (s : Atomic ι) (a : Action ι) (hta : t ≠ a.actor) :
    (s.step limit a).left limit t = s.left limit t := by
  have hsite : (s.step limit a).site t = s.site t := by
    cases a <;> exact goto_site_of_ne hta s _ _
  have hi : (s.step limit a).counter.i t = s.counter.i t := by
    cases a with
    | next u => exact Function.update_of_ne hta ..
    | test u | add u | finish u => rfl
  unfold left
  rw [hsite, hi]

theorem descends [Fintype ι] (hlimit : (limit.toNat : Int) ≤ intMax) :
    (machine (ι := ι) limit).Descends (InvImage (· < ·) fun s => ∑ t, s.left limit t) :=
  Machine.descends_sum (left limit) Action.actor
    (fun _ _ hs ha => left_step (counted hlimit hs) ha)
    (fun s a _ _ _ hta => (left_other limit s a hta).le)

omit [DecidableEq ι] in
/-- Who has not returned has a next step. -/
theorem returned_of_stuck (h : ∀ a, ¬ s.enabled a) (t : ι) : s.site t = .returned := by
  cases hat : s.site t with
  | test => exact absurd hat (h (.test t))
  | add => exact absurd hat (h (.add t))
  | next => exact absurd hat (h (.next t))
  | finish => exact absurd hat (h (.finish t))
  | returned => rfl

/-- **The atomic counter counts.** -/
theorem counts [Fintype ι] (hlimit : (limit.toNat : Int) ≤ intMax) :
    Counts limit (machine (ι := ι) limit) counter fun s => ∀ t, s.site t = .returned where
  counted _ hs := (counted hlimit hs).counted
  inRange _ hs := (counted hlimit hs).inRange hlimit
  total _ hs hall := (counted hlimit hs).total hall
  ends _ := (descends hlimit).not_endless (InvImage.wf _ Nat.lt_wfRel.wf)
  returns _ _ hstuck := returned_of_stuck hstuck

end Atomic

end LinuxSystems.Increment
