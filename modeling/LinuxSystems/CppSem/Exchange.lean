/-
One permit between two semaphores.

There is one permit, in the counter of one of the semaphores or with the thread that is
between its acquire and its release.  It has gone from the one thread to the other each
time `shared_resource` was changed, so the changes alternate; and since nobody changes it
without the permit, a thread stores what it loaded plus or minus one.
-/
import LinuxSystems.CppSem.Model
import LinuxSystems.Machine.Alternation
import LinuxSystems.Machine.TwoParties

namespace LinuxSystems.CppSem

variable {limit : Nat} {s : CppSem} {r u : Role} {x : Site}

/-! ### What is wanted of the exchange -/

/-- Between the acquire and the release. -/
def Site.isInside : Site → Prop
  | .load | .store _ | .report | .release => True
  | .test | .announce | .acquire | .finish | .returned => False

/-- The counter of a `binary_semaphore` is at most this. -/
def maxCount : Nat := 1

/-- The semaphores hand `shared_resource` over strictly. -/
structure HandsOver (s : CppSem) : Prop where
  counter : ∀ r, s.sem r = 0 ∨ s.sem r = 1
  /-- The precondition of `release`. -/
  release : ∀ r, s.site r = .release → s.sem r.other < maxCount
  alone : ∀ r, (s.site r).isInside → ¬ (s.site r.other).isInside
  bit : s.sharedResource = 0 ∨ s.sharedResource = 1
  alternates : Alternates .producer .consumer s.updates
  increment : ∀ v, s.site .producer = .store v → (Role.producer.update v).toNat = v.toNat + 1
  decrement : ∀ v, s.site .consumer = .store v → (Role.consumer.update v).toNat + 1 = v.toNat

/-! ### The two threads -/

theorem Role.two : TwoParties Role.other where
  ne r := by cases r <;> exact fun h => Role.noConfusion h
  eq_or r u := by cases r <;> cases u <;> simp [Role.other]

@[simp] theorem Role.other_ne (r : Role) : r.other ≠ r := Role.two.ne r

/-! ### The permit -/

/-- The permits with a thread. -/
def Site.permits : Site → Nat
  | .load | .store _ | .report | .release => 1
  | .test | .announce | .acquire | .finish | .returned => 0

/-- The changes of the iteration that are made. -/
def Site.updates : Site → Nat
  | .report | .release | .finish => 1
  | .test | .announce | .acquire | .load | .store _ | .returned => 0

/-- The permits that a thread has or can acquire. -/
def permits (s : CppSem) (r : Role) : Nat := s.sem r + (s.site r).permits

/-- Whose turn it is to change `shared_resource`. -/
def turnAfter (updates : List Role) : Role := turn .producer .consumer updates.length

/-- The iterations of the thread's loop. -/
def Role.rounds (limit : Nat) : Role → Nat
  | .producer => limit
  | .consumer => limit + 1

theorem Role.goes_iff {i : Nat} : r.goes limit i = true ↔ i < r.rounds limit := by
  cases r
  · exact decide_eq_true_iff
  · exact decide_eq_true_iff.trans Nat.lt_succ_iff.symm

/-- What a thread at a place knows of `shared_resource` and of its loop. -/
def Knows (updates : List Role) (shared : BitVec 32) (goes : Bool) (r : Role) : Site → Prop
  | .test => True
  | .announce | .acquire | .finish => goes = true
  | .load => goes = true ∧ turnAfter updates = r
  | .store v => goes = true ∧ turnAfter updates = r ∧ v = shared
  | .report | .release => goes = true ∧ turnAfter updates = r.other
  | .returned => goes = false

structure Stands (limit : Nat) (s : CppSem) (r : Role) : Prop where
  offered : 0 < s.sem r → turnAfter s.updates = r
  count : s.updates.count r = s.i r + (s.site r).updates
  bound : s.i r ≤ r.rounds limit
  knows : Knows s.updates s.sharedResource (r.goes limit (s.i r)) r (s.site r)

structure Exchange (limit : Nat) (s : CppSem) : Prop where
  permit : s.permits .producer + s.permits .consumer = 1
  alternates : Alternates .producer .consumer s.updates
  value : s.sharedResource.toNat = s.updates.length % 2
  stands : ∀ r, Stands limit s r

theorem permit_at_iff (r : Role) : s.permits r + s.permits r.other = 1 ↔
    s.permits .producer + s.permits .consumer = 1 := by
  have hsum : s.permits r + s.permits r.other = s.permits .producer + s.permits .consumer :=
    Role.two.add_other rfl s.permits r
  rw [hsum]

/-- While a thread has the permit or is offered it, the other has none and is offered none. -/
theorem Exchange.other (h : Exchange limit s) (hr : 0 < s.permits r) :
    s.permits r = 1 ∧ s.sem r.other = 0 ∧ (s.site r.other).permits = 0 := by
  have hsum := (permit_at_iff r).mpr h.permit
  unfold permits at hsum hr ⊢
  omega

/-- What a thread without the permit knows does not depend on the other. -/
theorem Knows.of_outside {l l' : List Role} {v v' : BitVec 32} {g : Bool} (h : Knows l v g r x)
    (hout : x.permits = 0) : Knows l' v' g r x := by
  cases x with
  | load | store v | report | release => exact absurd hout Nat.one_ne_zero
  | test | announce | acquire | finish | returned => exact h

theorem turnAfter_snoc {l : List Role} (hr : turnAfter l = r) : turnAfter (l ++ [u]) = r.other := by
  unfold turnAfter at hr ⊢
  rw [List.length_append, List.length_singleton, turn_succ (a := .producer) (b := .consumer) (f := Role.other) rfl rfl, hr]

/-- Whose turn it is finds 0 or 1, and leaves the other one. -/
theorem update_parity {l : List Role} {v : BitVec 32} (hv : v.toNat = l.length % 2)
    (hr : turnAfter l = r) : (r.update v).toNat = (l.length + 1) % 2 := by
  unfold turnAfter at hr
  rcases Nat.mod_two_eq_zero_or_one l.length with heven | hodd
  · rw [turn_of_even heven] at hr
    obtain rfl : v = 0 := BitVec.eq_of_toNat_eq (by rw [hv, heven]; rfl)
    subst hr
    rw [show (l.length + 1) % 2 = 1 by omega]
    rfl
  · rw [turn_of_odd hodd] at hr
    obtain rfl : v = 1 := BitVec.eq_of_toNat_eq (by rw [hv, hodd]; rfl)
    subst hr
    rw [show (l.length + 1) % 2 = 0 by omega]
    rfl

/-! ### The steps -/

/-- A step of `r` that leaves the semaphores and `shared_resource` as they are. -/
theorem Exchange.move (h : Exchange limit s) {out : List Line}
    (hperm : x.permits = (s.site r).permits) (hupd : x.updates = (s.site r).updates)
    (hknows : Knows s.updates s.sharedResource (r.goes limit (s.i r)) r x) :
    Exchange limit { s.goto r x with output := out } := by
  refine ⟨(permit_at_iff r).mp ?_, h.alternates, h.value, fun u => ?_⟩
  · simpa [permits, goto, hperm] using (permit_at_iff r).mpr h.permit
  · have hu := h.stands u
    rcases Role.two.eq_or r u with rfl | rfl
    · exact ⟨hu.offered, by simpa [goto, hupd] using hu.count, hu.bound, by simpa [goto] using hknows⟩
    · exact ⟨hu.offered, by simpa [goto] using hu.count, hu.bound, by simpa [goto] using hu.knows⟩

/-- To acquire a permit that is offered. -/
theorem Exchange.acquire (h : Exchange limit s) (hat : s.site r = .acquire) (hsem : 0 < s.sem r) :
    Exchange limit { s.goto r .load with sem := Function.update s.sem r (s.sem r - 1) } := by
  obtain ⟨hone, hother⟩ := h.other (r := r) (by unfold permits; omega)
  have hsemr : s.sem r = 1 := by simpa [permits, hat, Site.permits] using hone
  refine ⟨(permit_at_iff r).mp ?_, h.alternates, h.value, fun u => ?_⟩
  · have hload : Site.load.permits = 1 := rfl
    simp [permits, goto, hsemr, hother, hload]
  · have hu := h.stands u
    rcases Role.two.eq_or r u with rfl | rfl
    · have hgoes : u.goes limit (s.i u) = true := by simpa [hat, Knows] using hu.knows
      refine ⟨by simp [hsemr], ?_, hu.bound, ?_⟩
      · simpa [goto, hat, Site.updates] using hu.count
      · simpa [goto, Knows] using ⟨hgoes, hu.offered hsem⟩
    · refine ⟨by simp [hother], ?_, hu.bound, ?_⟩
      · simpa [goto] using hu.count
      · simpa [goto] using hu.knows

/-- To store what was loaded plus or minus one. -/
theorem Exchange.store (h : Exchange limit s) {v : BitVec 32} (hat : s.site r = .store v) :
    Exchange limit { s.goto r .report with
      sharedResource := r.update v
      updates := s.updates ++ [r] } := by
  obtain ⟨hone, hother⟩ := h.other (r := r) (by simp [permits, hat, Site.permits])
  have hsemr : s.sem r = 0 := by simpa [permits, hat, Site.permits] using hone
  obtain ⟨hgoes, hturn, rfl⟩ : r.goes limit (s.i r) = true ∧ turnAfter s.updates = r ∧
      v = s.sharedResource := by simpa [hat, Knows] using (h.stands r).knows
  refine ⟨(permit_at_iff r).mp ?_, h.alternates.snoc hturn.symm, ?_, fun u => ?_⟩
  · have hreport : Site.report.permits = 1 := rfl
    simp [permits, goto, hsemr, hother, hreport]
  · rw [List.length_append]
    exact update_parity h.value hturn
  · have hu := h.stands u
    rcases Role.two.eq_or r u with rfl | rfl
    · refine ⟨by simp [goto, hsemr], ?_, hu.bound, ?_⟩
      · simpa [goto, hat, Site.updates] using hu.count
      · simpa [goto, Knows] using ⟨hgoes, turnAfter_snoc hturn⟩
    · refine ⟨by simp [goto, hother], ?_, hu.bound, ?_⟩
      · simpa [goto, List.count_singleton, r.other_ne.symm] using hu.count
      · simpa [goto] using hu.knows.of_outside hother.2

/-- To release the other's semaphore. -/
theorem Exchange.release (h : Exchange limit s) (hat : s.site r = .release) :
    Exchange limit { s.goto r .finish with
      sem := Function.update s.sem r.other (s.sem r.other + 1) } := by
  obtain ⟨hone, hother⟩ := h.other (r := r) (by simp [permits, hat, Site.permits])
  have hsemr : s.sem r = 0 := by simpa [permits, hat, Site.permits] using hone
  obtain ⟨hgoes, hturn⟩ : r.goes limit (s.i r) = true ∧ turnAfter s.updates = r.other := by
    simpa [hat, Knows] using (h.stands r).knows
  refine ⟨(permit_at_iff r).mp ?_, h.alternates, h.value, fun u => ?_⟩
  · have hfinish : Site.finish.permits = 0 := rfl
    simp [permits, goto, hsemr, hother, hfinish, r.other_ne.symm]
  · have hu := h.stands u
    rcases Role.two.eq_or r u with rfl | rfl
    · refine ⟨by simp [hsemr, u.other_ne.symm], ?_, hu.bound, ?_⟩
      · simpa [goto, hat, Site.updates] using hu.count
      · simpa [goto, Knows] using hgoes
    · refine ⟨fun _ => hturn, ?_, hu.bound, ?_⟩
      · simpa [goto] using hu.count
      · simpa [goto] using hu.knows

/-- To go on to the next iteration. -/
theorem Exchange.finish (h : Exchange limit s) (hat : s.site r = .finish) {out : List Line} :
    Exchange limit { s.goto r .test with
      output := out
      i := Function.update s.i r (s.i r + 1) } := by
  refine ⟨(permit_at_iff r).mp ?_, h.alternates, h.value, fun u => ?_⟩
  · simpa [permits, goto, hat, Site.permits] using (permit_at_iff r).mpr h.permit
  · have hu := h.stands u
    rcases Role.two.eq_or r u with rfl | rfl
    · have hgoes : u.goes limit (s.i u) = true := by simpa [hat, Knows] using hu.knows
      refine ⟨hu.offered, ?_, ?_, ?_⟩
      · simpa [goto, hat, Site.updates] using hu.count
      · simpa using Nat.succ_le_of_lt (Role.goes_iff.mp hgoes)
      · simp [goto, Knows]
    · refine ⟨hu.offered, ?_, ?_, ?_⟩
      · simpa [goto] using hu.count
      · simpa using hu.bound
      · simpa [goto] using hu.knows

theorem Exchange.step (h : Exchange limit s) (ha : s.enabled r) :
    Exchange limit (s.step limit r) := by
  have hknows := (h.stands r).knows
  unfold enabled at ha
  unfold CppSem.step
  cases hat : s.site r with
  | test =>
      cases hgoes : r.goes limit (s.i r) with
      | false => exact h.move (by rw [hat]; rfl) (by rw [hat]; rfl) hgoes
      | true =>
          have hentry : r.entry.permits = 0 ∧ r.entry.updates = 0 := by cases r <;> exact ⟨rfl, rfl⟩
          refine h.move (by rw [hat]; exact hentry.1) (by rw [hat]; exact hentry.2) ?_
          rw [hgoes]
          cases r <;> rfl
  | announce =>
      rw [hat] at hknows
      exact h.move (by rw [hat]; rfl) (by rw [hat]; rfl) hknows
  | acquire =>
      rw [hat] at ha
      exact h.acquire hat ha
  | load =>
      rw [hat] at hknows
      exact h.move (by rw [hat]; rfl) (by rw [hat]; rfl) ⟨hknows.1, hknows.2, rfl⟩
  | store v => exact h.store hat
  | report =>
      rw [hat] at hknows
      exact h.move (by rw [hat]; rfl) (by rw [hat]; rfl) hknows
  | release => exact h.release hat
  | finish => exact h.finish hat
  | returned => exact h

theorem exchange (h : (machine limit).Reachable s) : Exchange limit s := by
  refine h.invariant (P := Exchange limit) ?_ ?_
  · refine ⟨rfl, Alternates.nil, rfl, fun r => ⟨?_, ?_, Nat.zero_le _, trivial⟩⟩
    · cases r
      · exact fun _ => rfl
      · exact fun hlt => absurd hlt (Nat.lt_irrefl 0)
    · rfl
  · exact fun s r _ hs hr => hs.step hr

/-! ### What the exchange guarantees -/

theorem permits_of_inside (h : x.isInside) : x.permits = 1 := by
  cases x <;> first | rfl | exact h.elim

/--
**The semaphores hand the number over.**  Whatever the limit and the order of the steps, the
counters stay at 0 or 1, nobody releases a semaphore that has its permit, the threads are not
inside together, and the number goes from 0 to 1 and back without ever wrapping around.
-/
theorem semaphores_hand_over (limit : Nat) {s : CppSem} (h : (machine limit).Reachable s) :
    HandsOver s := by
  have hs := exchange h
  have hinside : ∀ r, (s.site r).isInside → s.sem r.other = 0 ∧ (s.site r.other).permits = 0 := by
    intro r hin
    exact (hs.other (r := r) (by unfold permits; rw [permits_of_inside hin]; omega)).2
  have hstore : ∀ r v, s.site r = .store v →
      turnAfter s.updates = r ∧ v.toNat = s.updates.length % 2 := by
    intro r v hat
    have hknows := (hs.stands r).knows
    rw [hat] at hknows
    exact ⟨hknows.2.1, hknows.2.2 ▸ hs.value⟩
  refine ⟨?_, ?_, ?_, ?_, hs.alternates, ?_, ?_⟩
  · intro r
    have hsum := (permit_at_iff r).mpr hs.permit
    unfold permits at hsum
    omega
  · intro r hat
    rw [(hinside r (hat ▸ trivial)).1]
    exact Nat.one_pos
  · intro r hin hother
    have hzero := (hinside r hin).2
    rw [permits_of_inside hother] at hzero
    exact Nat.one_ne_zero hzero
  · rcases Nat.mod_two_eq_zero_or_one s.updates.length with heven | hodd
    · exact Or.inl (BitVec.eq_of_toNat_eq (by rw [hs.value, heven]; rfl))
    · exact Or.inr (BitVec.eq_of_toNat_eq (by rw [hs.value, hodd]; rfl))
  · intro v hat
    obtain ⟨hturn, hv⟩ := hstore _ _ hat
    have heven := (turn_eq_left (by decide)).mp hturn
    rw [update_parity hv hturn]
    omega
  · intro v hat
    obtain ⟨hturn, hv⟩ := hstore _ _ hat
    have hodd := (turn_eq_right (by decide)).mp hturn
    rw [update_parity hv hturn]
    omega

/-- The producer has released `sem_to_consume`, and the consumer is about to store. -/
theorem semaphores_hand_over_once :
    HandsOver ((machine 1).after (machine 1).init
      (List.replicate 6 .producer ++ List.replicate 4 .consumer)) :=
  semaphores_hand_over 1 (Machine.reachable_after (by decide +kernel))

end LinuxSystems.CppSem
