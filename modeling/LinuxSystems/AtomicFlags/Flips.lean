/-
Turning the flag.

A thread turns the flag when it has found it turned by the other, and nobody else can turn
it before: so the flag goes back and forth.  A thread has changed `shared_resource` as often
as it turned the flag, but for the time between the two.  And a thread that sleeps while the
flag is as it wants it will be notified: the one that turned the flag has not got to its
notification yet.
-/
import LinuxSystems.AtomicFlags.Model
import LinuxSystems.Machine.Alternation
import LinuxSystems.Machine.TwoParties

namespace LinuxSystems.AtomicFlags

variable {limit : Nat} {s : AtomicFlags} {r u : Role} {x : Site} {a : Action}

/-! ### The two threads -/

theorem Role.two : TwoParties Role.other where
  ne r := by cases r <;> exact fun h => Role.noConfusion h
  eq_or r u := by cases r <;> cases u <;> simp [Role.other]

@[simp] theorem Role.other_ne (r : Role) : r.other ≠ r := Role.two.ne r

@[simp] theorem Role.other_other (r : Role) : r.other.other = r := Role.two.other_other r

theorem Role.flag_injective {r u : Role} (h : r.flag = u.flag) : r = u := by
  cases r <;> cases u <;> first | rfl | exact Bool.noConfusion h

@[simp] theorem goto_site (s : AtomicFlags) (r : Role) (x : Site) : (s.goto r x).site r = x :=
  Function.update_self ..

@[simp] theorem goto_site_other (s : AtomicFlags) (r : Role) (x : Site) :
    (s.goto r x).site r.other = s.site r.other := Function.update_of_ne r.other_ne ..

/-! ### Where the threads are -/

/-- The turns of the flag in this iteration. -/
def Site.flips : Site → Nat
  | .update | .report | .notify => 1
  | .test | .wait | .waiting | .flip | .returned => 0

/-- The changes of `shared_resource` in this iteration. -/
def Site.updates : Site → Nat
  | .report | .notify => 1
  | .test | .wait | .waiting | .flip | .update | .returned => 0

/-- Whose turn it is to turn the flag. -/
def nextFlip (flips : List Role) : Role := turn .decrement .increment flips.length

/-- What a thread at a place knows of its loop and of the flag. -/
def Knows (limit i : Nat) (flips : List Role) (r : Role) : Site → Prop
  | .test => True
  | .wait | .waiting | .update | .report | .notify => i < limit
  | .flip => i < limit ∧ nextFlip flips = r
  | .returned => i = limit

structure Stands (limit : Nat) (s : AtomicFlags) (r : Role) : Prop where
  flips : s.flips.count r = s.i r + (s.site r).flips
  updates : s.updates.count r = s.i r + (s.site r).updates
  bound : s.i r ≤ limit
  knows : Knows limit (s.i r) s.flips r (s.site r)
  /-- Whoever sleeps has nothing to do, or will be notified. -/
  asleep : s.site r = .waiting → s.condFlag = r.flag ∨ (s.site r.other).flips = 1

structure Flipping (limit : Nat) (s : AtomicFlags) : Prop where
  alternates : Alternates .decrement .increment s.flips
  flag : s.condFlag = (nextFlip s.flips).other.flag
  stands : ∀ r, Stands limit s r

/-- Only a thread that is about to turn the flag knows whose turn it is. -/
theorem Knows.of_ne_flip {i : Nat} {l l' : List Role} (h : Knows limit i l r x) (hx : x ≠ .flip) :
    Knows limit i l' r x := by
  cases x with
  | flip => exact absurd rfl hx
  | test | wait | waiting | update | report | notify | returned => exact h

theorem nextFlip_snoc {l : List Role} (hr : nextFlip l = r) : nextFlip (l ++ [u]) = r.other := by
  unfold nextFlip at hr ⊢
  rw [List.length_append, List.length_singleton, turn_succ (a := .decrement) (b := .increment) (f := Role.other) rfl rfl, hr]

/-- A thread finds the flag turned exactly when it is its turn. -/
theorem Flipping.turned_iff (h : Flipping limit s) (r : Role) :
    s.condFlag ≠ r.flag ↔ nextFlip s.flips = r := by
  rw [h.flag]
  cases nextFlip s.flips <;> cases r <;> simp [Role.other, Role.flag]

/-! ### The steps -/

/-- A step of `r` that leaves the flag and `shared_resource` as they are. -/
theorem Flipping.move (h : Flipping limit s) {out : List Line}
    (hflips : x.flips = (s.site r).flips) (hupdates : x.updates = (s.site r).updates)
    (hknows : Knows limit (s.i r) s.flips r x) (hasleep : x = .waiting → s.condFlag = r.flag) :
    Flipping limit { s.goto r x with output := out } := by
  refine ⟨h.alternates, h.flag, fun u => ?_⟩
  have hu := h.stands u
  rcases Role.two.eq_or r u with rfl | rfl
  · refine ⟨?_, ?_, hu.bound, ?_, ?_⟩
    · simpa [goto, hflips] using hu.flips
    · simpa [goto, hupdates] using hu.updates
    · simpa [goto] using hknows
    · intro hat
      exact Or.inl (hasleep ((goto_site s u x).symm.trans hat))
  · refine ⟨?_, ?_, hu.bound, ?_, ?_⟩
    · simpa [goto] using hu.flips
    · simpa [goto] using hu.updates
    · simpa [goto] using hu.knows
    · simpa [goto, hflips] using hu.asleep

/-- To wake up. -/
theorem Flipping.wake (h : Flipping limit s) (hat : s.site r = .waiting) :
    Flipping limit (s.goto r .wait) := by
  have hknows := (h.stands r).knows
  rw [hat] at hknows
  exact h.move (by rw [hat]; rfl) (by rw [hat]; rfl) hknows Site.noConfusion

/-- To turn the flag. -/
theorem Flipping.flip (h : Flipping limit s) (hat : s.site r = .flip) :
    Flipping limit { s.goto r .update with condFlag := r.flag, flips := s.flips ++ [r] } := by
  have hknows := (h.stands r).knows
  rw [hat] at hknows
  obtain ⟨hlt, hturn⟩ := hknows
  refine ⟨h.alternates.snoc hturn.symm, ?_, fun u => ?_⟩
  · show r.flag = (nextFlip (s.flips ++ [r])).other.flag
    rw [nextFlip_snoc hturn, Role.other_other]
  · have hu := h.stands u
    rcases Role.two.eq_or r u with rfl | rfl
    · refine ⟨?_, ?_, hu.bound, ?_, ?_⟩
      · simpa [goto, hat, Site.flips] using hu.flips
      · simpa [goto, hat, Site.updates] using hu.updates
      · simpa [goto, Knows] using hlt
      · simp [goto]
    · have hother : s.site r.other ≠ .flip := by
        intro hflip
        have hknows := hu.knows
        rw [hflip] at hknows
        exact r.other_ne (hknows.2.symm.trans hturn)
      refine ⟨?_, ?_, hu.bound, ?_, ?_⟩
      · simpa [goto, List.count_singleton, r.other_ne.symm] using hu.flips
      · simpa [goto] using hu.updates
      · simpa [goto] using hu.knows.of_ne_flip hother
      · intro _
        right
        simp [goto, Site.flips]

/-- To change `shared_resource`. -/
theorem Flipping.update (h : Flipping limit s) (hat : s.site r = .update) {v : BitVec 16} :
    Flipping limit { s.goto r .report with sharedResource := v, updates := s.updates ++ [r] } := by
  refine ⟨h.alternates, h.flag, fun u => ?_⟩
  have hu := h.stands u
  rcases Role.two.eq_or r u with rfl | rfl
  · have hknows := hu.knows
    rw [hat] at hknows
    refine ⟨?_, ?_, hu.bound, ?_, ?_⟩
    · simpa [goto, hat, Site.flips] using hu.flips
    · simpa [goto, hat, Site.updates] using hu.updates
    · simpa [goto, Knows] using hknows
    · simp [goto]
  · refine ⟨?_, ?_, hu.bound, ?_, ?_⟩
    · simpa [goto] using hu.flips
    · simpa [goto, List.count_singleton, r.other_ne.symm] using hu.updates
    · simpa [goto] using hu.knows
    · simp [goto, Site.flips]

/-- To go on to the next iteration, with nobody asleep. -/
theorem Flipping.again (h : Flipping limit s) (hat : s.site r = .notify)
    (hawake : s.site r.other ≠ .waiting) :
    Flipping limit { s.goto r .test with i := Function.update s.i r (s.i r + 1) } := by
  refine ⟨h.alternates, h.flag, fun u => ?_⟩
  have hu := h.stands u
  rcases Role.two.eq_or r u with rfl | rfl
  · have hlt : s.i u < limit := by simpa [hat, Knows] using hu.knows
    refine ⟨?_, ?_, ?_, ?_, ?_⟩
    · simpa [goto, hat, Site.flips] using hu.flips
    · simpa [goto, hat, Site.updates] using hu.updates
    · simpa using Nat.succ_le_of_lt hlt
    · simp [goto, Knows]
    · simp [goto]
  · refine ⟨?_, ?_, ?_, ?_, ?_⟩
    · simpa [goto] using hu.flips
    · simpa [goto] using hu.updates
    · simpa using hu.bound
    · simpa [goto] using hu.knows
    · simp [goto, hawake]

theorem Flipping.notify (h : Flipping limit s) (hat : s.site r = .notify) :
    Flipping limit { (s.wakeOther r).goto r .test with
      i := Function.update s.i r (s.i r + 1) } := by
  unfold wakeOther
  split
  case isTrue hasleep =>
    have hr : (s.goto r.other .wait).site r = .notify := by
      rw [← hat]
      simpa using goto_site_other s r.other .wait
    have hother : (s.goto r.other .wait).site r.other ≠ .waiting := by
      rw [goto_site]
      exact Site.noConfusion
    exact (h.wake hasleep).again hr hother
  case isFalse hawake => exact h.again hat hawake

theorem Flipping.run (h : Flipping limit s) : Flipping limit (s.runStep limit r) := by
  have hknows := (h.stands r).knows
  have hbound := (h.stands r).bound
  unfold runStep
  cases hat : s.site r with
  | test =>
      by_cases hlt : s.i r < limit
      · simp only [hlt, if_true]
        exact h.move (x := .wait) (by rw [hat]; rfl) (by rw [hat]; rfl) hlt Site.noConfusion
      · simp only [hlt, if_false]
        exact h.move (x := .returned) (by rw [hat]; rfl) (by rw [hat]; rfl)
          (show s.i r = limit by omega) Site.noConfusion
  | wait =>
      rw [hat] at hknows
      by_cases hflag : s.condFlag = r.flag
      · simp only [hflag, if_true]
        exact h.move (x := .waiting) (by rw [hat]; rfl) (by rw [hat]; rfl) hknows fun _ => hflag
      · simp only [hflag, if_false]
        exact h.move (x := .flip) (by rw [hat]; rfl) (by rw [hat]; rfl)
          ⟨hknows, (h.turned_iff r).mp hflag⟩ Site.noConfusion
  | flip => exact h.flip hat
  | update => exact h.update hat
  | report =>
      rw [hat] at hknows
      exact h.move (x := .notify) (by rw [hat]; rfl) (by rw [hat]; rfl) hknows Site.noConfusion
  | notify => exact h.notify hat
  | waiting | returned => exact h

theorem flipping (h : (machine limit).Reachable s) : Flipping limit s := by
  refine h.invariant (P := Flipping limit) ?_ ?_
  · exact ⟨Alternates.nil, rfl, fun r => ⟨rfl, rfl, Nat.zero_le _, trivial, Site.noConfusion⟩⟩
  · intro s a _ hs ha
    cases a with
    | run r => exact hs.run
    | spurious r => exact hs.wake ha

end LinuxSystems.AtomicFlags
