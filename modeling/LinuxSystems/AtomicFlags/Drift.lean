/-
How far the updates drift apart, and how the program ends.

The flag is turned back and forth, and each change lags one turn of the flag behind at
most: so the increments made are at most one ahead of the decrements, and at most two
behind.  When nobody has a next step both threads have returned, for a thread that sleeps
either has not been notified yet or waits for a turn of the flag that is still to come.
-/
import LinuxSystems.AtomicFlags.Updates

namespace LinuxSystems.AtomicFlags

variable {limit : Nat} {s : AtomicFlags} {r u : Role} {x : Site} {a : Action}

/-! ### What is wanted of the hand-off -/

/-- The increments made less the decrements made. -/
def drift (s : AtomicFlags) : Int :=
  (s.updates.count .increment : Int) - (s.updates.count .decrement : Int)

/-- No thread has a next step of its own. -/
def Settled (s : AtomicFlags) : Prop := ∀ r, ¬ s.enabled (.run r)

/-- The flag hands `shared_resource` over with a bounded drift, and no wakeup is lost. -/
structure HandsOff (s : AtomicFlags) : Prop where
  /-- The flag is turned by each operation on it, cleared first. -/
  flips : Alternates .decrement .increment s.flips
  flag : s.condFlag = decide (s.flips.length % 2 = 0)
  ahead : s.drift ≤ 1
  behind : -2 ≤ s.drift
  value : s.sharedResource = BitVec.ofInt 16 s.drift
  finished : s.Settled → (∀ r, s.site r = .returned) ∧ s.sharedResource = 0

/-! ### The drift -/

theorem Flipping.drift_bounds (h : Flipping limit s) : -2 ≤ s.drift ∧ s.drift ≤ 1 := by
  obtain ⟨hfd, hfi⟩ := h.alternates.count (by decide)
  have hdec := (h.stands .decrement).pending
  have hinc := (h.stands .increment).pending
  have hle : ∀ x : Site, x.pending ≤ 1 := by
    intro x
    cases x <;> decide
  have hd := hle (s.site .decrement)
  have hi := hle (s.site .increment)
  unfold drift
  omega

/-- What an update adds to the drift. -/
def Role.sign : Role → Int
  | .increment => 1
  | .decrement => -1

theorem drift_update {s' : AtomicFlags} (h : s'.updates = s.updates ++ [r]) :
    s'.drift = s.drift + r.sign := by
  unfold drift
  rw [h, List.count_append, List.count_append, List.count_singleton, List.count_singleton]
  cases r <;> simp [Role.sign] <;> omega

theorem Role.update_ofInt (r : Role) (d : Int) :
    r.update (BitVec.ofInt 16 d) = BitVec.ofInt 16 (d + r.sign) := by
  rw [BitVec.ofInt_add]
  cases r
  · rfl
  · exact BitVec.sub_eq_add_neg ..

/-- `shared_resource` counts modulo its width. -/
theorem value_eq (h : (machine limit).Reachable s) :
    s.sharedResource = BitVec.ofInt 16 s.drift := by
  refine h.invariant (P := fun s => s.sharedResource = BitVec.ofInt 16 s.drift) rfl ?_
  intro s a _ hs _
  cases a with
  | spurious r => exact hs
  | run r =>
      show (s.runStep limit r).sharedResource = BitVec.ofInt 16 (s.runStep limit r).drift
      by_cases hat : s.site r = .update
      · obtain ⟨hupd, hval⟩ := runStep_update limit hat
        rw [hval, hs, drift_update hupd, Role.update_ofInt]
      · obtain ⟨hupd, hval⟩ := runStep_of_ne limit hat
        unfold drift at hs ⊢
        rw [hupd, hval, hs]

/-! ### The end -/

theorem settled_site (h : ¬ s.enabled (.run r)) : s.site r = .waiting ∨ s.site r = .returned := by
  have hawake : ¬ (s.site r).isAwake := h
  cases hat : s.site r with
  | waiting => exact Or.inl rfl
  | returned => exact Or.inr rfl
  | test | wait | flip | update | report | notify =>
      rw [hat] at hawake
      exact absurd trivial hawake

/-- Where nobody has a next step, whoever sleeps has iterations to go and the other's turn of the
flag to wait for. -/
theorem Flipping.asleep (h : Flipping limit s) (hset : s.Settled) (hat : s.site r = .waiting) :
    s.i r < limit ∧ nextFlip s.flips = r.other := by
  have hknows := (h.stands r).knows
  rw [hat] at hknows
  have hflips : (s.site r.other).flips ≠ 1 := by
    rcases settled_site (hset r.other) with hother | hother <;> rw [hother] <;>
      exact Nat.zero_ne_one
  have hflag := ((h.stands r).asleep hat).resolve_right hflips
  rw [h.flag] at hflag
  refine ⟨hknows, ?_⟩
  rw [← Role.flag_injective hflag, Role.other_other]

/-- **Nobody sleeps in the end.** -/
theorem Flipping.returned (h : Flipping limit s) (hset : s.Settled) (r : Role) :
    s.site r = .returned := by
  rcases settled_site (hset r) with hat | hat
  case inr => exact hat
  obtain ⟨hlt, hturn⟩ := h.asleep hset hat
  have hr := (h.stands r).flips
  have ho := (h.stands r.other).flips
  rw [hat, show Site.waiting.flips = 0 from rfl] at hr
  rcases settled_site (hset r.other) with hother | hother
  · -- the other one would wait for this one's turn
    have hturn' := (h.asleep hset hother).2
    rw [hturn, Role.other_other] at hturn'
    exact absurd hturn' r.other_ne
  · -- the other one has been through its turns, and this one has not
    have hended := (h.stands r.other).knows
    rw [hother] at hended
    have hended : s.i r.other = limit := hended
    rw [hother, show Site.returned.flips = 0 from rfl] at ho
    obtain ⟨hfd, hfi⟩ := h.alternates.count (by decide)
    cases r with
    | increment =>
        have heven := (turn_eq_left (by decide)).mp hturn
        simp only [Role.other] at ho hended
        omega
    | decrement =>
        simp only [Role.other] at ho hended
        omega

theorem Flipping.drift_returned (h : Flipping limit s) (hret : ∀ r, s.site r = .returned) :
    s.drift = 0 := by
  have hcount : ∀ r, s.updates.count r = limit := by
    intro r
    have hupdates := (h.stands r).updates
    have hknows := (h.stands r).knows
    rw [hret r] at hupdates hknows
    exact hupdates.trans hknows
  unfold drift
  rw [hcount, hcount, Int.sub_self]

/-! ### How far it gets -/

/-- `decrement` has cleared the flag, and waits to make its change while `increment` makes its. -/
def aheadRun : List Action := bothTurned ++ [.run .increment]

/-- `decrement` has changed twice, and `increment` not at all. -/
def behindRun : List Action :=
  List.replicate 6 (.run .decrement) ++ List.replicate 3 (.run .increment) ++
    List.replicate 4 (.run .decrement)

theorem aheadRun_drift (h : 2 ≤ limit) : (machine limit).Legal (machine limit).init aheadRun ∧
    drift ((machine limit).after (machine limit).init aheadRun) = 1 := by
  have hpos : 0 < limit := by omega
  refine ⟨?_, ?_⟩
  · simp [aheadRun, bothTurned, machine, enabled, step, runStep, goto, hpos, Site.isAwake, Role.flag]
  · simp [aheadRun, bothTurned, machine, step, runStep, goto, hpos, Role.flag, drift]

theorem behindRun_drift (h : 2 ≤ limit) : (machine limit).Legal (machine limit).init behindRun ∧
    drift ((machine limit).after (machine limit).init behindRun) = -2 := by
  have hpos : 0 < limit := by omega
  have hone : 1 < limit := by omega
  refine ⟨?_, ?_⟩
  · simp [behindRun, machine, enabled, step, runStep, wakeOther, goto, hpos, hone, Site.isAwake,
      Role.flag, Role.other]
  · simp [behindRun, machine, step, runStep, wakeOther, goto, hpos, hone, Role.flag, Role.other,
      drift]

/--
**The flag hands the number over, in the end.**  Whatever the limit and the order of the steps,
the flag goes back and forth, the increments made are at most one ahead of the decrements and
at most two behind, and no wakeup is lost: the program ends with the number at 0.  With two
iterations both bounds are reached.
-/
theorem flag_hands_off (limit : Nat) :
    (∀ s, (machine limit).Reachable s → HandsOff s) ∧
    (2 ≤ limit → (∃ s, (machine limit).Reachable s ∧ s.drift = 1) ∧
      ∃ s, (machine limit).Reachable s ∧ s.drift = -2) := by
  refine ⟨fun s hs => ?_, fun h => ⟨?_, ?_⟩⟩
  · have hf := flipping hs
    obtain ⟨hbehind, hahead⟩ := hf.drift_bounds
    refine ⟨hf.alternates, ?_, hahead, hbehind, value_eq hs, fun hset => ?_⟩
    · rw [hf.flag]
      unfold nextFlip turn
      by_cases heven : s.flips.length % 2 = 0 <;> simp [heven, Role.other, Role.flag]
    · refine ⟨hf.returned hset, ?_⟩
      rw [value_eq hs, hf.drift_returned (hf.returned hset)]
      rfl
  · obtain ⟨hl, hd⟩ := aheadRun_drift h
    exact ⟨_, Machine.reachable_after hl, hd⟩
  · obtain ⟨hl, hd⟩ := behindRun_drift h
    exact ⟨_, Machine.reachable_after hl, hd⟩

/-- With the limit of the program. -/
theorem flag_hands_off_source : ∃ s, (machine 100).Reachable s ∧ s.drift = -2 :=
  ((flag_hands_off 100).2 (by decide)).2

end LinuxSystems.AtomicFlags
