/-
The order of the updates.

The threads turn the flag in turn, but each changes `shared_resource` only after it has
turned the flag, and by then the other one may go ahead: it can turn the flag again, and
make its change first.  So the changes alternate exactly as long as, with both threads
between the two, the one that turned the flag first makes its change first.  That one is
seen from the flag: it does not have the value any more that the thread gave it.
-/
import LinuxSystems.AtomicFlags.Flips

namespace LinuxSystems.AtomicFlags

variable {limit : Nat} {s : AtomicFlags} {r u : Role} {x : Site} {a : Action}

/-! ### What is wanted of the updates -/

/-- The changes of `shared_resource` take turns, and the first is a decrement. -/
def TakesTurns (s : AtomicFlags) : Prop := Alternates .decrement .increment s.updates

/-- A thread that changes `shared_resource` while the other is about to finds the flag turned
since it turned it itself. -/
def InOrder (s : AtomicFlags) : Action → Prop
  | .run r => s.site r = .update → s.site r.other = .update → s.condFlag ≠ r.flag
  | .spurious _ => True

instance (s : AtomicFlags) : ∀ a, Decidable (s.InOrder a)
  | .run r => inferInstanceAs
      (Decidable (s.site r = .update → s.site r.other = .update → s.condFlag ≠ r.flag))
  | .spurious _ => isTrue trivial

/-! ### Between the flag and the update -/

/-- The changes that a thread has turned the flag for and not yet made. -/
def Site.pending : Site → Nat
  | .update => 1
  | .test | .wait | .waiting | .flip | .report | .notify | .returned => 0

theorem Stands.pending (h : Stands limit s r) :
    s.flips.count r = s.updates.count r + (s.site r).pending := by
  have hsite : ∀ x : Site, x.flips = x.updates + x.pending := by
    intro x
    cases x <;> rfl
  rw [h.flips, h.updates, hsite]
  omega

theorem Site.pending_eq_zero (h : x ≠ .update) : x.pending = 0 := by
  cases x <;> first | rfl | exact absurd rfl h

/-- Only the step at the update makes a change. -/
theorem runStep_of_ne (limit : Nat) (h : s.site r ≠ .update) :
    (s.runStep limit r).updates = s.updates ∧
      (s.runStep limit r).sharedResource = s.sharedResource := by
  unfold runStep
  cases hat : s.site r with
  | update => exact absurd hat h
  | test =>
      by_cases hlt : s.i r < limit
      · simp only [hlt, if_true]
        exact ⟨rfl, rfl⟩
      · simp only [hlt, if_false]
        exact ⟨rfl, rfl⟩
  | notify =>
      unfold wakeOther
      by_cases hasleep : s.site r.other = .waiting
      · simp only [hasleep, if_true]
        exact ⟨rfl, rfl⟩
      · simp only [hasleep, if_false]
        exact ⟨rfl, rfl⟩
  | wait | waiting | flip | report | returned => exact ⟨rfl, rfl⟩

theorem runStep_update (limit : Nat) (h : s.site r = .update) :
    (s.runStep limit r).updates = s.updates ++ [r] ∧
      (s.runStep limit r).sharedResource = r.update s.sharedResource := by
  unfold runStep
  rw [h]
  exact ⟨rfl, rfl⟩

/-- **Whose change is next.**  While the changes have taken turns, a thread is the next to make
one exactly when it is alone between the flag and the change, or turned the flag first. -/
theorem turn_iff (h : Flipping limit s) (halt : TakesTurns s) (hat : s.site r = .update) :
    r = turn .decrement .increment s.updates.length ↔
      (s.site r.other = .update → s.condFlag ≠ r.flag) := by
  obtain ⟨hfd, hfi⟩ := h.alternates.count (by decide)
  obtain ⟨hud, hui⟩ := Alternates.count (by decide) halt
  have hdec := (h.stands .decrement).pending
  have hinc := (h.stands .increment).pending
  have hp : (s.site r).pending = 1 := by
    rw [hat]
    rfl
  rw [h.turned_iff]
  by_cases hother : s.site r.other = .update
  · -- both: as many changes are missing as keep whose turn it is
    have ho : (s.site r.other).pending = 1 := by
      rw [hother]
      rfl
    have hlen : s.flips.length = s.updates.length + 2 := by
      cases r <;> simp only [Role.other] at ho <;> omega
    have hturn : nextFlip s.flips = turn .decrement .increment s.updates.length := by
      unfold nextFlip turn
      rw [hlen, Nat.add_mod_right]
    rw [hturn]
    exact ⟨fun heq _ => heq.symm, fun heq => (heq hother).symm⟩
  · have ho := Site.pending_eq_zero hother
    refine ⟨fun _ hu => absurd hu hother, fun _ => ?_⟩
    cases r <;> simp only [Role.other] at ho
    · exact (turn_of_odd (by omega)).symm
    · exact (turn_of_even (by omega)).symm

/-- A step keeps the changes in turn exactly when it is in order. -/
theorem takesTurns_step (hs : (machine limit).Reachable s) (halt : TakesTurns s) :
    TakesTurns (s.step limit a) ↔ s.InOrder a := by
  cases a with
  | spurious r => exact ⟨fun _ => trivial, fun _ => halt⟩
  | run r =>
      unfold TakesTurns at halt ⊢
      show Alternates _ _ (s.runStep limit r).updates ↔ _
      by_cases hat : s.site r = .update
      · rw [(runStep_update limit hat).1, Alternates.snoc_iff, turn_iff (flipping hs) halt hat]
        exact ⟨fun h _ => h.2, fun h => ⟨halt, h hat⟩⟩
      · rw [(runStep_of_ne limit hat).1]
        exact ⟨fun _ hu => absurd hu hat, fun _ => halt⟩

/--
**When the changes take turns.**  All along a run they do exactly when, each time both threads
have turned the flag and not made their change, the one that turned it first makes its change
first.
-/
theorem flag_takes_turns (limit : Nat) {tr : List Action}
    (hl : (machine limit).Legal (machine limit).init tr) :
    (∀ pre, pre <+: tr → TakesTurns ((machine limit).after (machine limit).init pre)) ↔
      ((machine limit).restrict InOrder).Legal (machine limit).init tr :=
  Machine.always_iff (m := machine limit) (P := TakesTurns) Alternates.nil
    (fun _ _ hs _ halt => takesTurns_step hs halt) hl

/-- `decrement` clears the flag, and `increment` goes through its wait and sets it again. -/
def bothTurned : List Action :=
  [.run .decrement, .run .decrement, .run .decrement,
    .run .increment, .run .increment, .run .increment]

/-- Then `decrement` goes first. -/
def inOrderRun : List Action := bothTurned ++ [.run .decrement, .run .increment]

theorem flag_takes_turns_first :
    TakesTurns ((machine 100).after (machine 100).init inOrderRun) :=
  (flag_takes_turns 100 (by decide +kernel)).mpr (by decide +kernel) inOrderRun List.prefix_rfl

/-- Or `increment` does: the first change is an increment. -/
theorem flag_overtaken :
    (machine 100).Legal (machine 100).init (bothTurned ++ [.run .increment]) ∧
      ((machine 100).after (machine 100).init (bothTurned ++ [.run .increment])).updates =
        [.increment] ∧
      ¬ TakesTurns ((machine 100).after (machine 100).init (bothTurned ++ [.run .increment])) := by
  refine ⟨by decide +kernel, rfl, ?_⟩
  unfold TakesTurns Alternates
  decide +kernel

end LinuxSystems.AtomicFlags
