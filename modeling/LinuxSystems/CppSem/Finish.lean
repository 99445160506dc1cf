/-
How the program ends.

The loop of the producer has `limit` iterations and that of the consumer one more.  Each
iteration of the one needs one of the other before it, but for the first of the producer's,
which needs none: so the last iteration of the consumer waits for a release that never
comes.  Every run gets there, since each step brings a thread further.
-/
import LinuxSystems.CppSem.Exchange
import LinuxSystems.Machine.Endless

namespace LinuxSystems.CppSem

variable {limit : Nat} {s : CppSem} {r u : Role} {x : Site}

/-! ### What is wanted of the end -/

/-- Both threads have returned whenever none of them has a next step. -/
def Finishes (limit : Nat) : Prop :=
  ∀ s, (machine limit).Reachable s → (machine limit).Stuck s → ∀ r, s.site r = .returned

/-- The producer has returned, and the consumer is in its last iteration and waits. -/
structure Hangs (limit : Nat) (s : CppSem) : Prop where
  producer : s.site .producer = .returned
  consumer : s.site .consumer = .acquire
  sem : s.sem .consumer = 0
  i : s.i .consumer = limit

/-! ### Where nobody has a next step -/

/-- A thread without a next step has returned or waits for a permit. -/
theorem stuck_site (h : ¬ s.enabled r) :
    s.site r = .returned ∨ s.site r = .acquire ∧ s.sem r = 0 := by
  unfold enabled at h
  cases hat : s.site r with
  | returned => exact Or.inl rfl
  | acquire =>
      rw [hat] at h
      exact Or.inr ⟨rfl, Nat.eq_zero_of_not_pos h⟩
  | test | announce | load | store v | report | release | finish =>
      rw [hat] at h
      exact absurd trivial h

theorem no_updates_of_stuck (h : ¬ s.enabled r) :
    (s.site r).permits = 0 ∧ (s.site r).updates = 0 := by
  rcases stuck_site h with hat | ⟨hat, -⟩ <;> rw [hat] <;> exact ⟨rfl, rfl⟩

/-- A thread that has returned has been through all its iterations. -/
theorem Stands.rounds (h : Stands limit s r) (hat : s.site r = .returned) :
    s.i r = r.rounds limit := by
  have hended : r.goes limit (s.i r) = false := by simpa [hat, Knows] using h.knows
  have hbound := h.bound
  have hnot : ¬ s.i r < r.rounds limit := by
    rw [← Role.goes_iff, hended]
    exact Bool.false_ne_true
  omega

/-- **Where a run ends.**  The permit is the producer's, and the producer has returned. -/
theorem hangs_of_stuck (h : (machine limit).Reachable s) (hstuck : (machine limit).Stuck s) :
    Hangs limit s := by
  have hs := exchange h
  have hp := hs.stands .producer
  have hc := hs.stands .consumer
  obtain ⟨hpp, hpu⟩ := no_updates_of_stuck (hstuck .producer)
  obtain ⟨hcp, hcu⟩ := no_updates_of_stuck (hstuck .consumer)
  obtain ⟨hnp, hnc⟩ := hs.alternates.count (by decide)
  have hpcount := hp.count
  have hccount := hc.count
  have hsum := hs.permit
  unfold permits at hsum
  rw [hpu] at hpcount
  rw [hcu] at hccount
  rcases stuck_site (hstuck .producer) with hpat | ⟨hpat, hpsem⟩
  · have hpi : s.i .producer = limit := hp.rounds hpat
    rcases stuck_site (hstuck .consumer) with hcat | ⟨hcat, hcsem⟩
    · -- the consumer's last iteration had nobody to wait for
      have hci : s.i .consumer = limit + 1 := hc.rounds hcat
      omega
    · have hpsem : 0 < s.sem .producer := by omega
      have heven := (turn_eq_left (by decide)).mp (hp.offered hpsem)
      exact ⟨hpat, hcat, hcsem, by omega⟩
  · -- then the permit is the consumer's, and it has not returned
    have hcsem : 0 < s.sem .consumer := by omega
    have hodd := (turn_eq_right (by decide)).mp (hc.offered hcsem)
    rcases stuck_site (hstuck .consumer) with hcat | ⟨-, hzero⟩
    · have hci : s.i .consumer = limit + 1 := hc.rounds hcat
      have hpi : s.i .producer ≤ limit := hp.bound
      omega
    · exact absurd hcsem (by omega)

/-! ### That every run comes to an end -/

/-- The steps of an iteration that are left. -/
def Site.left : Site → Nat
  | .test => 9
  | .announce => 8
  | .acquire => 7
  | .load => 6
  | .store _ => 5
  | .report => 4
  | .release => 3
  | .finish => 2
  | .returned => 0

/-- The steps that a thread can take at most. -/
def left (limit : Nat) (s : CppSem) (r : Role) : Nat :=
  10 * (r.rounds limit - s.i r) + (s.site r).left

def totalLeft (limit : Nat) (s : CppSem) : Nat := s.left limit .producer + s.left limit .consumer

theorem totalLeft_at (r : Role) : totalLeft limit s = s.left limit r + s.left limit r.other :=
  (Role.two.add_other rfl (s.left limit) r).symm

theorem step_other (limit : Nat) (s : CppSem) (r : Role) :
    (s.step limit r).left limit r.other = s.left limit r.other := by
  unfold step left
  cases s.site r <;> simp [goto]

theorem left_step (h : Exchange limit s) (ha : s.enabled r) :
    (s.step limit r).left limit r < s.left limit r := by
  have hknows := (h.stands r).knows
  unfold enabled at ha
  unfold step left
  cases hat : s.site r with
  | test => cases hgoes : r.goes limit (s.i r) <;> cases r <;> simp [goto, Role.entry, Site.left]
  | finish =>
      have hgoes : r.goes limit (s.i r) = true := by simpa [hat, Knows] using hknows
      have hlt := Role.goes_iff.mp hgoes
      simp [goto, Site.left]
      omega
  | returned =>
      rw [hat] at ha
      exact ha.elim
  | announce | acquire | load | store v | report | release => simp [goto, Site.left]

/-- **Every step brings the program nearer to its end.** -/
theorem descends (limit : Nat) :
    (machine limit).Descends (InvImage (· < ·) (totalLeft limit)) := by
  intro s r hs ha
  have hown := left_step (exchange hs) ha
  have hother := step_other limit s r
  show totalLeft limit (s.step limit r) < totalLeft limit s
  rw [totalLeft_at r, totalLeft_at r, hother]
  omega

/-- There is no endless run. -/
theorem not_endless (limit : Nat) (run : Nat → Role) : ¬ (machine limit).Endless run :=
  (descends limit).not_endless (InvImage.wf _ Nat.lt_wfRel.wf)

/-- The program always gets to where it hangs. -/
theorem exists_hang (limit : Nat) :
    ∃ s, (machine limit).Reachable s ∧ (machine limit).Stuck s ∧ Hangs limit s := by
  obtain ⟨s, hs, hstuck⟩ :=
    (descends limit).exists_stuck (InvImage.wf _ Nat.lt_wfRel.wf) Machine.Reachable.init
  exact ⟨s, hs, hstuck, hangs_of_stuck hs hstuck⟩

theorem Hangs.not_finishes (h : Hangs limit s) : ¬ ∀ r, s.site r = .returned := by
  intro hall
  have hret := hall .consumer
  rw [h.consumer] at hret
  exact Site.noConfusion hret

/--
**The program never finishes.**  Whatever the limit, every run can be extended to one after
which nobody has a next step, and then the consumer waits for a permit in its last iteration:
so `main` waits for it in `t2.join()`.
-/
theorem consumer_hangs (limit : Nat) : ¬ Finishes limit ∧
    (∀ s, (machine limit).Reachable s → (machine limit).Stuck s → Hangs limit s) ∧
    ∀ run, ¬ (machine limit).Endless run := by
  refine ⟨?_, fun s hs hstuck => hangs_of_stuck hs hstuck, not_endless limit⟩
  intro hfin
  obtain ⟨s, hs, hstuck, hhang⟩ := exists_hang limit
  exact hhang.not_finishes (hfin s hs hstuck)

/-- With the limit of the program. -/
theorem consumer_hangs_source : ¬ Finishes 65536 := by
  intro hfin
  obtain ⟨s, hs, hstuck, hhang⟩ := exists_hang 65536
  exact hhang.not_finishes (hfin s hs hstuck)

end LinuxSystems.CppSem
