/-
The end of `latch.cpp`.

Every step is one that its thread never takes again, so that no run goes on for ever.  And where
nobody can take one, the counter is zero and all threads are done.
-/
import LinuxSystems.Latch.Lines
import LinuxSystems.Machine.Endless

namespace LinuxSystems

namespace Latch

variable {n : ℕ} {kind : Fin n → Kind} {s : Latch n} {a : Action n} {w : Fin n}
  {past rest : List (Crew.Command n Own)}

/-- The steps that a thread has left. -/
def Site.left : Site → ℕ
  | .absent => 7
  | .start => 6
  | .sleep => 5
  | .announce => 4
  | .count => 3
  | .wait => 2
  | .finish => 1
  | .done => 0

theorem Site.left_next {y : Site} (k : Kind) (hready : y.Ready s.counter) :
    (y.next k).left < y.left := by
  cases k <;> cases y <;> simp_all [Site.next, Site.left, Site.Ready, Kind.afterStart,
    Kind.afterCount]

theorem mainStep_left (hs : Held kind past s) (ha : s.enabled .main) :
    s.mainStep.todo.length + tally Site.left s.mainStep.site <
      s.todo.length + tally Site.left s.site := by
  cases htodo : s.todo with
  | nil => simp [enabled, htodo, mainReady] at ha
  | cons x rest =>
      cases x with
      | make w =>
          have halong := hs.along
          rw [htodo] at halong
          have hw : s.site w = .absent := halong.absent_of_make
          have hmove := tally_update Site.left s.site w .start
          simp only [hw, Site.left] at hmove
          simp only [mainStep, htodo, goto, List.length_cons]
          omega
      | own c => cases c <;> simp [mainStep, htodo]
      | join _ => simp [mainStep, htodo]

/-- Every step brings the end closer. -/
theorem descends : (machine kind).Descends
    (InvImage (· < ·) fun s => s.todo.length + tally Site.left s.site) := by
  intro s a hr ha
  obtain ⟨past, hs⟩ := reachable_held hr
  cases a with
  | main => exact mainStep_left hs ha
  | worker w =>
      show (s.workerStep kind w).todo.length + tally Site.left (s.workerStep kind w).site <
        s.todo.length + tally Site.left s.site
      rw [workerStep_eq ha]
      have hmove := tally_update Site.left s.site w ((s.site w).next (kind w))
      have hless := Site.left_next (kind w) (y := s.site w) (s := s) ha
      simp only [goto]
      omega

/-- A thread that is there and does nothing is done, or it waits at a latch that is closed. -/
theorem site_of_stuck (hstuck : (machine kind).Stuck s) (w : Fin n) (hw : s.site w ≠ .absent) :
    s.site w = .done ∨ s.site w = .wait ∧ s.counter ≠ 0 := by
  have hready : ¬ (s.site w).Ready s.counter := hstuck (.worker w)
  cases hsite : s.site w <;> simp_all [Site.Ready]

theorem returned_of_stuck (hs : Held kind past s) (hstuck : (machine kind).Stuck s) :
    s.todo = [] := by
  by_contra hne
  obtain ⟨x, rest, htodo⟩ := List.exists_cons_of_ne_nil hne
  have hmain : ¬ s.enabled .main := hstuck .main
  have halong := hs.along
  rw [htodo] at halong
  -- when all the threads are there, the latch is open
  have hopen : (∀ w, x ≠ .make w) → s.counter = 0 := by
    intro hx
    rw [hs.counter, tally_eq_zero]
    intro w
    rcases site_of_stuck hstuck w (halong.all_present hx w) with hw | ⟨hw, _⟩ <;> rw [hw] <;> rfl
  cases x with
  | make w => simp [enabled, htodo, mainReady] at hmain
  | own c =>
      cases c with
      | announce | finish => simp [enabled, htodo, mainReady] at hmain
      | wait => exact hmain (by simpa [enabled, htodo, mainReady] using hopen (by simp))
  | join w =>
      rcases site_of_stuck hstuck w (halong.all_present (by simp) w) with hw | ⟨_, hzero⟩
      · exact hmain (by simpa [enabled, htodo, mainReady] using hw)
      · exact hzero (hopen (by simp))

/--
**The program comes to its end.**  There is no endless run.  Where nobody can do anything, `main`
has returned, the latch is open, and each thread has printed all its lines once and in their
order.
-/
theorem latch_end : (∀ run : ℕ → Action n, ¬ (machine kind).Endless run) ∧
    ∀ s, (machine kind).Reachable s → (machine kind).Stuck s →
      s.todo = [] ∧ s.counter = 0 ∧
      ∀ w, s.cout.filter (Line.of w) = (kind w).intro w ++ [.finished w] := by
  refine ⟨fun run => descends.not_endless (InvImage.wf _ Nat.lt_wfRel.wf), fun s hr hstuck => ?_⟩
  obtain ⟨past, hs⟩ := reachable_held hr
  have htodo := returned_of_stuck hs hstuck
  have halong := hs.along
  rw [htodo] at halong
  have hdone := halong.all_done
  refine ⟨htodo, ?_, fun w => ?_⟩
  · rw [hs.counter, tally_eq_zero]
    intro w
    rw [hdone w]
    rfl
  · rw [hs.lines w, hdone w]
    rfl

theorem latch_end_last : ((machine threads).after (machine threads).init latchRun).counter = 0 := by
  refine (latch_end.2 _ (Machine.reachable_after (by decide)) fun a => ?_).2.1
  cases a with
  | main => decide
  | worker w =>
      revert w
      decide

end Latch

end LinuxSystems
