/-
The end of `coop_cancellation.cpp`.

Every step but one brings the program closer to its end: what keeps it from it is only a
worker that wakes up for no reason again and again.
-/
import LinuxSystems.Coop.Stands
import LinuxSystems.Machine.Endless

namespace LinuxSystems

namespace Coop

variable {s : Coop} {a : Action}

/-- The steps that the worker has left, until it wakes up for no reason. -/
def WorkerSite.left : WorkerSite → Nat
  | .absent => 8
  | .enroll => 8
  | .check => 4
  | .asleep => 3
  | .leave => 2
  | .work => 1
  | .done => 0

def StopperSite.left : StopperSite → Nat
  | .absent => 3
  | .request => 3
  | .executing => 2
  | .print => 1
  | .done => 0

/-- A callback that is kept has yet to be begun and finished, and may let the worker look again. -/
def left (s : Coop) : Nat :=
  5 * s.main.left + s.worker.left + s.stopper.left + 3 * s.stop.kept.length +
    2 * s.stop.running.toList.length

theorem kept_enroll_le (x : StopState Thread Callback) (t : Thread) (c : Callback) :
    (x.step (.enroll t c)).kept.length ≤ x.kept.length + 1 ∧
      (x.step (.enroll t c)).running = x.running := by
  cases hreq : x.requester with
  | none => simp [StopState.step_enroll_of_none hreq]
  | some r => simp [StopState.step_enroll_of_some hreq]

theorem kept_withdraw_le (x : StopState Thread Callback) (c : Callback) :
    (x.step (.withdraw c)).kept.length ≤ x.kept.length ∧
      (x.step (.withdraw c)).running = x.running :=
  ⟨List.length_erase_le, rfl⟩

theorem left_mainStep (hs : Stands s) (ha : s.enabled .main) : s.mainStep.left < s.left := by
  cases hm : s.main with
  | makeWorker =>
      have hw : s.worker = .absent := hs.worker.mpr (by simp [hm, MainSite.left])
      simp [Coop.mainStep, hm, left, MainSite.left, hw, WorkerSite.left]
  | makeCallback =>
      have hkept := kept_enroll_le s.stop .main .announce
      simp only [Coop.mainStep, hm, left, MainSite.left, hkept.2]
      omega
  | makeStopper =>
      have hst : s.stopper = .absent := hs.stopper.mpr (by simp [hm, MainSite.left])
      simp [Coop.mainStep, hm, left, MainSite.left, hst, StopperSite.left]
  | dropCallback =>
      have hkept := kept_withdraw_le s.stop .announce
      simp only [Coop.mainStep, hm, left, MainSite.left, hkept.2]
      omega
  | request =>
      have hst := hs.requester_of_done (hs.joined (by simp [hm, MainSite.left]))
      simp [Coop.mainStep, hm, left, MainSite.left, hst, StopState.step_request_of_some hst]
  | first | joinStopper | executing | joinWorker =>
      simp [Coop.mainStep, hm, left, MainSite.left]
  | returned => simp [enabled, mainReady, hm] at ha

theorem left_workerStep (ha : s.enabled .worker) : s.workerStep.left < s.left := by
  cases hw : s.worker with
  | enroll =>
      have hkept := kept_enroll_le s.stop .worker .wake
      simp only [Coop.workerStep, hw, left, WorkerSite.left, hkept.2]
      omega
  | check =>
      by_cases hreq : s.stop.requester = none
      · simp [Coop.workerStep, hw, left, WorkerSite.left, hreq]
      · simp [Coop.workerStep, hw, left, WorkerSite.left, hreq]
  | leave =>
      have hkept := kept_withdraw_le s.stop .wake
      simp only [Coop.workerStep, hw, left, WorkerSite.left, hkept.2]
      omega
  | work => simp [Coop.workerStep, hw, left, WorkerSite.left]
  | absent | asleep | done => simp [enabled, workerReady, hw] at ha

theorem left_stopperStep (hs : Stands s) (ha : s.enabled .stopper) :
    s.stopperStep.left < s.left := by
  cases hst : s.stopper with
  | request =>
      have hnone := hs.requester_none (Or.inr hst)
      simp [Coop.stopperStep, hst, left, StopperSite.left, hnone, StopState.step]
  | executing | print => simp [Coop.stopperStep, hst, left, StopperSite.left]
  | absent | done => simp [enabled, stopperReady, hst] at ha

theorem left_start {c : Callback} (ha : s.enabled (.start c)) :
    (s.step (.start c)).left < s.left := by
  obtain ⟨-, hrun, hmem⟩ := ha
  have hlen := List.length_erase_of_mem hmem
  have hpos := List.length_pos_of_mem hmem
  simp only [step, StopState.step, left, hrun, hlen, Option.toList, List.length_singleton,
    List.length_nil]
  omega

theorem left_finishStep (ha : s.enabled .finish) : s.finishStep.left < s.left := by
  obtain ⟨c, hc⟩ := Option.ne_none_iff_exists'.mp ha
  cases c with
  | announce => simp [Coop.finishStep, hc, left, StopState.step]
  | wake =>
      by_cases hw : s.worker = .asleep
      · simp [Coop.finishStep, hc, left, StopState.step, hw, WorkerSite.left]
        omega
      · simp [Coop.finishStep, hc, left, StopState.step, hw]

/-- Only waking up for no reason does not bring the program closer to its end. -/
theorem left_step (hs : Stands s) (ha : s.enabled a) (hne : a ≠ .spurious) :
    (s.step a).left < s.left := by
  cases a with
  | main => exact left_mainStep hs ha
  | worker => exact left_workerStep ha
  | stopper => exact left_stopperStep hs ha
  | spurious => exact absurd rfl hne
  | start c => exact left_start ha
  | finish => exact left_finishStep ha

/-- **Nobody is left asleep.**  Where nothing can be done but wake up for no reason, all
threads have come to their end. -/
theorem returned_of_stuck (hr : machine.Reachable s)
    (hstuck : ∀ a, a ≠ .spurious → ¬ machine.enabled s a) :
    s.main = .returned ∧ s.worker = .done ∧ s.stopper = .done := by
  have hs := reachable_stands hr
  have hno : ∀ a, a ≠ .spurious → ¬ s.enabled a := hstuck
  have hrun : s.stop.running = none := by
    by_contra hrun
    exact hno .finish (by simp) hrun
  have hmain := hno .main (by simp)
  have hworker := hno .worker (by simp)
  have hstopper := hno .stopper (by simp)
  have hst : s.stopper = .absent ∨ s.stopper = .done := by
    cases hst : s.stopper with
    | absent => exact Or.inl rfl
    | done => exact Or.inr rfl
    | request | print => simp [enabled, stopperReady, hst] at hstopper
    | executing =>
        have hkept : s.stop.kept = [] := by
          refine List.eq_nil_iff_forall_not_mem.mpr fun c hc => ?_
          exact hno (.start c) (by simp) ⟨Or.inr hst, hrun, hc⟩
        have hready : s.enabled .stopper := by
          simp [enabled, stopperReady, hst, StopState.Settled, hkept, hrun]
        exact absurd hready hstopper
  have hdone : s.stopper = .done := by
    refine hst.resolve_left fun habsent => ?_
    have hleft := hs.stopper.mp habsent
    cases hm : s.main <;> simp [hm, MainSite.left] at hleft <;>
      simp [enabled, mainReady, hm] at hmain
  have hsettled := (hs.announced (Or.inr hdone)).1
  have hw : s.worker = .absent ∨ s.worker = .done := by
    cases hw : s.worker with
    | absent => exact Or.inl rfl
    | done => exact Or.inr rfl
    | enroll | check | work => simp [enabled, workerReady, hw] at hworker
    | leave => simp [enabled, workerReady, hw, hrun] at hworker
    | asleep =>
        -- the callback that wakes it is neither kept nor being executed
        rcases hs.asleep hw with hkept | hwake
        · simp [hsettled.1] at hkept
        · simp [hrun] at hwake
  have hreturned : s.main = .returned := by
    cases hm : s.main with
    | returned => rfl
    | executing => exact absurd hm hs.mainSite.1
    | first | makeWorker | makeCallback | makeStopper | request =>
        simp [enabled, mainReady, hm] at hmain
    | joinStopper => simp [enabled, mainReady, hm, hdone] at hmain
    | dropCallback => simp [enabled, mainReady, hm, hrun] at hmain
    | joinWorker =>
        have hmade : s.worker ≠ .absent := fun h => by
          have hle := hs.worker.mp h
          simp [hm, MainSite.left] at hle
        simp [enabled, mainReady, hm, hw.resolve_left hmade] at hmain
  exact ⟨hreturned, hs.mainSite.2 hreturned, hdone⟩

/--
**The program comes to its end**, unless the worker wakes up for no reason again and again.  A
run that goes on for ever does so infinitely often, and where nothing else can be
done, all three threads have finished.
-/
theorem coop_ends : (∀ run : ℕ → Action, machine.Endless run →
      Machine.Forever run (· = .spurious)) ∧
    ∀ s, machine.Reachable s → (∀ a, a ≠ .spurious → ¬ machine.enabled s a) →
      s.main = .returned ∧ s.worker = .done ∧ s.stopper = .done := by
  refine ⟨fun run hrun => ?_, fun s hr hstuck => returned_of_stuck hr hstuck⟩
  exact hrun.forever fun s a hr ha hne => left_step (reachable_stands hr) ha hne

theorem coop_ends_sleeping : (machine.after machine.init (untilRequest ++ wakesUp ++
    executesCallback ++ saysSo ++ leaves)).main = .returned := by
  refine (coop_ends.2 _ (Machine.reachable_after (by decide)) ?_).1
  intro a hne
  cases a with
  | main => decide
  | worker => decide
  | stopper => decide
  | spurious => exact absurd rfl hne
  | start c => cases c <;> decide
  | finish => decide

end Coop

end LinuxSystems
