/-
Where the three threads of `coop_cancellation.cpp` stand.

The stopper is the one whose request counts, for `main` asks only after it has joined it.  Until
then the callback of `main` is kept, and the worker that looks before the request
finds its own callback kept, which will wake it.
-/
import LinuxSystems.Coop.Model

namespace LinuxSystems

namespace Coop

variable {s : Coop} {a : Action}

/-- The steps that `main` has left. -/
def MainSite.left : MainSite → Nat
  | .first => 9
  | .makeWorker => 8
  | .makeCallback => 7
  | .makeStopper => 6
  | .joinStopper => 5
  | .dropCallback => 4
  | .request => 3
  | .executing => 2
  | .joinWorker => 1
  | .returned => 0

structure Stands (s : Coop) : Prop where
  once : s.stop.Once
  /-- The stopper is the one whose request counts. -/
  requester : s.stop.requester =
    if s.stopper = .absent ∨ s.stopper = .request then none else some .stopper
  worker : s.worker = .absent ↔ 8 ≤ s.main.left
  stopper : s.stopper = .absent ↔ 6 ≤ s.main.left
  joined : s.main.left ≤ 4 → s.stopper = .done
  mainSite : s.main ≠ .executing ∧ (s.main = .returned → s.worker = .done)
  announceFresh : 7 ≤ s.main.left → s.stop.Fresh .announce
  /-- The callback of `main` is kept until the stopper executes it. -/
  announceKept : 4 ≤ s.main.left → s.main.left ≤ 6 →
    .announce ∈ s.stop.kept ∨ (.announce, .stopper) ∈ s.stop.executed
  announced : s.stopper = .print ∨ s.stopper = .done →
    s.stop.Settled ∧ (.announce, .stopper) ∈ s.stop.executed
  wakeFresh : s.worker = .absent ∨ s.worker = .enroll → s.stop.Fresh .wake
  /-- The worker looks before anybody has asked: then it will be woken. -/
  wakeKept : s.worker = .check → s.stop.requester = none → .wake ∈ s.stop.kept
  asleep : s.worker = .asleep → .wake ∈ s.stop.kept ∨ s.stop.running = some .wake
  running : s.stop.running ≠ none → s.stopper = .executing

namespace Stands

theorem requester_of_done (hs : Stands s) (hst : s.stopper = .done) :
    s.stop.requester = some .stopper := by
  simp [hs.requester, hst]

/-- Nobody has asked before the stopper has. -/
theorem requester_none (hs : Stands s) (hst : s.stopper = .absent ∨ s.stopper = .request) :
    s.stop.requester = none := by
  rw [hs.requester, if_pos hst]

theorem mainStep (hs : Stands s) (ha : s.enabled .main) : Stands s.mainStep := by
  -- the last line that `main` has passed decides what holds of the others
  have hnone := hs.requester_none
  have hsome := hs.requester_of_done
  obtain ⟨once, requester, worker, stopper, joined, mainSite, announceFresh, announceKept,
    announced, wakeFresh, wakeKept, asleep, running⟩ := hs
  cases hm : s.main with
  | first =>
      simp only [Coop.mainStep, hm]
      constructor <;> simp_all [MainSite.left]
  | makeWorker =>
      simp only [Coop.mainStep, hm]
      constructor <;> simp_all [MainSite.left]
  | makeCallback =>
      have hfresh : s.stop.enabled (.enroll .main .announce) :=
        announceFresh (by simp [hm, MainSite.left])
      have habsent : s.stopper = .absent := stopper.mpr (by simp [hm, MainSite.left])
      have hreq := hnone (Or.inl habsent)
      have honce := once.step hfresh
      simp only [Coop.mainStep, hm]
      rw [StopState.step_enroll_of_none hreq] at honce ⊢
      constructor <;> simp_all [MainSite.left, StopState.Fresh]
  | makeStopper =>
      simp only [Coop.mainStep, hm]
      constructor <;> simp_all [MainSite.left]
  | joinStopper =>
      simp only [Coop.mainStep, hm]
      constructor <;> simp_all [MainSite.left, enabled, mainReady]
  | dropCallback =>
      have hdone : s.stopper = .done := joined (by simp [hm, MainSite.left])
      have hkept : .announce ∉ s.stop.kept := by simp [(announced (Or.inr hdone)).1.1]
      simp only [Coop.mainStep, hm]
      rw [StopState.step_withdraw_of_notMem hkept]
      constructor <;> simp_all [MainSite.left]
  | request =>
      have hdone : s.stopper = .done := joined (by simp [hm, MainSite.left])
      have hreq := hsome hdone
      simp only [Coop.mainStep, hm]
      rw [StopState.step_request_of_some hreq]
      constructor <;> simp_all [MainSite.left]
  | executing => exact absurd hm mainSite.1
  | joinWorker =>
      simp only [Coop.mainStep, hm]
      constructor <;> simp_all [MainSite.left, enabled, mainReady]
  | returned => simp [enabled, mainReady, hm] at ha

/-- A worker that is there has been made. -/
theorem made (hs : Stands s) (hw : s.worker ≠ .absent) (x : WorkerSite) (hx : x ≠ .absent) :
    x = .absent ↔ 8 ≤ s.main.left :=
  iff_of_false hx fun hle => hw (hs.worker.mpr hle)

theorem workerStep (hs : Stands s) (ha : s.enabled .worker) : Stands s.workerStep := by
  cases hw : s.worker with
  | enroll =>
      have hfresh : s.stop.enabled (.enroll .worker .wake) := hs.wakeFresh (Or.inr hw)
      have honce := hs.once.step hfresh
      simp only [Coop.workerStep, hw]
      cases hreq : s.stop.requester with
      | none =>
          have hearly : ∀ x, s.stopper = x → x = .absent ∨ x = .request := by
            intro x hx
            by_contra hlate
            simp [hs.requester, hx, hlate] at hreq
          rw [StopState.step_enroll_of_none hreq] at honce ⊢
          exact { hs with
            once := honce
            worker := hs.made (by simp [hw]) _ (by simp)
            mainSite := ⟨hs.mainSite.1, fun hm => by simpa [hw] using hs.mainSite.2 hm⟩
            announceFresh := fun hm => by simpa [StopState.Fresh] using hs.announceFresh hm
            announceKept := fun hm hm' =>
              (hs.announceKept hm hm').imp_left (List.mem_append_left _)
            announced := fun hst => by
              rcases hst with hst | hst <;> simpa using hearly _ hst
            wakeFresh := fun h => by simp at h
            wakeKept := fun _ _ => by simp
            asleep := fun h => by simp at h }
      | some r =>
          rw [StopState.step_enroll_of_some hreq] at honce ⊢
          exact { hs with
            once := honce
            worker := hs.made (by simp [hw]) _ (by simp)
            mainSite := ⟨hs.mainSite.1, fun hm => by simpa [hw] using hs.mainSite.2 hm⟩
            announceFresh := fun hm => by simpa [StopState.Fresh] using hs.announceFresh hm
            announceKept := fun hm hm' =>
              (hs.announceKept hm hm').imp_right (List.mem_append_left _)
            announced := fun hst => (hs.announced hst).imp_right (List.mem_append_left _)
            wakeFresh := fun h => by simp at h
            wakeKept := fun _ hnone => by simp [hreq] at hnone
            asleep := fun h => by simp at h }
  | check =>
      simp only [Coop.workerStep, hw]
      by_cases hreq : s.stop.requester = none
      · rw [if_pos hreq]
        exact { hs with
          worker := hs.made (by simp [hw]) _ (by simp)
          mainSite := ⟨hs.mainSite.1, fun hm => by simpa [hw] using hs.mainSite.2 hm⟩
          wakeFresh := fun h => by simp at h
          wakeKept := fun h => by simp at h
          asleep := fun _ => Or.inl (hs.wakeKept hw hreq) }
      · rw [if_neg hreq]
        exact { hs with
          worker := hs.made (by simp [hw]) _ (by simp)
          mainSite := ⟨hs.mainSite.1, fun hm => by simpa [hw] using hs.mainSite.2 hm⟩
          wakeFresh := fun h => by simp at h
          wakeKept := fun h => by simp at h
          asleep := fun h => by simp at h }
  | leave =>
      have hne : s.stop.enabled (.withdraw .wake) := by
        simpa [enabled, workerReady, hw, StopState.enabled] using ha
      simp only [Coop.workerStep, hw]
      exact { hs with
        once := hs.once.step hne
        worker := hs.made (by simp [hw]) _ (by simp)
        mainSite := ⟨hs.mainSite.1, fun hm => by simpa [hw] using hs.mainSite.2 hm⟩
        announceFresh := fun hm => by
          have hfresh := hs.announceFresh hm
          simp_all [StopState.Fresh, StopState.step]
        announceKept := fun hm hm' => by simpa [StopState.step] using hs.announceKept hm hm'
        announced := fun hst => by
          obtain ⟨⟨hkept, hrun⟩, hex⟩ := hs.announced hst
          exact ⟨⟨by simp [StopState.step, hkept], hrun⟩, hex⟩
        wakeFresh := fun h => by simp at h
        wakeKept := fun h => by simp at h
        asleep := fun h => by simp at h }
  | work =>
      simp only [Coop.workerStep, hw]
      exact { hs with
        worker := hs.made (by simp [hw]) _ (by simp)
        mainSite := ⟨hs.mainSite.1, fun _ => rfl⟩
        wakeFresh := fun h => by simp at h
        wakeKept := fun h => by simp at h
        asleep := fun h => by simp at h }
  | absent => simp [enabled, workerReady, hw] at ha
  | asleep => simp [enabled, workerReady, hw] at ha
  | done => simp [enabled, workerReady, hw] at ha

theorem stopperStep (hs : Stands s) (ha : s.enabled .stopper) : Stands s.stopperStep := by
  have hmade : s.stopper ≠ .absent → ∀ x : StopperSite, x ≠ .absent →
      (x = .absent ↔ 6 ≤ s.main.left) :=
    fun hst x hx => iff_of_false hx fun hle => hst (hs.stopper.mpr hle)
  cases hst : s.stopper with
  | request =>
      have hreq := hs.requester_none (Or.inr hst)
      have honce := hs.once.step (a := .request .stopper) trivial
      simp only [Coop.stopperStep, hst]
      rw [if_pos hreq]
      rw [StopState.step_request_of_none hreq] at honce ⊢
      exact { hs with
        once := honce
        requester := by simp
        stopper := hmade (by simp [hst]) _ (by simp)
        joined := fun hm => by simpa [hst] using hs.joined hm
        announced := fun h => by simp at h
        wakeKept := fun _ hnone => by simp at hnone
        running := fun _ => rfl }
  | executing =>
      have hsettled : s.stop.Settled := by simpa [enabled, stopperReady, hst] using ha
      have hlate : ¬ s.main.left ≤ 4 := fun hm => by simpa [hst] using hs.joined hm
      have hearly : ¬ 6 ≤ s.main.left := fun hm => by simpa [hst] using hs.stopper.mpr hm
      simp only [Coop.stopperStep, hst]
      exact { hs with
        requester := by simp [hs.requester, hst]
        stopper := hmade (by simp [hst]) _ (by simp)
        joined := fun hm => absurd hm hlate
        announced := fun _ => by
          refine ⟨hsettled, (hs.announceKept (by omega) (by omega)).resolve_left ?_⟩
          simp [hsettled.1]
        running := fun hrun => absurd hsettled.2 hrun }
  | print =>
      simp only [Coop.stopperStep, hst]
      exact { hs with
        requester := by simp [hs.requester, hst]
        stopper := hmade (by simp [hst]) _ (by simp)
        joined := fun _ => rfl
        announced := fun _ => hs.announced (Or.inl hst)
        running := fun hrun => absurd (hs.announced (Or.inl hst)).1.2 hrun }
  | absent => simp [enabled, stopperReady, hst] at ha
  | done => simp [enabled, stopperReady, hst] at ha

/-- The worker wakes up and looks again: if nobody has asked, it will still be woken. -/
theorem awake (hs : Stands s) (hw : s.worker = .asleep) (hreq : s.stop.requester = none) :
    .wake ∈ s.stop.kept := by
  refine (hs.asleep hw).resolve_right fun hrun => ?_
  have hst := hs.running (by simp [hrun])
  simp [hs.requester, hst] at hreq

theorem spurious (hs : Stands s) (ha : s.enabled .spurious) :
    Stands { s with worker := .check } := by
  have hw : s.worker = .asleep := ha
  exact { hs with
    worker := hs.made (by simp [hw]) _ (by simp)
    mainSite := ⟨hs.mainSite.1, fun hm => by simpa [hw] using hs.mainSite.2 hm⟩
    wakeFresh := fun h => by simp at h
    wakeKept := fun _ hreq => hs.awake hw hreq
    asleep := fun h => by simp at h }

theorem start {c : Callback} (hs : Stands s) (ha : s.enabled (.start c)) :
    Stands { s with stop := s.stop.step (.start c) } := by
  obtain ⟨hex, hrun, hmem⟩ := ha
  have hst : s.stopper = .executing := hex.resolve_left hs.mainSite.1
  have hreq : s.stop.requester = some .stopper := by simp [hs.requester, hst]
  have honce := hs.once.step (a := .start c) ⟨by simp [hreq], hrun, hmem⟩
  rw [StopState.step_start hreq] at honce ⊢
  exact { hs with
    once := honce
    announceFresh := fun (hm : 7 ≤ s.main.left) => by
      have habsent := hs.stopper.mpr (by omega)
      simp [hst] at habsent
    announceKept := fun hm hm' => by
      rcases hs.announceKept hm hm' with hkept | hexec
      · by_cases hc : c = .announce
        · simp [hc]
        · exact Or.inl ((List.mem_erase_of_ne (Ne.symm hc)).mpr hkept)
      · exact Or.inr (List.mem_append_left _ hexec)
    announced := fun h => by simp [hst] at h
    wakeFresh := fun h => by
      obtain ⟨hk, hx, hwd⟩ := hs.wakeFresh h
      have hc : Callback.wake ≠ c := fun hc => hk (hc ▸ hmem)
      refine ⟨fun hk' => hk (List.mem_of_mem_erase hk'), ?_, hwd⟩
      simpa [hc] using hx
    wakeKept := fun _ hnone => by simp [hreq] at hnone
    asleep := fun hw => by
      have hkept := (hs.asleep hw).resolve_right (by simp [hrun])
      by_cases hc : c = .wake
      · exact Or.inr (congrArg some hc)
      · exact Or.inl ((List.mem_erase_of_ne (Ne.symm hc)).mpr hkept)
    running := fun _ => hst }

theorem finishStep (hs : Stands s) (ha : s.enabled .finish) : Stands s.finishStep := by
  have hst := hs.running ha
  have hreq : s.stop.requester = some .stopper := by simp [hs.requester, hst]
  obtain ⟨c, hc⟩ := Option.ne_none_iff_exists'.mp ha
  have honce := hs.once.step (a := .finish) ha
  cases c with
  | announce =>
      simp only [Coop.finishStep, hc]
      exact { hs with
        once := honce
        announced := fun h => by simp [hst] at h
        asleep := fun hw => Or.inl ((hs.asleep hw).resolve_right (by simp [hc]))
        running := fun _ => hst }
  | wake =>
      simp only [Coop.finishStep, hc]
      exact { hs with
        once := honce
        worker := by
          by_cases hw : s.worker = .asleep
          · rw [if_pos hw]
            exact hs.made (by simp [hw]) _ (by simp)
          · rw [if_neg hw]
            exact hs.worker
        mainSite := by
          refine ⟨hs.mainSite.1, fun hm => ?_⟩
          have hw := hs.mainSite.2 hm
          simp [hw]
        announced := fun h => by simp [hst] at h
        wakeFresh := fun h => by
          by_cases hw : s.worker = .asleep
          · simp [hw] at h
          · rw [if_neg hw] at h
            exact hs.wakeFresh h
        wakeKept := fun _ hnone => by simp [StopState.step, hreq] at hnone
        asleep := fun h => by
          by_cases hw : s.worker = .asleep
          · simp [hw] at h
          · rw [if_neg hw] at h
            exact absurd h hw
        running := fun _ => hst }

theorem step (hs : Stands s) (ha : s.enabled a) : Stands (s.step a) := by
  cases a with
  | main => exact hs.mainStep ha
  | worker => exact hs.workerStep ha
  | stopper => exact hs.stopperStep ha
  | spurious => exact hs.spurious ha
  | start c => exact hs.start ha
  | finish => exact hs.finishStep ha

end Stands

theorem reachable_stands (hr : machine.Reachable s) : Stands s := by
  refine hr.invariant (P := Stands) ?_ fun s a _ hs ha => hs.step ha
  constructor <;> simp [machine, StopState.machine, MainSite.left, StopState.Fresh]
  exact StopState.reachable_once Machine.Reachable.init

end Coop

end LinuxSystems
