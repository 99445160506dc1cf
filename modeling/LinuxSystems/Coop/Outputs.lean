/-
The outputs of `coop_cancellation.cpp`.

What the program prints depends on the scheduler only in where the line of the worker
stands, which is anywhere behind the first line.
-/
import LinuxSystems.Coop.Stands

namespace LinuxSystems

namespace Coop

variable {s : Coop}

def mainLines (s : Coop) : List Line := if s.main = .first then [] else [.mainThread]

def workerLines (s : Coop) : List Line := if s.worker = .done then [.working] else []

/-- The callback says so when it is done, and the stopper when its request is. -/
def stopperLines (s : Coop) : List Line :=
  (if (.announce, .stopper) ∈ s.stop.executed ∧ s.stop.running ≠ some .announce then
    [.callbackExecuted .stopper] else []) ++
  if s.stopper = .done then [.requestExecuted .stopper] else []

/-- The line of the worker stands anywhere behind the first line. -/
def Printed (s : Coop) : Prop := ∃ rest, s.cout = s.mainLines ++ rest ∧
  rest.filter (· = .working) = s.workerLines ∧ rest.filter (· ≠ .working) = s.stopperLines

/-- Nothing is printed. -/
theorem Printed.keep {s' : Coop} (hp : Printed s) (hcout : s'.cout = s.cout)
    (hmain : s'.mainLines = s.mainLines) (hworker : s'.workerLines = s.workerLines)
    (hstopper : s'.stopperLines = s.stopperLines) : Printed s' := by
  obtain ⟨rest, hrest, hw, hst⟩ := hp
  exact ⟨rest, by rw [hcout, hmain, hrest], by rw [hworker, hw], by rw [hstopper, hst]⟩

/-- A line behind the first one. -/
theorem Printed.line {s' : Coop} {l : Line} (hp : Printed s) (hcout : s'.cout = s.cout ++ [l])
    (hmain : s'.mainLines = s.mainLines)
    (hworker : s'.workerLines = s.workerLines ++ [l].filter (· = .working))
    (hstopper : s'.stopperLines = s.stopperLines ++ [l].filter (· ≠ .working)) :
    Printed s' := by
  obtain ⟨rest, hrest, hw, hst⟩ := hp
  refine ⟨rest ++ [l], ?_, ?_, ?_⟩
  · rw [hcout, hmain, hrest, List.append_assoc]
  · rw [List.filter_append, hw, hworker]
  · rw [List.filter_append, hst, hstopper]

theorem Printed.mainStep (hp : Printed s) (hs : Stands s) : Printed s.mainStep := by
  have hreq := hs.requester_none
  cases hm : s.main with
  | first =>
      -- nothing is printed before the first line
      obtain ⟨rest, hrest, hw, hst⟩ := hp
      have hleft : s.main.left = 9 := by rw [hm]; rfl
      have habsent : s.worker = .absent := hs.worker.mpr (by omega)
      have habsent' : s.stopper = .absent := hs.stopper.mpr (by omega)
      have hfresh := (hs.announceFresh (by omega)).2.1
      have hno : (Callback.announce, Thread.stopper) ∉ s.stop.executed :=
        fun hmem => hfresh (List.mem_map_of_mem hmem)
      rw [workerLines, if_neg (by simp [habsent]), List.filter_eq_nil_iff] at hw
      rw [stopperLines, if_neg (by simp [hno]), if_neg (by simp [habsent']), List.append_nil,
        List.filter_eq_nil_iff] at hst
      have hnil : rest = [] := by
        refine List.eq_nil_iff_forall_not_mem.mpr fun l hl => ?_
        exact hst l hl (by simpa using hw l hl)
      refine ⟨[], ?_, ?_, ?_⟩
      · simp [Coop.mainStep, hm, hrest, hnil, mainLines]
      · simp [Coop.mainStep, hm, workerLines, habsent]
      · simp [Coop.mainStep, hm, stopperLines, hno, habsent']
  | makeCallback =>
      have habsent : s.stopper = .absent := hs.stopper.mpr (by simp [hm, MainSite.left])
      have hnone := hreq (Or.inl habsent)
      refine hp.keep ?_ ?_ ?_ ?_ <;>
        simp [Coop.mainStep, hm, mainLines, workerLines, stopperLines, hnone, StopState.step]
  | makeStopper =>
      have habsent : s.stopper = .absent := hs.stopper.mpr (by simp [hm, MainSite.left])
      refine hp.keep ?_ ?_ ?_ ?_ <;>
        simp [Coop.mainStep, hm, mainLines, workerLines, stopperLines, habsent]
  | makeWorker =>
      have habsent : s.worker = .absent := hs.worker.mpr (by simp [hm, MainSite.left])
      refine hp.keep ?_ ?_ ?_ ?_ <;>
        simp [Coop.mainStep, hm, mainLines, workerLines, stopperLines, habsent]
  | request =>
      refine hp.keep ?_ ?_ ?_ ?_ <;>
        simp [Coop.mainStep, hm, mainLines, workerLines, stopperLines, StopState.step]
      split <;> simp
  | joinStopper | dropCallback | executing | joinWorker | returned =>
      refine hp.keep ?_ ?_ ?_ ?_ <;>
        simp [Coop.mainStep, hm, mainLines, workerLines, stopperLines, StopState.step]

theorem Printed.workerStep (hp : Printed s) : Printed s.workerStep := by
  cases hw : s.worker with
  | enroll =>
      refine hp.keep ?_ ?_ ?_ ?_ <;>
        simp [Coop.workerStep, hw, mainLines, workerLines, stopperLines, StopState.step]
      cases s.stop.requester <;> simp
  | check =>
      refine hp.keep ?_ ?_ ?_ ?_ <;>
        simp [Coop.workerStep, hw, mainLines, workerLines, stopperLines]
      split <;> simp
  | work =>
      refine hp.line (l := .working) ?_ ?_ ?_ ?_ <;>
        simp [Coop.workerStep, hw, mainLines, workerLines, stopperLines]
  | leave | absent | asleep | done =>
      refine hp.keep ?_ ?_ ?_ ?_ <;>
        simp [Coop.workerStep, hw, mainLines, workerLines, stopperLines, StopState.step]

theorem Printed.stopperStep (hp : Printed s) (hs : Stands s) : Printed s.stopperStep := by
  cases hst : s.stopper with
  | request =>
      have hnone := hs.requester_none (Or.inr hst)
      refine hp.keep ?_ ?_ ?_ ?_ <;>
        simp [Coop.stopperStep, hst, mainLines, workerLines, stopperLines, hnone, StopState.step]
  | print =>
      refine hp.line (l := .requestExecuted .stopper) ?_ ?_ ?_ ?_ <;>
        simp [Coop.stopperStep, hst, mainLines, workerLines, stopperLines]
  | executing | absent | done =>
      refine hp.keep ?_ ?_ ?_ ?_ <;>
        simp [Coop.stopperStep, hst, mainLines, workerLines, stopperLines]

theorem Printed.start {c : Callback} (hp : Printed s) (hs : Stands s)
    (ha : s.enabled (.start c)) : Printed { s with stop := s.stop.step (.start c) } := by
  obtain ⟨hex, hrun, hmem⟩ := ha
  have hst : s.stopper = .executing := hex.resolve_left hs.mainSite.1
  have hreq : s.stop.requester = some .stopper := by simp [hs.requester, hst]
  rw [StopState.step_start hreq]
  refine hp.keep rfl rfl rfl ?_
  cases c with
  | announce =>
      have hno : (Callback.announce, Thread.stopper) ∉ s.stop.executed := by
        intro hexec
        have hnodup := (List.nodup_append.mp (List.nodup_append.mp hs.once.nodup).1).2.2
        exact hnodup _ hmem _ (List.mem_map_of_mem hexec) rfl
      simp [stopperLines, hno]
  | wake => simp [stopperLines, hrun]

theorem Printed.finishStep (hp : Printed s) (hs : Stands s) (ha : s.enabled .finish) :
    Printed s.finishStep := by
  have hst := hs.running ha
  have hreq : s.stop.requester = some .stopper := by simp [hs.requester, hst]
  obtain ⟨c, hc⟩ := Option.ne_none_iff_exists'.mp ha
  cases c with
  | announce =>
      have hearly : ¬ 6 ≤ s.main.left := fun hm => by simpa [hst] using hs.stopper.mpr hm
      have hlate : ¬ s.main.left ≤ 4 := fun hm => by simpa [hst] using hs.joined hm
      have hexec : (Callback.announce, Thread.stopper) ∈ s.stop.executed := by
        refine (hs.announceKept (by omega) (by omega)).resolve_left fun hkept => ?_
        have hnodup := (List.nodup_append.mp (List.nodup_append.mp hs.once.nodup).1).2.2
        exact hnodup _ hkept _ (hs.once.running _ hc) rfl
      refine hp.line (l := .callbackExecuted .stopper) ?_ ?_ ?_ ?_ <;>
        simp [Coop.finishStep, hc, hreq, mainLines, workerLines, stopperLines, hst, hexec,
          StopState.step]
  | wake =>
      refine hp.keep ?_ ?_ ?_ ?_ <;>
        simp [Coop.finishStep, hc, mainLines, workerLines, stopperLines, StopState.step]
      by_cases hw : s.worker = .asleep <;> simp [hw]

theorem reachable_printed (hr : machine.Reachable s) : Printed s := by
  refine hr.invariant (P := Printed) ⟨[], rfl, rfl, rfl⟩ ?_
  intro s a hr hp ha
  have hs := reachable_stands hr
  cases a with
  | main => exact hp.mainStep hs
  | worker => exact hp.workerStep
  | stopper => exact hp.stopperStep hs
  | spurious =>
      have hw : s.worker = .asleep := ha
      refine hp.keep rfl rfl ?_ rfl
      show (if WorkerSite.check = .done then [Line.working] else []) = s.workerLines
      simp [workerLines, hw]
  | start c => exact hp.start hs ha
  | finish => exact hp.finishStep hs ha

/-- One element stands between some of the others and the rest of them. -/
theorem eq_append_of_filter {α : Type*} [DecidableEq α] {x : α} {l m : List α}
    (hone : l.filter (· = x) = [x]) (hrest : l.filter (· ≠ x) = m) :
    ∃ m₁ m₂, m = m₁ ++ m₂ ∧ l = m₁ ++ x :: m₂ := by
  induction l generalizing m with
  | nil => simp at hone
  | cons y l ih =>
      by_cases hy : y = x
      · subst hy
        have hnone : l.filter (· = y) = [] := by simpa using hone
        have hall : l.filter (· ≠ y) = l := by
          refine List.filter_eq_self.mpr fun z hz => ?_
          simpa using List.filter_eq_nil_iff.mp hnone z hz
        refine ⟨[], m, rfl, ?_⟩
        rw [← hrest, List.filter_cons_of_neg (by simp), hall, List.nil_append]
      · rw [List.filter_cons_of_neg (by simpa using hy)] at hone
        rw [List.filter_cons_of_pos (by simpa using hy)] at hrest
        obtain ⟨m₁, m₂, hm, hl⟩ := ih hone rfl
        exact ⟨y :: m₁, m₂, by rw [← hrest, hm, List.cons_append], by rw [hl, List.cons_append]⟩

/--
**What the program prints.**  Its first line, and behind it the callback's line and then
the line about the request, both of the stopper, with the line of the worker before, between or
behind the two.
-/
theorem cout_iff (l : List Line) :
    (∃ s, machine.Reachable s ∧ s.main = .returned ∧ s.cout = l) ↔
      l = [.mainThread, .working, .callbackExecuted .stopper, .requestExecuted .stopper] ∨
      l = [.mainThread, .callbackExecuted .stopper, .working, .requestExecuted .stopper] ∨
      l = [.mainThread, .callbackExecuted .stopper, .requestExecuted .stopper, .working] := by
  constructor
  · rintro ⟨s, hr, hm, rfl⟩
    have hs := reachable_stands hr
    have hw : s.worker = .done := hs.mainSite.2 hm
    have hst : s.stopper = .done := hs.joined (by simp [hm, MainSite.left])
    obtain ⟨hsettled, hexec⟩ := hs.announced (Or.inr hst)
    obtain ⟨rest, hrest, hone, htwo⟩ := reachable_printed hr
    have hstopper : s.stopperLines = [.callbackExecuted .stopper, .requestExecuted .stopper] := by
      simp [stopperLines, hexec, hsettled.2, hst]
    rw [workerLines, if_pos hw] at hone
    rw [hstopper] at htwo
    have hmain : s.mainLines = [.mainThread] := by simp [mainLines, hm]
    obtain ⟨m₁, m₂, hm12, hl⟩ := eq_append_of_filter hone htwo
    rw [hrest, hmain, hl]
    simp only [List.cons_eq_append_iff, List.nil_eq_append_iff] at hm12
    rcases hm12 with ⟨rfl, rfl⟩ | ⟨_, rfl, ⟨rfl, rfl⟩ | ⟨_, rfl, rfl, rfl⟩⟩
    · exact Or.inl rfl
    · exact Or.inr (Or.inl rfl)
    · exact Or.inr (Or.inr rfl)
  · rintro (rfl | rfl | rfl)
    · exact ⟨_, ⟨untilRequest ++ wakesUp ++ executesCallback ++ saysSo ++ leaves, by decide, rfl⟩,
        rfl, rfl⟩
    · exact ⟨_, ⟨untilRequest ++ executesCallback ++ wakesUp ++ saysSo ++ leaves, by decide, rfl⟩,
        rfl, rfl⟩
    · exact ⟨_, ⟨untilRequest ++ executesCallback ++ saysSo ++ wakesUp ++ leaves, by decide, rfl⟩,
        rfl, rfl⟩

end Coop

end LinuxSystems
