/-
Which regions have their size.

The parent that removes the name of a region has given the region its size before.  So only the
one that the name stands for may still be empty, and it is not where the parent of the last run is
past its `ftruncate`: then no child is killed at its `memcpy`, whatever region it has opened.
-/
import LinuxSystems.ShmExample.Runs

namespace LinuxSystems.ShmExample

variable {s : ShmExample} {a : Action} {r q : Nat} {ok : Bool}

/-- The parent has its region open under its name. -/
def ParentSite.hasOpened : ParentSite → Bool
  | .ftruncate | .mmap | .semWaitProd | .memcpy | .semPostCons | .waitpid | .munmap
  | .shmUnlink => true
  | .idle | .semOpenProd | .semOpenCons | .semPostProd | .fork | .shmOpen | .semUnlinkProd
  | .semUnlinkCons | .exited | .threw => false

/-- The parent is past its `ftruncate`. -/
def ParentSite.hasSized : ParentSite → Bool
  | .mmap | .semWaitProd | .memcpy | .semPostCons | .waitpid | .munmap | .shmUnlink => true
  | .idle | .semOpenProd | .semOpenCons | .semPostProd | .fork | .shmOpen | .ftruncate
  | .semUnlinkProd | .semUnlinkCons | .exited | .threw => false

structure Regions (s : ShmExample) : Prop where
  older : ∀ o, o < s.current → s.sized o = true
  opened : ∀ r, (s.runs r).childRegion ≤ s.current
  parent : ∀ r, (s.runs r).parent.hasOpened = true → (s.runs r).parentRegion = s.current
  sized : ∀ r, (s.runs r).parent.hasSized = true → s.sized s.current = true

theorem Regions.sized_childRegion (h : Regions s) (hr : (s.runs r).parent.hasSized = true)
    (q : Nat) : s.sized (s.runs q).childRegion = true := by
  rcases Nat.lt_or_eq_of_le (h.opened q) with hlt | heq
  · exact h.older _ hlt
  · rw [heq]
    exact h.sized r hr

/-- A parent that has ended has nothing open any more. -/
theorem hasOpened_of_hasEnded {x : ParentSite} (h : x.hasEnded = true) : x.hasOpened = false := by
  cases x with
  | exited | threw => rfl
  | _ => cases h

theorem hasOpened_of_hasSized {x : ParentSite} (h : x.hasSized = true) : x.hasOpened = true := by
  cases x with
  | mmap | semWaitProd | memcpy | semPostCons | waitpid | munmap | shmUnlink => rfl
  | _ => cases h

/-- A step of one run that leaves the name and the sizes. -/
theorem Regions.moved {s' : ShmExample} (h : Regions s) (hcurrent : s'.current = s.current)
    (hsized : s'.sized = s.sized) (hothers : ∀ q, q ≠ r → s'.runs q = s.runs q)
    (hchild : (s'.runs r).childRegion ≤ s.current)
    (hopened : (s'.runs r).parent.hasOpened = true → (s'.runs r).parentRegion = s.current)
    (hlengthened : (s'.runs r).parent.hasSized = true → (s.runs r).parent.hasSized = true) :
    Regions s' := by
  refine ⟨?_, ?_, ?_, ?_⟩
  · rw [hcurrent, hsized]
    exact h.older
  · rw [hcurrent]
    exact forall_runs (P := fun run => run.childRegion ≤ s.current) h.opened hothers hchild
  · rw [hcurrent]
    exact forall_runs (P := fun run => run.parent.hasOpened = true → run.parentRegion = s.current)
      h.parent hothers hopened
  · rw [hcurrent, hsized]
    exact forall_runs (P := fun run => run.parent.hasSized = true → s.sized s.current = true)
      h.sized hothers fun hr => h.sized r (hlengthened hr)

/-- The parent of `r` goes on, and does nothing else. -/
theorem Regions.setParent {s' : ShmExample} {p : ParentSite} (h : Regions s)
    (hcurrent : s'.current = s.current) (hsized : s'.sized = s.sized)
    (hruns : s'.runs = (s.setParent r p).runs)
    (hopened : p.hasOpened = true → (s.runs r).parent.hasOpened = true)
    (hlengthened : p.hasSized = true → (s.runs r).parent.hasSized = true) : Regions s' := by
  have hrun : s'.runs r = { s.runs r with parent := p } := by
    rw [hruns]
    exact setRun_self ..
  refine h.moved (r := r) hcurrent hsized (fun q hq => ?_) ?_ ?_ ?_
  · rw [hruns]
    exact setRun_of_ne hq ..
  · rw [hrun]
    exact h.opened r
  · rw [hrun]
    exact fun hp => h.parent r (hopened hp)
  · rw [hrun]
    exact hlengthened

theorem Regions.ftruncate (h : Regions s) (hat : (s.runs r).parent = .ftruncate) :
    Regions { s.setRun r { s.runs r with parent := .mmap, truncated := true } with
      sized := Function.update s.sized (s.runs r).parentRegion true } := by
  have hregion : (s.runs r).parentRegion = s.current := h.parent r (by rw [hat]; rfl)
  rw [hregion]
  refine ⟨fun o ho => ?_, ?_, ?_, fun q _ => Function.update_self ..⟩
  · have hlt : o < s.current := ho
    show Function.update s.sized s.current true o = true
    rw [Function.update_of_ne (Nat.ne_of_lt hlt)]
    exact h.older o hlt
  · refine forall_runs (r := r) (P := fun run => run.childRegion ≤ s.current) h.opened
      (fun q hq => setRun_of_ne hq ..) ?_
    rw [setRun_self]
    exact h.opened r
  · refine forall_runs (r := r)
      (P := fun run => run.parent.hasOpened = true → run.parentRegion = s.current) h.parent
      (fun q hq => setRun_of_ne hq ..) ?_
    rw [setRun_self]
    exact fun _ => hregion

/-- The name is removed by a parent that has given the region its size. -/
theorem Regions.shmUnlink (h : Regions s) (hs : Sound s) (hcount : r + 1 = s.count)
    (hat : (s.runs r).parent = .shmUnlink) :
    Regions { s.setParent r .exited with region := false, current := s.current + 1 } := by
  have hsized : s.sized s.current = true := h.sized r (by rw [hat]; rfl)
  -- nobody else has a region open under its name
  have hno : ∀ q, ((s.setParent r .exited).runs q).parent.hasOpened = false := by
    intro q
    by_cases hq : q = r
    · rw [hq, ShmExample.setParent, setRun_self]
      rfl
    · rw [ShmExample.setParent, setRun_of_ne hq]
      rcases Nat.lt_or_ge (q + 1) s.count with hlt | hge
      · exact hasOpened_of_hasEnded (hs.earlier q hlt)
      · rw [hs.idle q (by omega)]
        rfl
  refine ⟨fun o ho => ?_, ?_, fun q hq => ?_, fun q hq => ?_⟩
  · have hlt : o < s.current + 1 := ho
    show s.sized o = true
    rcases Nat.lt_or_eq_of_le (Nat.lt_succ_iff.mp hlt) with hlt | rfl
    · exact h.older o hlt
    · exact hsized
  · refine forall_runs (r := r) (P := fun run => run.childRegion ≤ s.current + 1)
      (fun q => Nat.le_succ_of_le (h.opened q)) (fun q hq => setRun_of_ne hq ..) ?_
    show ((s.setParent r .exited).runs r).childRegion ≤ s.current + 1
    rw [ShmExample.setParent, setRun_self]
    exact Nat.le_succ_of_le (h.opened r)
  · have hopened : ((s.setParent r .exited).runs q).parent.hasOpened = true := hq
    rw [hno q] at hopened
    cases hopened
  · have hopened : ((s.setParent r .exited).runs q).parent.hasOpened = true :=
      hasOpened_of_hasSized hq
    rw [hno q] at hopened
    cases hopened

theorem Regions.parentStep (h : Regions s) (hs : Sound s) (ha : s.parentEnabled r ok = true) :
    Regions (s.parentStep r ok) := by
  have hcount := hs.current ha
  unfold parentEnabled at ha
  unfold ShmExample.parentStep
  cases hat : (s.runs r).parent with
  | idle | exited | threw => simp [hat] at ha
  | semOpenProd | semOpenCons | semPostProd | semUnlinkProd | semUnlinkCons =>
      exact h.setParent (r := r) rfl rfl rfl (fun hp => Bool.noConfusion hp)
        fun hp => Bool.noConfusion hp
  | semWaitProd | semPostCons | waitpid =>
      exact h.setParent (r := r) rfl rfl rfl (fun _ => by rw [hat]; rfl) fun _ => by rw [hat]; rfl
  | mmap | munmap =>
      cases ok
      · exact h.setParent (r := r) rfl rfl rfl (fun hp => Bool.noConfusion hp)
          fun hp => Bool.noConfusion hp
      · exact h.setParent (r := r) rfl rfl rfl (fun _ => by rw [hat]; rfl) fun _ => by rw [hat]; rfl
  | memcpy =>
      refine h.moved (r := r) rfl rfl (fun q hq => setRun_of_ne hq ..) ?_ ?_ ?_
      · rw [setRun_self]
        exact h.opened r
      · rw [setRun_self]
        exact fun _ => h.parent r (by rw [hat]; rfl)
      · exact fun _ => by rw [hat]; rfl
  | fork =>
      cases ok
      · exact h.setParent (r := r) rfl rfl rfl (fun hp => Bool.noConfusion hp)
          fun hp => Bool.noConfusion hp
      · refine h.moved (r := r) rfl rfl (fun q hq => setRun_of_ne hq ..) ?_ ?_ ?_
        · simpa using h.opened r
        · simp [ParentSite.hasOpened]
        · simp [ParentSite.hasSized]
  | shmOpen =>
      cases ok
      · exact h.setParent (r := r) rfl rfl rfl (fun hp => Bool.noConfusion hp)
          fun hp => Bool.noConfusion hp
      · refine h.moved (r := r) rfl rfl (fun q hq => setRun_of_ne hq ..) ?_ ?_ ?_
        · simpa using h.opened r
        · simp
        · simp [ParentSite.hasSized]
  | ftruncate =>
      cases ok
      · exact h.setParent (r := r) rfl rfl rfl (fun hp => Bool.noConfusion hp)
          fun hp => Bool.noConfusion hp
      · exact h.ftruncate hat
  | shmUnlink =>
      cases ok
      · exact h.setParent (r := r) rfl rfl rfl (fun hp => Bool.noConfusion hp)
          fun hp => Bool.noConfusion hp
      · exact h.shmUnlink hs hcount hat

theorem Regions.childStep (h : Regions s) : Regions (s.childStep r ok) := by
  obtain ⟨-, hothers, hself⟩ := childStep_frame s r ok
  have hsame : (s.childStep r ok).current = s.current ∧ (s.childStep r ok).sized = s.sized ∧
      ((s.childStep r ok).runs r).childRegion ≤ s.current := by
    have hopened := h.opened r
    unfold ShmExample.childStep
    cases (s.runs r).child with
    | unborn | exited | threw | killed => exact ⟨rfl, rfl, hopened⟩
    | shmOpen => cases ok <;> simp [setChild, setRun, hopened]
    | mmap | semWaitCons | memcpy | semPostProd => simp [setChild, setRun, hopened]
  refine h.moved (r := r) hsame.1 hsame.2.1 hothers hsame.2.2 ?_ ?_
  · rw [hself]
    exact h.parent r
  · rw [hself]
    exact id

theorem regions (h : machine.Reachable s) : Regions s := by
  refine h.invariant (P := Regions) ?_ ?_
  · exact ⟨fun o ho => absurd ho (Nat.not_lt_zero _), fun r => Nat.le_refl 0,
      fun r hr => Bool.noConfusion hr, fun r hr => Bool.noConfusion hr⟩
  · intro s a hr hs ha
    have hsound := reachable_sound hr
    cases a with
    | parent r ok => exact hs.parentStep hsound ha
    | child r ok => exact hs.childStep
    | start =>
        exact hs.setParent (r := s.count) rfl rfl rfl (fun hp => Bool.noConfusion hp)
          fun hp => Bool.noConfusion hp

end LinuxSystems.ShmExample
