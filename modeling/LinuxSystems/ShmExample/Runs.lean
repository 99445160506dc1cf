/-
Where a run is.

What the parent of a run has done follows from where it is.  Two facts matter for the runs
after it.  The parent never comes back to `main`, so the semaphores are never removed.  And
a parent that ends while its child has not come past `sem_wait` ended before it filled the
region: it waits for its child after that.
-/
import LinuxSystems.ShmExample.Model

namespace LinuxSystems.ShmExample

variable {s : ShmExample} {a : Action} {r q : Nat} {ok : Bool}

/-- What holds of a run with its parent where it is. -/
def Run.Sound (run : Run) : Prop :=
  match run.parent with
  | .idle | .semOpenProd | .semOpenCons | .semPostProd | .fork =>
      run.child = .unborn ∧ run.truncated = false ∧ run.filled = false
  | .shmOpen | .ftruncate => run.truncated = false ∧ run.filled = false
  | .mmap | .semWaitProd | .memcpy => run.truncated = true ∧ run.filled = false
  | .semPostCons | .waitpid => run.truncated = true ∧ run.filled = true
  | .munmap | .shmUnlink | .exited =>
      run.truncated = true ∧ run.filled = true ∧ run.child.hasEnded = true
  | .semUnlinkProd | .semUnlinkCons => False
  | .threw => run.child.isEarly = true → run.filled = false

structure Sound (s : ShmExample) : Prop where
  run : ∀ r, (s.runs r).Sound
  idle : ∀ r, s.count ≤ r → s.runs r = .idle
  earlier : ∀ r, r + 1 < s.count → (s.runs r).parent.hasEnded = true

/-! ### The run that takes a step -/

/-- A step of the parent of `r` leaves the other runs. -/
theorem parentStep_frame (s : ShmExample) (r : Nat) (ok : Bool) :
    (s.parentStep r ok).count = s.count ∧
      ∀ q, q ≠ r → (s.parentStep r ok).runs q = s.runs q := by
  unfold parentStep
  cases (s.runs r).parent with
  | idle | exited | threw => exact ⟨rfl, fun _ _ => rfl⟩
  | fork | shmOpen | ftruncate | shmUnlink =>
      cases ok
      · exact ⟨rfl, fun q hq => setRun_of_ne hq ..⟩
      · exact ⟨rfl, fun q hq => setRun_of_ne hq ..⟩
  | semOpenProd | semOpenCons | semPostProd | mmap | semWaitProd | memcpy | semPostCons | waitpid
  | munmap | semUnlinkProd | semUnlinkCons => exact ⟨rfl, fun q hq => setRun_of_ne hq ..⟩

/-- A step of the child of `r` leaves the other runs, and what the parent has done. -/
theorem childStep_frame (s : ShmExample) (r : Nat) (ok : Bool) :
    (s.childStep r ok).count = s.count ∧
      (∀ q, q ≠ r → (s.childStep r ok).runs q = s.runs q) ∧
      (s.childStep r ok).runs r =
        { s.runs r with
          child := ((s.childStep r ok).runs r).child
          childRegion := ((s.childStep r ok).runs r).childRegion } := by
  unfold childStep
  cases (s.runs r).child with
  | unborn | exited | threw | killed => exact ⟨rfl, fun _ _ => rfl, rfl⟩
  | shmOpen =>
      cases ok
      · exact ⟨rfl, fun q hq => setRun_of_ne hq .., by simp [setChild]⟩
      · exact ⟨rfl, fun q hq => setRun_of_ne hq .., by simp⟩
  | mmap | semWaitCons | memcpy | semPostProd =>
      exact ⟨rfl, fun q hq => setRun_of_ne hq .., by simp [setChild]⟩

/-- Past its `sem_wait` a child does not come back, nor after its end. -/
theorem childStep_child (h : s.childEnabled r ok = true) :
    (s.runs r).child ≠ .unborn ∧ (s.runs r).child.hasEnded = false ∧
      (((s.childStep r ok).runs r).child.isEarly = true → (s.runs r).child.isEarly = true) := by
  unfold childEnabled at h
  unfold childStep
  cases hat : (s.runs r).child with
  | unborn | exited | threw | killed => simp [hat] at h
  | shmOpen | mmap | semWaitCons => exact ⟨by simp, rfl, fun _ => rfl⟩
  | memcpy =>
      refine ⟨by simp, rfl, fun hearly => ?_⟩
      cases hsized : s.sized (s.runs r).childRegion <;>
        simp [setChild, hsized, ChildSite.isEarly] at hearly
  | semPostProd =>
      refine ⟨by simp, rfl, fun hearly => ?_⟩
      simp [setChild, ChildSite.isEarly] at hearly

theorem Run.Sound.child {run : Run} (h : run.Sound) {c : ChildSite} {o : Nat}
    (hborn : run.child ≠ .unborn) (hended : run.child.hasEnded = false)
    (hearly : c.isEarly = true → run.child.isEarly = true) :
    Run.Sound { run with child := c, childRegion := o } := by
  unfold Run.Sound at h ⊢
  cases hat : run.parent with
  | idle | semOpenProd | semOpenCons | semPostProd | fork =>
      rw [hat] at h
      exact absurd h.1 hborn
  | munmap | shmUnlink | exited =>
      rw [hat] at h
      exact absurd h.2.2 (by simp [hended])
  | shmOpen | ftruncate | mmap | semWaitProd | memcpy | semPostCons | waitpid | semUnlinkProd
  | semUnlinkCons =>
      rw [hat] at h
      exact h
  | threw =>
      rw [hat] at h
      exact fun hc => h (hearly hc)

/-- A parent that has ended before its child came past `sem_wait` died early. -/
theorem Run.Sound.died {run : Run} (h : run.Sound) (hended : run.parent.hasEnded = true)
    (hearly : run.child.isEarly = true) : run.parent = .threw ∧ run.filled = false := by
  unfold Run.Sound at h
  cases hat : run.parent with
  | threw =>
      rw [hat] at h
      exact ⟨rfl, h hearly⟩
  | exited =>
      rw [hat] at h
      cases hc : run.child <;> simp_all [ChildSite.hasEnded, ChildSite.isEarly]
  | idle | semOpenProd | semOpenCons | semPostProd | fork | shmOpen | ftruncate | mmap
  | semWaitProd | memcpy | semPostCons | waitpid | munmap | shmUnlink | semUnlinkProd
  | semUnlinkCons =>
      rw [hat] at hended
      cases hended

theorem parentStep_sound (h : (s.runs r).Sound) (ha : s.parentEnabled r ok = true) :
    ((s.parentStep r ok).runs r).Sound := by
  unfold Run.Sound at h
  unfold parentEnabled at ha
  unfold parentStep
  cases hat : (s.runs r).parent with
  | idle | exited | threw => simp [hat] at ha
  | semUnlinkProd | semUnlinkCons => simp [hat] at h
  | semOpenProd | semOpenCons | semPostProd | semWaitProd | semPostCons =>
      simp only [hat] at h
      simpa [Run.Sound, setParent] using h
  | memcpy =>
      simp only [hat] at h
      simpa [Run.Sound] using h.1
  | waitpid =>
      simp only [hat, Bool.and_eq_true] at h ha
      simpa [Run.Sound, setParent] using ⟨h.1, h.2, ha.2⟩
  | fork =>
      simp only [hat] at h
      cases ok
      · simpa [Run.Sound, setParent] using fun _ => h.2.2
      · simpa [Run.Sound] using h.2
  | shmOpen =>
      simp only [hat] at h
      cases ok
      · simpa [Run.Sound, setParent] using fun _ => h.2
      · simpa [Run.Sound, setParent] using h
  | ftruncate =>
      simp only [hat] at h
      cases ok
      · simpa [Run.Sound, setParent] using fun _ => h.2
      · simpa [Run.Sound] using h.2
  | mmap =>
      simp only [hat] at h
      cases ok
      · simpa [Run.Sound, setParent] using fun _ => h.2
      · simpa [Run.Sound, setParent] using h
  | munmap | shmUnlink =>
      simp only [hat] at h
      have hearly : (s.runs r).child.isEarly = false := by
        cases hc : (s.runs r).child <;> simp_all [ChildSite.hasEnded, ChildSite.isEarly]
      cases ok
      · simp [Run.Sound, setParent, hearly]
      · simpa [Run.Sound, setParent] using h

/-- A property of every run that the step of one run keeps. -/
theorem forall_runs {P : Run → Prop} (h : ∀ q, P (s.runs q)) {s' : ShmExample}
    (hothers : ∀ q, q ≠ r → s'.runs q = s.runs q) (hself : P (s'.runs r)) : ∀ q, P (s'.runs q) := by
  intro q
  by_cases hq : q = r
  · rw [hq]
    exact hself
  · rw [hothers q hq]
    exact h q

/-- A parent that can take a step is that of the last run. -/
theorem Sound.current (h : Sound s) (ha : s.parentEnabled r ok = true) : r + 1 = s.count := by
  have hstarted : ¬ s.count ≤ r := by
    intro hle
    simp [parentEnabled, h.idle r hle] at ha
  have hrunning : ¬ r + 1 < s.count := by
    intro hlt
    have hended := h.earlier r hlt
    unfold parentEnabled at ha
    cases hat : (s.runs r).parent <;> simp_all [ParentSite.hasEnded]
  omega

theorem Sound.start (h : Sound s) (ha : s.enabled .start) : Sound (s.step .start) := by
  have hidle := h.idle s.count (Nat.le_refl _)
  have hothers : ∀ q, q ≠ s.count → (s.step .start).runs q = s.runs q :=
    fun q hq => setRun_of_ne hq ..
  refine ⟨forall_runs h.run hothers ?_, ?_, ?_⟩
  · simp [ShmExample.step, setParent, hidle, Run.Sound]
  · intro q hq
    have hlt : s.count + 1 ≤ q := hq
    rw [hothers q (by omega)]
    exact h.idle q (by omega)
  · intro q hq
    have hlt : q + 1 < s.count + 1 := hq
    rw [hothers q (by omega)]
    exact ha q (by omega)

theorem Sound.parent (h : Sound s) (ha : s.parentEnabled r ok = true) :
    Sound (s.parentStep r ok) := by
  have hcurrent := h.current ha
  obtain ⟨hcount, hothers⟩ := parentStep_frame s r ok
  refine ⟨forall_runs h.run hothers (parentStep_sound (h.run r) ha), ?_, ?_⟩
  · intro q hq
    rw [hcount] at hq
    rw [hothers q (by omega)]
    exact h.idle q hq
  · intro q hq
    rw [hcount] at hq
    rw [hothers q (by omega)]
    exact h.earlier q hq

theorem Sound.child (h : Sound s) (ha : s.childEnabled r ok = true) :
    Sound (s.childStep r ok) := by
  obtain ⟨hcount, hothers, hself⟩ := childStep_frame s r ok
  obtain ⟨hborn, hended, hearly⟩ := childStep_child ha
  refine ⟨forall_runs h.run hothers ?_, ?_, ?_⟩
  · rw [hself]
    exact (h.run r).child hborn hended hearly
  · intro q hq
    rw [hcount] at hq
    have hne : q ≠ r := by
      intro hqr
      rw [← hqr, h.idle q hq] at hborn
      exact hborn rfl
    rw [hothers q hne]
    exact h.idle q hq
  · intro q hq
    rw [hcount] at hq
    have hparent : ((s.childStep r ok).runs q).parent = (s.runs q).parent := by
      by_cases hqr : q = r
      · rw [hqr, hself]
      · rw [hothers q hqr]
    rw [hparent]
    exact h.earlier q hq

theorem Sound.step (h : Sound s) (ha : s.enabled a) : Sound (s.step a) := by
  cases a with
  | start => exact h.start ha
  | parent r ok => exact h.parent ha
  | child r ok => exact h.child ha

theorem reachable_sound (h : machine.Reachable s) : Sound s := by
  refine h.invariant (P := Sound) ?_ ?_
  · exact ⟨fun _ => ⟨rfl, rfl, rfl⟩, fun _ _ => rfl, fun r hr => absurd hr (Nat.not_lt_zero _)⟩
  · exact fun s a _ hs ha => hs.step ha

/-- **No run comes to its `sem_unlink`.** -/
theorem never_unlinked (h : machine.Reachable s) (r : Nat) :
    (s.runs r).parent ≠ .semUnlinkProd ∧ (s.runs r).parent ≠ .semUnlinkCons := by
  have hrun := (reachable_sound h).run r
  unfold Run.Sound at hrun
  constructor
  · intro hat
    simp [hat] at hrun
  · intro hat
    simp [hat] at hrun

end LinuxSystems.ShmExample
