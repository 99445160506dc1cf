/-
What the two semaphores are worth.

Nobody removes the semaphores, so every post of every run stays until somebody takes it.  What a
run has posted and taken follows from where its two processes are, and the value of a
semaphore is what all runs together have posted and not taken.

A run posts `sem_prod` twice, in `main` and in the child, and takes it once: each run that
goes well leaves one behind.
-/
import LinuxSystems.ShmExample.Runs
import Mathlib.Algebra.BigOperators.Group.Finset.Basic
import Mathlib.Algebra.Order.BigOperators.Group.Finset

namespace LinuxSystems.ShmExample

variable {s s' : ShmExample} {a : Action} {r q : Nat} {ok : Bool}

/-! ### The posts of one run -/

/-- `main` has come past its `sem_post(sem_prod)`. -/
def ParentSite.isStarted : ParentSite → Bool
  | .idle | .semOpenProd | .semOpenCons | .semPostProd => false
  | _ => true

/-- The child has come past its `sem_wait`. -/
def ChildSite.hasTaken : ChildSite → Bool
  | .memcpy | .semPostProd | .exited | .killed => true
  | .unborn | .shmOpen | .mmap | .semWaitCons | .threw => false

namespace Run

/-- The parent has come past `sem_wait(sem_prod)`. -/
def hasWaited (run : Run) : Bool := run.filled || run.parent = .memcpy

/-- The parent has come past `sem_post(sem_cons)`. -/
def hasPosted (run : Run) : Bool := run.filled && run.parent ≠ .semPostCons

def prodPosts (run : Run) : Nat := run.parent.isStarted.toNat + (run.child = .exited : Bool).toNat

def prodTakes (run : Run) : Nat := run.hasWaited.toNat

def consPosts (run : Run) : Nat := run.hasPosted.toNat

def consTakes (run : Run) : Nat := run.child.hasTaken.toNat

end Run

/-! ### All runs -/

/-- What the started runs have together. -/
def total (s : ShmExample) (f : Run → Nat) : Nat := ∑ r ∈ Finset.range s.count, f (s.runs r)

/-- One run changes. -/
theorem total_change (f : Run → Nat) (hr : r < s.count) (hcount : s'.count = s.count)
    (hothers : ∀ q, q ≠ r → s'.runs q = s.runs q) :
    s'.total f + f (s.runs r) = s.total f + f (s'.runs r) := by
  have hmem : r ∈ Finset.range s.count := Finset.mem_range.mpr hr
  have hrest : ∑ q ∈ (Finset.range s.count).erase r, f (s'.runs q) =
      ∑ q ∈ (Finset.range s.count).erase r, f (s.runs q) := by
    refine Finset.sum_congr rfl fun q hq => ?_
    rw [hothers q (Finset.ne_of_mem_erase hq)]
  unfold total
  rw [hcount, ← Finset.add_sum_erase _ _ hmem,
    ← Finset.add_sum_erase _ (fun q => f (s.runs q)) hmem, hrest]
  omega

/-- One more run starts. -/
theorem total_start (f : Run → Nat) :
    (s.step .start).total f = s.total f + f { s.runs s.count with parent := .semOpenProd } := by
  unfold total
  show ∑ r ∈ Finset.range (s.count + 1), f ((s.step .start).runs r) = _
  rw [Finset.sum_range_succ]
  congr 1
  · refine Finset.sum_congr rfl fun q hq => ?_
    have hlt : q < s.count := Finset.mem_range.mp hq
    rw [show (s.step .start).runs q = s.runs q from setRun_of_ne (by omega) ..]
  · rw [show (s.step .start).runs s.count = { s.runs s.count with parent := .semOpenProd } from
      setRun_self ..]

/-- A semaphore of value `value` before and `value'` after a step that takes `run` to `run'`. -/
def Balanced (posts takes : Run → Nat) (value value' : Nat) (run run' : Run) : Prop :=
  value' + takes run' + posts run = value + takes run + posts run'

theorem parentStep_balanced (h : (s.runs r).Sound) (ha : s.parentEnabled r ok = true) :
    Balanced Run.prodPosts Run.prodTakes s.semProd.value (s.parentStep r ok).semProd.value
        (s.runs r) ((s.parentStep r ok).runs r) ∧
      Balanced Run.consPosts Run.consTakes s.semCons.value (s.parentStep r ok).semCons.value
        (s.runs r) ((s.parentStep r ok).runs r) := by
  unfold Run.Sound at h
  unfold parentEnabled at ha
  unfold Balanced Run.prodPosts Run.prodTakes Run.consPosts Run.consTakes Run.hasWaited
    Run.hasPosted parentStep
  cases hat : (s.runs r).parent with
  | idle | exited | threw => simp [hat] at ha
  | semUnlinkProd | semUnlinkCons => simp [hat] at h
  | semOpenProd | semOpenCons | semPostProd | memcpy | waitpid =>
      simp only [hat] at h
      simp [ParentSite.isStarted, setParent, setRun, h]
  | fork | shmOpen | ftruncate | mmap | munmap | shmUnlink =>
      simp only [hat] at h
      cases ok <;> simp [ParentSite.isStarted, ChildSite.hasTaken, setParent, setRun, h]
  | semWaitProd =>
      simp only [hat, Bool.and_eq_true, decide_eq_true_eq] at h ha
      simp [ParentSite.isStarted, setParent, setRun, h]
      omega
  | semPostCons =>
      simp only [hat] at h
      simp [ParentSite.isStarted, setParent, setRun, h]
      omega

/-- What the parent has posted and taken does not depend on the child. -/
theorem childStep_balanced (ha : s.childEnabled r ok = true) :
    Balanced Run.prodPosts Run.prodTakes s.semProd.value (s.childStep r ok).semProd.value
        (s.runs r) ((s.childStep r ok).runs r) ∧
      Balanced Run.consPosts Run.consTakes s.semCons.value (s.childStep r ok).semCons.value
        (s.runs r) ((s.childStep r ok).runs r) := by
  unfold childEnabled at ha
  unfold Balanced Run.prodPosts Run.prodTakes Run.consPosts Run.consTakes Run.hasWaited
    Run.hasPosted childStep
  cases hat : (s.runs r).child with
  | unborn | exited | threw | killed => simp [hat] at ha
  | shmOpen | mmap =>
      cases ok <;> simp [ChildSite.hasTaken, setChild, setRun]
  | memcpy =>
      cases s.sized (s.runs r).childRegion <;> simp [ChildSite.hasTaken, setChild, setRun]
  | semWaitCons =>
      simp only [hat, Bool.and_eq_true, decide_eq_true_eq] at ha
      simp [ChildSite.hasTaken, setChild, setRun]
      omega
  | semPostProd =>
      simp [ChildSite.hasTaken, setChild, setRun]
      omega

/-- **The value of a semaphore** is what was posted and not taken. -/
structure Ledger (s : ShmExample) : Prop where
  prod : s.semProd.value + s.total Run.prodTakes = s.total Run.prodPosts
  cons : s.semCons.value + s.total Run.consTakes = s.total Run.consPosts

/-- A step of one run. -/
theorem Ledger.change (h : Ledger s) (hr : r < s.count) (hcount : s'.count = s.count)
    (hothers : ∀ q, q ≠ r → s'.runs q = s.runs q)
    (hbalanced : Balanced Run.prodPosts Run.prodTakes s.semProd.value s'.semProd.value
        (s.runs r) (s'.runs r) ∧
      Balanced Run.consPosts Run.consTakes s.semCons.value s'.semCons.value
        (s.runs r) (s'.runs r)) : Ledger s' := by
  have hchange := fun f => total_change f hr hcount hothers
  obtain ⟨hprod, hcons⟩ := hbalanced
  unfold Balanced at hprod hcons
  refine ⟨?_, ?_⟩
  · have htakes := hchange Run.prodTakes
    have hposts := hchange Run.prodPosts
    have hbefore := h.prod
    omega
  · have htakes := hchange Run.consTakes
    have hposts := hchange Run.consPosts
    have hbefore := h.cons
    omega

/-- A run begins with nothing posted and nothing taken. -/
theorem Ledger.start (h : Ledger s) (hs : Sound s) : Ledger (s.step .start) := by
  have hidle := hs.idle s.count (Nat.le_refl _)
  refine ⟨?_, ?_⟩
  · rw [total_start, total_start, hidle]
    exact h.prod
  · rw [total_start, total_start, hidle]
    exact h.cons

theorem Sound.started (h : Sound s) (ha : s.childEnabled r ok = true) : r < s.count := by
  by_contra hlt
  simp [childEnabled, h.idle r (by omega)] at ha

theorem ledger (h : machine.Reachable s) : Ledger s := by
  refine h.invariant (P := Ledger) ⟨rfl, rfl⟩ ?_
  intro s a hr hs ha
  have hsound := reachable_sound hr
  cases a with
  | start => exact hs.start hsound
  | parent r ok =>
      have hcurrent := hsound.current ha
      obtain ⟨hcount, hothers⟩ := parentStep_frame s r ok
      exact hs.change (by omega) hcount hothers (parentStep_balanced (hsound.run r) ha)
  | child r ok =>
      obtain ⟨hcount, hothers, -⟩ := childStep_frame s r ok
      exact hs.change (hsound.started ha) hcount hothers (childStep_balanced ha)

/-! ### What follows for one run -/

theorem Run.Sound.started {run : Run} (h : run.Sound) (hwaited : run.hasWaited = true) :
    run.parent.isStarted = true := by
  unfold Run.Sound at h
  unfold Run.hasWaited at hwaited
  cases hat : run.parent with
  | idle | semOpenProd | semOpenCons | semPostProd => simp_all
  | _ => rfl

theorem Run.Sound.takes_le {run : Run} (h : run.Sound) : run.prodTakes ≤ run.prodPosts := by
  unfold Run.prodTakes Run.prodPosts
  cases hwaited : run.hasWaited with
  | false => exact Nat.zero_le _
  | true =>
      rw [h.started hwaited]
      exact Nat.le_add_right ..

/-- **A parent does not wait in vain** at its `sem_wait(sem_prod)`: its `main` has posted. -/
theorem semProd_pos (h : machine.Reachable s) (hat : (s.runs r).parent = .semWaitProd) :
    0 < s.semProd.value := by
  have hs := reachable_sound h
  have hlt : r < s.count := by
    by_contra hno
    rw [hs.idle r (by omega)] at hat
    cases hat
  have hrun := hs.run r
  simp only [Run.Sound, hat] at hrun
  have htotal : s.total Run.prodTakes < s.total Run.prodPosts := by
    refine Finset.sum_lt_sum (fun q _ => (hs.run q).takes_le) ⟨r, Finset.mem_range.mpr hlt, ?_⟩
    simp [Run.prodTakes, Run.prodPosts, Run.hasWaited, ParentSite.isStarted, hat, hrun]
  have hprod := (ledger h).prod
  omega

end LinuxSystems.ShmExample
