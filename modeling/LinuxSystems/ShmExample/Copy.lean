/-
Whether the child copies what its own parent filled.

Within one run the parent posts `sem_cons` once it has filled the region, and the child
waits for that.  But the name outlives the run.  A child that dies early leaves the post
of its parent behind, for the child of the next run to take before its parent has filled
anything; and a parent that dies early leaves its child behind, to take the post of the
next parent.

A run that starts where neither is the case goes right, and every other one can go wrong.
-/
import LinuxSystems.ShmExample.Runs

namespace LinuxSystems.ShmExample

variable {s : ShmExample} {a : Action} {r q : Nat} {ok : Bool}

/-- Every child that is at its `memcpy` has a parent that is done with `ftruncate` and with its
own `memcpy`. -/
def Safe (s : ShmExample) : Prop :=
  ∀ r, (s.runs r).child = .memcpy → (s.runs r).truncated = true ∧ (s.runs r).filled = true

/-- A run starts only where `sem_cons` has no value left over, and no child is left over that
would still wait for it. -/
def CleanStart (s : ShmExample) : Action → Prop
  | .start => s.semCons.value = 0 ∧ ∀ r, r < s.count → (s.runs r).child.isEarly = false
  | _ => True

instance (s : ShmExample) : ∀ a, Decidable (CleanStart s a)
  | .start => inferInstanceAs (Decidable (_ ∧ ∀ r, r < s.count → (s.runs r).child.isEarly = false))
  | .parent _ _ | .child _ _ => isTrue trivial

/-! ### Runs that start clean -/

structure Guarded (s : ShmExample) : Prop where
  /-- Only the child of the last run may still come to its `sem_wait`. -/
  early : ∀ r, (s.runs r).child.isEarly = true → r + 1 = s.count
  /-- What it may take there was posted by its parent. -/
  posted : 0 < s.semCons.value →
    ∀ r, r + 1 = s.count → (s.runs r).truncated = true ∧ (s.runs r).filled = true
  safe : Safe s

/-- What a step of the parent of `r` does to the copies: it brings no child to its `memcpy`, what
is done stays done, and `sem_cons` is posted only where the region is filled. -/
structure ParentStep (s s' : ShmExample) (r : Nat) : Prop where
  memcpy : (s'.runs r).child = .memcpy → (s.runs r).child = .memcpy
  done : (s.runs r).truncated = true ∧ (s.runs r).filled = true →
    (s'.runs r).truncated = true ∧ (s'.runs r).filled = true
  posted : 0 < s'.semCons.value →
    0 < s.semCons.value ∨ (s'.runs r).truncated = true ∧ (s'.runs r).filled = true

/-- A step that only moves the parent. -/
theorem ParentStep.of_setParent {s' : ShmExample} {p : ParentSite}
    (hruns : s'.runs = (s.setParent r p).runs) (hcons : s'.semCons.value = s.semCons.value) :
    ParentStep s s' r := by
  have hrun : s'.runs r = { s.runs r with parent := p } := by
    rw [hruns]
    exact setRun_self ..
  refine ⟨?_, ?_, ?_⟩
  · rw [hrun]
    exact id
  · rw [hrun]
    exact id
  · rw [hcons]
    exact Or.inl

theorem parentStep_spec (h : (s.runs r).Sound) : ParentStep s (s.parentStep r ok) r := by
  unfold parentStep
  unfold Run.Sound at h
  cases hat : (s.runs r).parent with
  | idle | exited | threw => exact ⟨id, id, Or.inl⟩
  | semOpenProd | semOpenCons | semPostProd | mmap | semWaitProd | waitpid | munmap =>
      exact .of_setParent rfl rfl
  | semUnlinkProd | semUnlinkCons => simp [hat] at h
  | shmUnlink =>
      cases ok
      · exact .of_setParent rfl rfl
      · exact .of_setParent rfl rfl
  | fork | shmOpen =>
      cases ok
      · exact .of_setParent rfl rfl
      · exact ⟨by simp, by simp, Or.inl⟩
  | ftruncate =>
      cases ok
      · exact .of_setParent rfl rfl
      · exact ⟨by simp, by simp, Or.inl⟩
  | memcpy => exact ⟨by simp, fun hdone => by simp [hdone], Or.inl⟩
  | semPostCons =>
      -- the one post, where the region is filled
      simp only [hat] at h
      exact ⟨by simp [setParent], fun _ => by simp [setParent, h],
        fun _ => Or.inr (by simp [setParent, h])⟩

theorem Guarded.parent (h : Guarded s) (hs : Sound s) (ha : s.parentEnabled r ok = true) :
    Guarded (s.parentStep r ok) := by
  have hcurrent := hs.current ha
  have hstep := @parentStep_spec s r ok (hs.run r)
  obtain ⟨hcount, hothers⟩ := parentStep_frame s r ok
  refine ⟨?_, ?_, ?_⟩
  · intro q hq
    by_cases hqr : q = r
    · rw [hqr, hcount, hcurrent]
    · rw [hothers q hqr] at hq
      rw [hcount]
      exact h.early q hq
  · intro hvalue q hq
    obtain rfl : q = r := by omega
    rcases hstep.posted hvalue with hbefore | hafter
    · exact hstep.done (h.posted hbefore q hcurrent)
    · exact hafter
  · intro q hq
    by_cases hqr : q = r
    · rw [hqr] at hq ⊢
      exact hstep.done (h.safe r (hstep.memcpy hq))
    · rw [hothers q hqr] at hq ⊢
      exact h.safe q hq

/-- A child comes to its `memcpy` with a post, and leaves the rest of them. -/
theorem childStep_semCons (ha : s.childEnabled r ok = true) :
    (s.childStep r ok).semCons.value ≤ s.semCons.value ∧
      (((s.childStep r ok).runs r).child = .memcpy →
        (s.runs r).child.isEarly = true ∧ 0 < s.semCons.value) := by
  unfold childEnabled at ha
  unfold childStep
  cases hat : (s.runs r).child with
  | unborn | exited | threw | killed => simp [hat] at ha
  | shmOpen | mmap => cases ok <;> simp [setChild, setRun]
  | memcpy => cases s.sized (s.runs r).childRegion <;> simp [setChild, setRun]
  | semPostProd => simp [setChild, setRun]
  | semWaitCons =>
      simp only [hat, Bool.and_eq_true, decide_eq_true_eq] at ha
      exact ⟨Nat.sub_le _ _, fun _ => ⟨rfl, ha.2⟩⟩

theorem Guarded.child (h : Guarded s) (ha : s.childEnabled r ok = true) :
    Guarded (s.childStep r ok) := by
  obtain ⟨hcount, hothers, hself⟩ := childStep_frame s r ok
  obtain ⟨-, -, hearly⟩ := childStep_child ha
  obtain ⟨hvalue, hmemcpy⟩ := childStep_semCons ha
  have hdone : ∀ q, ((s.childStep r ok).runs q).truncated = (s.runs q).truncated ∧
      ((s.childStep r ok).runs q).filled = (s.runs q).filled := by
    intro q
    by_cases hqr : q = r
    · rw [hqr, hself]
      exact ⟨rfl, rfl⟩
    · rw [hothers q hqr]
      exact ⟨rfl, rfl⟩
  refine ⟨?_, ?_, ?_⟩
  · intro q hq
    rw [hcount]
    by_cases hqr : q = r
    · subst hqr
      exact h.early q (hearly hq)
    · rw [hothers q hqr] at hq
      exact h.early q hq
  · intro hpos q hq
    rw [(hdone q).1, (hdone q).2]
    exact h.posted (by omega) q (by omega)
  · intro q hq
    rw [(hdone q).1, (hdone q).2]
    by_cases hqr : q = r
    · subst hqr
      obtain ⟨hwas, hpos⟩ := hmemcpy hq
      exact h.posted hpos q (h.early q hwas)
    · rw [hothers q hqr] at hq
      exact h.safe q hq

theorem Guarded.start (h : Guarded s) (hs : Sound s) (hg : CleanStart s .start) :
    Guarded (s.step .start) := by
  obtain ⟨hzero, hnone⟩ := hg
  have hchild : ∀ q, ((s.step .start).runs q).child = (s.runs q).child := by
    intro q
    by_cases hq : q = s.count
    · simp [hq, ShmExample.step, setParent]
    · exact congrArg Run.child (setRun_of_ne hq ..)
  refine ⟨?_, ?_, ?_⟩
  · intro q hq
    rw [hchild q] at hq
    by_cases hlt : q < s.count
    · exact absurd hq (by simp [hnone q hlt])
    · rw [hs.idle q (by omega)] at hq
      exact absurd hq (by simp [ChildSite.isEarly])
  · intro hpos
    have hvalue : 0 < s.semCons.value := hpos
    omega
  · intro q hq
    rw [hchild q] at hq
    have hne : q ≠ s.count := by
      rintro rfl
      simp [hs.idle s.count (Nat.le_refl _)] at hq
    rw [show (s.step .start).runs q = s.runs q from setRun_of_ne hne ..]
    exact h.safe q hq

theorem guarded (h : (machine.restrict CleanStart).Reachable s) : Guarded s := by
  refine h.invariant (P := Guarded) ?_ ?_
  · exact ⟨nofun, nofun, nofun⟩
  · intro s a hr hs ha
    have hsound := reachable_sound hr.of_restrict
    cases a with
    | start => exact hs.start hsound ha.2
    | parent r ok => exact hs.parent hsound ha.1
    | child r ok => exact hs.child ha.1

/-! ### Runs that do not -/

/-- The child of `q` comes to its `memcpy` where there is a region and a value to take. -/
theorem exists_copy (hregion : s.region = true) (hvalue : 0 < s.semCons.value)
    (hearly : (s.runs q).child.isEarly = true) :
    ∃ tr, machine.Legal s tr ∧ ((machine.after s tr).runs q).child = .memcpy ∧
      ((machine.after s tr).runs q).filled = (s.runs q).filled := by
  cases hat : (s.runs q).child with
  | unborn | memcpy | semPostProd | exited | threw | killed =>
      rw [hat] at hearly
      exact nomatch hearly
  | shmOpen =>
      refine ⟨[.child q true, .child q true, .child q true], ?_, ?_⟩
      · simp [machine, enabled, childEnabled, ShmExample.step, childStep, hat, hregion, hvalue,
          setChild, setRun]
      · simp [machine, ShmExample.step, childStep, hat, setChild, setRun]
  | mmap =>
      refine ⟨[.child q true, .child q true], ?_, ?_⟩
      · simp [machine, enabled, childEnabled, ShmExample.step, childStep, hat, hvalue, setChild,
          setRun]
      · simp [machine, ShmExample.step, childStep, hat, setChild, setRun]
  | semWaitCons =>
      refine ⟨[.child q true], ?_, ?_⟩
      · simp [machine, enabled, childEnabled, hat, hvalue]
      · simp [machine, ShmExample.step, childStep, hat, setChild, setRun]

/-- A run starts, and its parent comes to its `ftruncate`. -/
def opening (r : Nat) : List Action := .start :: List.replicate 5 (.parent r true)

/-- A run starts, and its parent comes to its `waitpid`. -/
def filling (r : Nat) : List Action := .start :: List.replicate 10 (.parent r true)

theorem opening_legal (hstart : s.enabled .start) : machine.Legal s (opening s.count) := by
  refine ⟨hstart, ?_⟩
  simp [machine, enabled, parentEnabled, ShmExample.step, parentStep, setParent, setRun]

theorem filling_legal (hstart : s.enabled .start) : machine.Legal s (filling s.count) := by
  refine ⟨hstart, ?_⟩
  simp [machine, enabled, parentEnabled, ShmExample.step, parentStep, setParent, setRun]

theorem opening_after (hs : Sound s) :
    (machine.after s (opening s.count)).region = true ∧
      (machine.after s (opening s.count)).semCons.value = s.semCons.value ∧
      (machine.after s (opening s.count)).runs s.count =
        { parent := .ftruncate, child := .shmOpen, truncated := false, filled := false,
          parentRegion := s.current, childRegion := 0 } := by
  have hidle := hs.idle s.count (Nat.le_refl _)
  simp [opening, machine, ShmExample.step, parentStep, setParent, setRun, hidle]

theorem filling_after (hq : q ≠ s.count) :
    (machine.after s (filling s.count)).region = true ∧
      0 < (machine.after s (filling s.count)).semCons.value ∧
      (machine.after s (filling s.count)).runs q = s.runs q := by
  simp [filling, machine, ShmExample.step, parentStep, setParent, setRun, hq]

/-- The child that copies has a parent that has not filled the region. -/
theorem not_safe_of_copy (hcopy : (s.runs q).child = .memcpy)
    (hfilled : (s.runs q).filled = false) : ¬ Safe s := by
  intro hsafe
  have hdone := (hsafe q hcopy).2
  rw [hfilled] at hdone
  cases hdone

/-- **A run that does not start clean can go wrong.** -/
theorem exists_unsafe (hs : Sound s) (hstart : s.enabled .start) (hg : ¬ CleanStart s .start) :
    ∃ tr, machine.Legal s (.start :: tr) ∧ ¬ Safe (machine.after s (.start :: tr)) := by
  by_cases hvalue : s.semCons.value = 0
  · -- a child of an earlier run takes the post of the new parent
    obtain ⟨q, hq, hearly⟩ : ∃ q, q < s.count ∧ (s.runs q).child.isEarly = true := by
      by_contra hnone
      exact hg ⟨hvalue, fun q hq => by simpa using fun he => hnone ⟨q, hq, he⟩⟩
    have hfilled := ((hs.run q).died (hstart q hq) hearly).2
    obtain ⟨hregion, hpos, hruns⟩ := filling_after (s := s) (q := q) (by omega)
    obtain ⟨tr, hl, hcopy, hsame⟩ := exists_copy hregion hpos (by rw [hruns]; exact hearly)
    refine ⟨List.replicate 10 (.parent s.count true) ++ tr, ?_, ?_⟩
    · show machine.Legal s (filling s.count ++ tr)
      exact Machine.legal_append.mpr ⟨filling_legal hstart, hl⟩
    · show ¬ Safe (machine.after s (filling s.count ++ tr))
      rw [Machine.after_append]
      exact not_safe_of_copy hcopy (by rw [hsame, hruns]; exact hfilled)
  · -- the new child takes what was left
    obtain ⟨hregion, hvalue', hrun⟩ := opening_after hs
    obtain ⟨tr, hl, hcopy, hsame⟩ :=
      exists_copy (q := s.count) hregion (by omega) (by rw [hrun]; rfl)
    refine ⟨List.replicate 5 (.parent s.count true) ++ tr, ?_, ?_⟩
    · show machine.Legal s (opening s.count ++ tr)
      exact Machine.legal_append.mpr ⟨opening_legal hstart, hl⟩
    · show ¬ Safe (machine.after s (opening s.count ++ tr))
      rw [Machine.after_append]
      exact not_safe_of_copy hcopy (by rw [hsame, hrun])

/-! ### The copies of all runs -/

/--
**A child copies what its own parent filled exactly as long as every run starts clean.**  In
every sequence of runs that all do, each child that comes to its `memcpy` has a parent that
has filled the region.  Where the next run would not, it can go on until a child copies too
early.
-/
theorem copies_filled (tr : List Action) :
    ((machine.restrict CleanStart).Legal machine.init tr → Safe (machine.after machine.init tr)) ∧
    (machine.Legal machine.init tr → (machine.after machine.init tr).enabled .start →
      ¬ CleanStart (machine.after machine.init tr) .start →
      ∃ tr', machine.Legal machine.init (tr ++ .start :: tr') ∧
        ¬ Safe (machine.after machine.init (tr ++ .start :: tr'))) := by
  constructor
  · exact fun hclean => (guarded (Machine.reachable_after hclean)).safe
  · intro hl hstart hg
    have hs := reachable_sound (Machine.reachable_after hl)
    obtain ⟨tr', hl', hunsafe⟩ := exists_unsafe hs hstart hg
    refine ⟨tr', Machine.legal_append.mpr ⟨hl, hl'⟩, ?_⟩
    rw [Machine.after_append]
    exact hunsafe

/-- A run in which everything goes well. -/
def wellRun (r : Nat) : List Action :=
  filling r ++ List.replicate 5 (.child r true) ++ List.replicate 3 (.parent r true)

/-- A run whose child does not find the region. -/
def deadChild (r : Nat) : List Action :=
  .start :: List.replicate 4 (.parent r true) ++ .child r false ::
    List.replicate 9 (.parent r true)

/-- Two runs that go well and a third one that comes to its copy; and a run whose child died,
after which the next one can go wrong. -/
theorem copies_filled_runs :
    Safe (machine.after machine.init (wellRun 0 ++ wellRun 1 ++ (filling 2 ++
      List.replicate 3 (.child 2 true)))) ∧
    ∃ tr', machine.Legal machine.init (deadChild 0 ++ .start :: tr') ∧
      ¬ Safe (machine.after machine.init (deadChild 0 ++ .start :: tr')) :=
  ⟨(copies_filled _).1 (by decide +kernel),
    (copies_filled (deadChild 0)).2 (by decide +kernel) (by decide +kernel) (by decide +kernel)⟩

/-- The second child takes the post of the first parent. -/
theorem copies_unfilled : ¬ ∀ s, machine.Reachable s → Safe s := by
  intro hall
  have hl : machine.Legal machine.init (deadChild 0 ++ opening 1 ++
      List.replicate 3 (.child 1 true)) := by decide +kernel
  have hsafe := hall _ (Machine.reachable_after hl) 1 (by decide +kernel)
  revert hsafe
  decide +kernel

end LinuxSystems.ShmExample
