/-
What the flag protects.

The flag is set by the thread that found it clear and cleared by the one that found it set,
each as its last step in the block.  So while a thread is in its block nobody else changes
the flag, nobody else is in a block, and `shared_resource` is what the flag says until the
thread stores to it.  The semaphore has no part in this: its first value may be any.
-/
import LinuxSystems.PosixSem.Mutex

namespace LinuxSystems.PosixSem

variable {value : Nat} {countLimit : Int} {s : PosixSem} {r u : Role} {x : Site}

/-! ### What is wanted of the flag -/

/-- In the block after the test of the flag. -/
def Site.isInBlock : Site → Prop
  | .load | .store _ | .report _ | .setFlag => True
  | .entryPost | .loadCounter | .storeCounter _ | .wait | .announce | .testFlag | .post | .yield
  | .finalPost | .exited => False

/-- The flag keeps `shared_resource` between 0 and 1. -/
structure Guards (s : PosixSem) : Prop where
  alone : ∀ r, (s.site r).isInBlock → ¬ (s.site r.other).isInBlock
  bit : s.sharedResource = 0 ∨ s.sharedResource = 1
  agrees : (∀ r, ¬ (s.site r).isInBlock) → s.sharedResource.toNat = s.fullFlag.toNat
  printed : ∀ v, .value v ∈ s.output → v = 0 ∨ v = 1

/-! ### The flag -/

/-- The number of resources that there are where the flag is `f`. -/
def resources (f : BitVec 8) : BitVec 32 := f.zeroExtend 32

/-- What a thread at a place knows of the flag and of `shared_resource`. -/
def Site.Finds (flag : BitVec 8) (shared : BitVec 32) (r : Role) : Site → Prop
  | .load => flag = r.expects ∧ shared = resources r.expects
  | .store v => flag = r.expects ∧ shared = resources r.expects ∧ v = shared
  | .report v => flag = r.expects ∧ shared = resources r.leaves ∧ v = shared
  | .setFlag => flag = r.expects ∧ shared = resources r.leaves
  | .entryPost | .loadCounter | .storeCounter _ | .wait | .announce | .testFlag | .post | .yield
  | .finalPost | .exited => True

structure Flagged (s : PosixSem) : Prop where
  flag : s.fullFlag = 0 ∨ s.fullFlag = 1
  finds : ∀ r, (s.site r).Finds s.fullFlag s.sharedResource r
  agrees : (∀ r, ¬ (s.site r).isInBlock) → s.sharedResource = resources s.fullFlag
  printed : ∀ v, .value v ∈ s.output → v = 0 ∨ v = 1

theorem Role.expects_other (r : Role) : r.other.expects ≠ r.expects := by
  cases r <;> decide

/-- A thread in its block has found the flag that it expects. -/
theorem Flagged.expects (h : Flagged s) (hin : (s.site r).isInBlock) :
    s.fullFlag = r.expects := by
  have hfinds := h.finds r
  cases hat : s.site r with
  | load | store v | report v | setFlag =>
      rw [hat] at hfinds
      exact hfinds.1
  | entryPost | loadCounter | storeCounter v | wait | announce | testFlag | post | yield
  | finalPost | exited =>
      rw [hat] at hin
      exact hin.elim

/-- Not both threads are in their blocks. -/
theorem Flagged.alone (h : Flagged s) (hin : (s.site r).isInBlock) :
    ¬ (s.site r.other).isInBlock := by
  intro hother
  exact r.expects_other ((h.expects hother).symm.trans (h.expects hin))

/-- A thread that is not in its block knows nothing. -/
theorem Site.Finds.of_outside {f : BitVec 8} {v : BitVec 32} (hout : ¬ x.isInBlock) :
    x.Finds f v r := by
  cases x with
  | load | store v | report v | setFlag => exact absurd trivial hout
  | _ => trivial

/-- A step outside the block. -/
theorem Flagged.outside (h : Flagged s) {s' : PosixSem} (hsite : s'.site = (s.goto r x).site)
    (hshared : s'.sharedResource = s.sharedResource) (hflag : s'.fullFlag = s.fullFlag)
    (hout : s'.output = s.output ∨ s'.output = s.output ++ [.announce r])
    (hat : ¬ (s.site r).isInBlock) (hx : ¬ x.isInBlock) : Flagged s' := by
  refine ⟨?_, ?_, ?_, ?_⟩
  · rw [hflag]
    exact h.flag
  · intro u
    rw [hsite, hflag, hshared]
    rcases Role.two.eq_or r u with rfl | rfl
    · rw [goto_site]
      exact Site.Finds.of_outside hx
    · rw [goto_site_other]
      exact h.finds _
  · intro hnone
    rw [hshared, hflag]
    refine h.agrees fun u hin => ?_
    rcases Role.two.eq_or r u with rfl | rfl
    · exact hat hin
    · refine hnone r.other ?_
      rwa [hsite, goto_site_other]
  · intro v hv
    refine h.printed v ?_
    rcases hout with hout | hout
    · rwa [hout] at hv
    · rw [hout] at hv
      simpa using hv

/-- A step of the thread in its block, after which it is there still. -/
theorem Flagged.inside (h : Flagged s) {s' : PosixSem} (hsite : s'.site = (s.goto r x).site)
    (hflag : s'.fullFlag = s.fullFlag) (hother : ¬ (s.site r.other).isInBlock)
    (hx : x.isInBlock) (hfinds : x.Finds s'.fullFlag s'.sharedResource r)
    (hprinted : ∀ v, .value v ∈ s'.output → v = 0 ∨ v = 1) : Flagged s' := by
  refine ⟨?_, ?_, ?_, hprinted⟩
  · rw [hflag]
    exact h.flag
  · intro u
    rw [hsite]
    rcases Role.two.eq_or r u with rfl | rfl
    · rw [goto_site]
      exact hfinds
    · rw [goto_site_other]
      exact Site.Finds.of_outside hother
  · intro hnone
    have hr := hnone r
    rw [hsite, goto_site] at hr
    exact absurd hx hr

/-- The thread in its block finds the number as the flag says, and stores the other one. -/
theorem Role.update_resources (r : Role) :
    r.update (resources r.expects) = resources r.leaves := by
  cases r <;> decide

theorem Role.leaves_bit (r : Role) : r.leaves = 0 ∨ r.leaves = 1 := by
  cases r <;> decide

theorem Role.resources_leaves (r : Role) : resources r.leaves = 0 ∨ resources r.leaves = 1 := by
  cases r <;> decide

theorem Role.resources_expects (r : Role) : resources r.expects = 0 ∨ resources r.expects = 1 := by
  cases r <;> decide

theorem resources_toNat (f : BitVec 8) : (resources f).toNat = f.toNat := by
  have hlt := f.isLt
  rw [resources, BitVec.toNat_setWidth]
  omega

/-- To find the flag as expected, and enter the block. -/
theorem Flagged.enter (h : Flagged s) (hat : s.site r = .testFlag)
    (hflag : s.fullFlag = r.expects) : Flagged (s.goto r .load) := by
  have hr : ¬ (s.site r).isInBlock := by
    rw [hat]
    exact id
  have hother : ¬ (s.site r.other).isInBlock := by
    intro hin
    exact r.expects_other ((h.expects hin).symm.trans hflag)
  refine h.inside (x := .load) rfl rfl hother trivial ⟨hflag, ?_⟩ h.printed
  rw [← hflag]
  refine h.agrees fun u hin => ?_
  rcases Role.two.eq_or r u with rfl | rfl
  · exact hr hin
  · exact hother hin

/-- To set the flag, and leave the block. -/
theorem Flagged.leave (h : Flagged s) (hat : s.site r = .setFlag) :
    Flagged { s.goto r .post with fullFlag := r.leaves } := by
  have hfinds := h.finds r
  rw [hat] at hfinds
  have hother : ¬ (s.site r.other).isInBlock := h.alone (hat ▸ trivial)
  refine ⟨r.leaves_bit, ?_, fun _ => hfinds.2, h.printed⟩
  intro u
  rcases Role.two.eq_or r u with rfl | rfl
  · show ((s.goto u .post).site u).Finds _ _ u
    rw [goto_site]
    trivial
  · show ((s.goto r .post).site r.other).Finds _ _ r.other
    rw [goto_site_other]
    exact Site.Finds.of_outside hother

theorem Flagged.bit (h : Flagged s) : s.sharedResource = 0 ∨ s.sharedResource = 1 := by
  by_cases hnone : ∀ r, ¬ (s.site r).isInBlock
  · rw [h.agrees hnone]
    rcases h.flag with hflag | hflag <;> rw [hflag]
    · exact Or.inl rfl
    · exact Or.inr rfl
  · simp only [not_forall, not_not] at hnone
    obtain ⟨r, hin⟩ := hnone
    have hfinds := h.finds r
    cases hat : s.site r with
    | load =>
        rw [hat] at hfinds
        exact hfinds.2 ▸ r.resources_expects
    | store v =>
        rw [hat] at hfinds
        exact hfinds.2.1 ▸ r.resources_expects
    | report v =>
        rw [hat] at hfinds
        exact hfinds.2.1 ▸ r.resources_leaves
    | setFlag =>
        rw [hat] at hfinds
        exact hfinds.2 ▸ r.resources_leaves
    | _ =>
        rw [hat] at hin
        exact hin.elim

theorem Flagged.step (h : Flagged s) : Flagged (s.step countLimit r) := by
  have hfinds := h.finds r
  have halone := h.alone (r := r)
  unfold PosixSem.step
  cases hat : s.site r with
  | testFlag =>
      by_cases hflag : s.fullFlag = r.expects
      · simp only [hflag, if_true]
        exact h.enter hat hflag
      · simp only [hflag, if_false]
        exact h.outside (x := .post) rfl rfl rfl (Or.inl rfl) (hat ▸ id) id
  | load =>
      rw [hat] at hfinds halone
      exact h.inside (x := .store _) rfl rfl (halone trivial) trivial ⟨hfinds.1, hfinds.2, rfl⟩
        h.printed
  | store v =>
      rw [hat] at hfinds halone
      obtain ⟨hflag, hshared, rfl⟩ := hfinds
      refine h.inside (x := .report _) rfl rfl (halone trivial) trivial ⟨hflag, ?_, rfl⟩ h.printed
      rw [← r.update_resources, ← hshared]
  | report v =>
      rw [hat] at hfinds halone
      obtain ⟨hflag, hshared, rfl⟩ := hfinds
      refine h.inside (x := .setFlag) rfl rfl (halone trivial) trivial ⟨hflag, hshared⟩ ?_
      intro v hv
      rcases List.mem_append.mp hv with hv | hv
      · exact h.printed v hv
      · rw [List.mem_singleton, Line.value.injEq] at hv
        rw [hv, hshared]
        exact r.resources_leaves
  | setFlag => exact h.leave hat
  | storeCounter v =>
      refine h.outside (x := if r.goes countLimit v then .wait else .finalPost) rfl rfl rfl
        (Or.inl rfl) (hat ▸ id) ?_
      cases r.goes countLimit v <;> exact id
  | entryPost => exact h.outside (x := .loadCounter) rfl rfl rfl (Or.inl rfl) (hat ▸ id) id
  | loadCounter => exact h.outside (x := .storeCounter _) rfl rfl rfl (Or.inl rfl) (hat ▸ id) id
  | wait => exact h.outside (x := .announce) rfl rfl rfl (Or.inl rfl) (hat ▸ id) id
  | announce => exact h.outside (x := .testFlag) rfl rfl rfl (Or.inr rfl) (hat ▸ id) id
  | post => exact h.outside (x := .yield) rfl rfl rfl (Or.inl rfl) (hat ▸ id) id
  | yield => exact h.outside (x := .loadCounter) rfl rfl rfl (Or.inl rfl) (hat ▸ id) id
  | finalPost => exact h.outside (x := .exited) rfl rfl rfl (Or.inl rfl) (hat ▸ id) id
  | exited => exact h

theorem flagged (h : (machineFrom value countLimit).Reachable s) : Flagged s := by
  refine h.invariant (P := Flagged) ⟨Or.inl rfl, ?_, fun _ => rfl, ?_⟩ ?_
  · intro r
    cases r <;> trivial
  · exact fun _ hv => absurd hv List.not_mem_nil
  · exact fun s r _ hs _ => hs.step

/--
**The flag guards the number.**  Whatever the semaphore admits, the two threads are not in their
blocks together, the number is 0 or 1 and printed as such, and outside the blocks it is what
the flag says.
-/
theorem flag_guards (value : Nat) (countLimit : Int) {s : PosixSem}
    (h : (machineFrom value countLimit).Reachable s) : Guards s := by
  have hs := flagged h
  refine ⟨fun r => hs.alone, hs.bit, ?_, hs.printed⟩
  intro hnone
  rw [hs.agrees hnone]
  exact resources_toNat _

/-- Both threads are past their waits, and the producer is in its block. -/
theorem flag_guards_both : Guards ((machine 100).after (machine 100).init
    (bothIn ++ List.replicate 4 .producer ++ List.replicate 2 .consumer)) :=
  flag_guards 1 100 (Machine.reachable_after (by decide +kernel))

end LinuxSystems.PosixSem
