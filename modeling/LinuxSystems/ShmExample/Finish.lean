/-
How the runs come to their ends.

Every step brings a process on, so nothing but a new run can keep the program going.  No
parent waits in vain for `sem_prod`; but it waits for its child, and the child for
`sem_cons`.  They hang where the post of the parent was taken by somebody else, and that
is the child of an earlier run, whose parent died before it had posted anything.
-/
import LinuxSystems.ShmExample.Copy
import LinuxSystems.ShmExample.Ledger
import LinuxSystems.ShmExample.Regions
import LinuxSystems.Machine.Endless

namespace LinuxSystems.ShmExample

variable {s s' : ShmExample} {a : Action} {r q : Nat} {ok : Bool}

/-! ### What is left to do -/

def ParentSite.left : ParentSite → Nat
  | .idle | .exited | .threw => 0
  | .semOpenProd => 13
  | .semOpenCons => 12
  | .semPostProd => 11
  | .fork => 10
  | .shmOpen => 9
  | .ftruncate => 8
  | .mmap => 7
  | .semWaitProd => 6
  | .memcpy => 5
  | .semPostCons => 4
  | .waitpid => 3
  | .munmap => 2
  | .shmUnlink => 1
  | .semUnlinkProd => 2
  | .semUnlinkCons => 1

def ChildSite.left : ChildSite → Nat
  | .unborn | .shmOpen => 5
  | .mmap => 4
  | .semWaitCons => 3
  | .memcpy => 2
  | .semPostProd => 1
  | .exited | .threw | .killed => 0

def Run.left (run : Run) : Nat := run.parent.left + run.child.left

theorem parentStep_left (h : (s.runs r).Sound) (ha : s.parentEnabled r ok = true) :
    ((s.parentStep r ok).runs r).left < (s.runs r).left := by
  unfold Run.Sound at h
  unfold parentEnabled at ha
  unfold parentStep Run.left
  cases hat : (s.runs r).parent with
  | idle | exited | threw => simp [hat] at ha
  | semUnlinkProd | semUnlinkCons => simp [hat] at h
  | semOpenProd | semOpenCons | semPostProd | semWaitProd | memcpy | semPostCons | waitpid =>
      simp [setParent, setRun, ParentSite.left]
  | fork =>
      simp only [hat] at h
      cases ok <;> simp [setParent, setRun, ParentSite.left, ChildSite.left, h]
  | shmOpen | ftruncate | mmap | munmap | shmUnlink =>
      cases ok <;> simp [setParent, setRun, ParentSite.left]

theorem childStep_left (ha : s.childEnabled r ok = true) :
    ((s.childStep r ok).runs r).left < (s.runs r).left := by
  unfold childEnabled at ha
  unfold childStep Run.left
  cases hat : (s.runs r).child with
  | unborn | exited | threw | killed => simp [hat] at ha
  | semWaitCons | semPostProd => simp [setChild, setRun, ChildSite.left]
  | memcpy =>
      cases s.sized (s.runs r).childRegion <;> simp [setChild, setRun, ChildSite.left]
  | shmOpen | mmap => cases ok <;> simp [setChild, setRun, ChildSite.left]

def Action.isStart : Action → Prop
  | .start => True
  | .parent _ _ | .child _ _ => False

/-- **Only new runs can go on for ever.** -/
theorem forever_start {run : ℕ → Action} (h : machine.Endless run) :
    Machine.Forever run Action.isStart := by
  refine h.forever (μ := fun s => s.total Run.left) ?_
  intro s a hr ha hno
  have hs := reachable_sound hr
  cases a with
  | start => exact absurd trivial hno
  | parent r ok =>
      have hcurrent := hs.current ha
      have hleft := parentStep_left (hs.run r) ha
      obtain ⟨hcount, hothers⟩ := parentStep_frame s r ok
      have hchange := total_change Run.left (r := r) (by omega) hcount hothers
      show (s.parentStep r ok).total Run.left < s.total Run.left
      omega
  | child r ok =>
      have hleft := childStep_left ha
      obtain ⟨hcount, hothers, -⟩ := childStep_frame s r ok
      have hchange := total_change Run.left (hs.started ha) hcount hothers
      show (s.childStep r ok).total Run.left < s.total Run.left
      omega

/-! ### Who has a child -/

/-- The parent has come past its `fork`, and there is a child. -/
def ParentSite.hasForked : ParentSite → Bool
  | .idle | .semOpenProd | .semOpenCons | .semPostProd | .fork | .threw => false
  | _ => true

def Run.Born (run : Run) : Prop := run.parent.hasForked = true → run.child ≠ .unborn

theorem parentStep_born (h : (s.runs r).Sound) (hborn : (s.runs r).Born) :
    ((s.parentStep r ok).runs r).Born := by
  unfold Run.Sound at h
  unfold Run.Born at hborn ⊢
  unfold parentStep
  cases hat : (s.runs r).parent with
  | semUnlinkProd | semUnlinkCons => simp [hat] at h
  | idle | exited | threw =>
      rw [hat] at hborn
      simpa [hat] using hborn
  | semOpenProd | semOpenCons | semPostProd => simp [setParent, ParentSite.hasForked]
  | semWaitProd | memcpy | semPostCons | waitpid =>
      rw [hat] at hborn
      simpa [setParent, ParentSite.hasForked] using hborn
  | fork => cases ok <;> simp [setParent, ParentSite.hasForked]
  | shmOpen | ftruncate | mmap | munmap | shmUnlink =>
      rw [hat] at hborn
      cases ok
      · simp [setParent, ParentSite.hasForked]
      · simpa [setParent, ParentSite.hasForked] using hborn

theorem childStep_born (ha : s.childEnabled r ok = true) :
    ((s.childStep r ok).runs r).child ≠ .unborn := by
  unfold childEnabled at ha
  unfold childStep
  cases hat : (s.runs r).child with
  | unborn | exited | threw | killed => simp [hat] at ha
  | semWaitCons | semPostProd => simp [setChild]
  | memcpy => cases s.sized (s.runs r).childRegion <;> simp [setChild]
  | shmOpen | mmap => cases ok <;> simp [setChild]

theorem born (h : machine.Reachable s) : ∀ r, (s.runs r).Born := by
  refine h.invariant (P := fun s => ∀ r, (s.runs r).Born) ?_ ?_
  · exact fun _ hforked => Bool.noConfusion hforked
  · intro s a hr hs ha
    cases a with
    | start =>
        refine forall_runs hs (r := s.count) (fun q hq => setRun_of_ne hq ..) ?_
        show Run.Born ((s.setParent s.count .semOpenProd).runs s.count)
        rw [setParent, setRun_self]
        exact fun hforked => Bool.noConfusion hforked
    | parent r ok =>
        exact forall_runs hs (parentStep_frame s r ok).2
          (parentStep_born ((reachable_sound hr).run r) (hs r))
    | child r ok =>
        exact forall_runs hs (childStep_frame s r ok).2.1 fun _ => childStep_born ha

/-- A parent does not go back to before its start. -/
theorem parentStep_ne_idle (ha : s.parentEnabled r ok = true) :
    ((s.parentStep r ok).runs r).parent ≠ .idle := by
  unfold parentEnabled at ha
  unfold parentStep
  cases hat : (s.runs r).parent with
  | idle | exited | threw => simp [hat] at ha
  | semOpenProd | semOpenCons | semPostProd | semWaitProd | memcpy | semPostCons | waitpid
  | semUnlinkProd | semUnlinkCons => simp [setParent]
  | fork | shmOpen | ftruncate | mmap | munmap | shmUnlink => cases ok <;> simp [setParent]

theorem started (h : machine.Reachable s) : ∀ r, r < s.count → (s.runs r).parent ≠ .idle := by
  refine h.invariant (P := fun s => ∀ r, r < s.count → (s.runs r).parent ≠ .idle) ?_ ?_
  · exact fun r hr => absurd hr (Nat.not_lt_zero _)
  · intro s a hs hstarted ha q hq
    cases a with
    | start =>
        have hlt : q < s.count + 1 := hq
        show ((s.setParent s.count .semOpenProd).runs q).parent ≠ .idle
        by_cases hqr : q = s.count
        · simp [hqr, setParent]
        · rw [setParent, setRun_of_ne hqr]
          exact hstarted q (by omega)
    | parent r ok =>
        obtain ⟨hcount, hothers⟩ := parentStep_frame s r ok
        have hlt : q < (s.parentStep r ok).count := hq
        show ((s.parentStep r ok).runs q).parent ≠ .idle
        by_cases hqr : q = r
        · rw [hqr]
          exact parentStep_ne_idle ha
        · rw [hothers q hqr]
          exact hstarted q (by omega)
    | child r ok =>
        obtain ⟨hcount, hothers, hself⟩ := childStep_frame s r ok
        have hlt : q < (s.childStep r ok).count := hq
        show ((s.childStep r ok).runs q).parent ≠ .idle
        by_cases hqr : q = r
        · rw [hqr, hself]
          exact hstarted r (by omega)
        · rw [hothers q hqr]
          exact hstarted q (by omega)

/-! ### Where nobody can go on -/

/-- Nothing but a new run. -/
def Quiet (s : ShmExample) : Prop := ∀ a, s.enabled a → a.isStart

/-- It is enough that no started run can take a step. -/
theorem quiet_of_stuck (hs : Sound s) (h : ∀ r, r < s.count → ∀ ok : Bool,
    s.parentEnabled r ok = false ∧ s.childEnabled r ok = false) : Quiet s := by
  intro a ha
  cases a with
  | start => trivial
  | parent r ok =>
      have hcurrent := hs.current ha
      have hno := (h r (by omega) ok).1
      rw [show s.parentEnabled r ok = true from ha] at hno
      cases hno
  | child r ok =>
      have hno := (h r (hs.started ha) ok).2
      rw [show s.childEnabled r ok = true from ha] at hno
      cases hno

/-- The child has ended, or was never there. -/
def ChildSite.isOver (c : ChildSite) : Bool := c = .unborn || c.hasEnded

theorem Quiet.child (hq : Quiet s) (r : Nat) :
    (s.runs r).child.isOver = true ∨
      (s.runs r).child = .semWaitCons ∧ s.semCons.value = 0 := by
  have hno : ∀ ok, s.childEnabled r ok ≠ true := fun ok => hq (.child r ok)
  unfold childEnabled at hno
  cases hat : (s.runs r).child with
  | unborn | exited | threw | killed => exact Or.inl rfl
  | shmOpen => exact absurd rfl (hat ▸ hno false)
  | mmap | memcpy | semPostProd => exact absurd rfl (hat ▸ hno true)
  | semWaitCons =>
      have htrue := hno true
      simp only [hat, Bool.true_and, ne_eq, decide_eq_true_eq] at htrue
      exact Or.inr ⟨rfl, by omega⟩

/-- A parent that has started has ended, or it waits for its child. -/
theorem Quiet.parent (hq : Quiet s) (hr : machine.Reachable s) (r : Nat) :
    (s.runs r).parent = .idle ∨ (s.runs r).parent.hasEnded = true ∨
      (s.runs r).parent = .waitpid ∧ (s.runs r).child = .semWaitCons ∧ s.semCons.value = 0 := by
  have hno : ∀ ok, s.parentEnabled r ok ≠ true := fun ok => hq (.parent r ok)
  unfold parentEnabled at hno
  cases hat : (s.runs r).parent with
  | idle => exact Or.inl rfl
  | exited | threw => exact Or.inr (Or.inl rfl)
  | shmUnlink => exact absurd rfl (hat ▸ hno false)
  | fork | shmOpen | ftruncate | mmap | munmap | semOpenProd | semOpenCons | semPostProd | memcpy
  | semPostCons | semUnlinkProd | semUnlinkCons => exact absurd rfl (hat ▸ hno true)
  | semWaitProd =>
      have htrue := hno true
      simp only [hat, Bool.true_and, ne_eq, decide_eq_true_eq] at htrue
      exact absurd (semProd_pos hr hat) htrue
  | waitpid =>
      have htrue := hno true
      simp only [hat, Bool.true_and] at htrue
      have hborn : (s.runs r).child ≠ .unborn := born hr r (by rw [hat]; rfl)
      rcases hq.child r with hover | hwaits
      · simp [ChildSite.isOver, hborn, htrue] at hover
      · exact Or.inr (Or.inr ⟨rfl, hwaits⟩)

/-! ### Who hangs -/

/-- The parent has died and not filled the region, and its child has taken a post all the same. -/
def Run.HasStolen (run : Run) : Prop :=
  run.parent = .threw ∧ run.filled = false ∧ run.child = .exited

/-- The parent waits for the child, and the child for `sem_cons`. -/
def Run.Hangs (run : Run) : Prop := run.parent = .waitpid ∧ run.child = .semWaitCons

/-- The parent has ended.  Its child has ended too or was never there; or it waits, and nobody has
posted for it. -/
def Run.Ended (run : Run) : Prop :=
  run.parent.hasEnded = true ∧ (run.child.isOver = true ∨
    run.parent = .threw ∧ run.filled = false ∧ run.child = .semWaitCons)

theorem Quiet.ended (hq : Quiet s) (h : machine.Reachable s)
    (hended : (s.runs r).parent.hasEnded = true) : (s.runs r).Ended := by
  refine ⟨hended, ?_⟩
  rcases hq.child r with hover | ⟨hat, -⟩
  · exact Or.inl hover
  · obtain ⟨hthrew, hfilled⟩ := ((reachable_sound h).run r).died hended (by rw [hat]; rfl)
    exact Or.inr ⟨hthrew, hfilled, hat⟩

/-- A parent that has not ended is that of the last run. -/
theorem Sound.last (h : Sound s) (hr : r < s.count) (hnot : (s.runs r).parent.hasEnded ≠ true) :
    r + 1 = s.count := by
  by_contra hne
  exact hnot (h.earlier r (by omega))

/-- The child has a post, and has not failed to copy. -/
def ChildSite.isServed : ChildSite → Prop
  | .memcpy | .semPostProd | .exited => True
  | .unborn | .shmOpen | .mmap | .semWaitCons | .threw | .killed => False

/-- While the last parent waits for its child, its post is there to be taken; or its child has it,
or the child of a parent that died before it filled the region. -/
def Served (s : ShmExample) : Prop :=
  ∀ r, (s.runs r).parent = .waitpid → 0 < s.semCons.value ∨
    ∃ q, (s.runs q).child.isServed ∧
      (q = r ∨ (s.runs q).parent = .threw ∧ (s.runs q).filled = false)

/-- A parent comes to its `waitpid` with a post. -/
theorem parentStep_waitpid (ha : s.parentEnabled r ok = true)
    (hat : ((s.parentStep r ok).runs r).parent = .waitpid) :
    0 < (s.parentStep r ok).semCons.value := by
  unfold parentEnabled at ha
  unfold parentStep at hat ⊢
  cases hwas : (s.runs r).parent with
  | idle | exited | threw => simp [hwas] at ha
  | semOpenProd | semOpenCons | semPostProd | semWaitProd | memcpy | waitpid | semUnlinkProd
  | semUnlinkCons => simp [hwas, setParent] at hat
  | fork | shmOpen | ftruncate | mmap | munmap | shmUnlink =>
      cases ok <;> simp [hwas, setParent] at hat
  | semPostCons => exact Nat.succ_pos _

/-- A child that comes to its `sem_wait` is that of the last run, or its parent died early. -/
theorem Sound.early (hs : Sound s) (hq : q < s.count) (hr : r + 1 = s.count)
    (hearly : (s.runs q).child.isEarly = true) :
    q = r ∨ (s.runs q).parent = .threw ∧ (s.runs q).filled = false := by
  rcases Nat.lt_or_ge (q + 1) s.count with hlt | hge
  · exact Or.inr ((hs.run q).died (hs.earlier q hlt) hearly)
  · exact Or.inl (by omega)

/-- A child that has a post keeps it until it has copied, where the region has its size. -/
theorem childStep_served (hserved : (s.runs r).child.isServed)
    (hsized : s.sized (s.runs r).childRegion = true) :
    ((s.childStep r ok).runs r).child.isServed := by
  unfold childStep
  cases hat : (s.runs r).child with
  | unborn | shmOpen | mmap | semWaitCons | threw | killed =>
      rw [hat] at hserved
      exact hserved.elim
  | memcpy | semPostProd => simp [setChild, hsized, ChildSite.isServed]
  | exited =>
      show (s.runs r).child.isServed
      rw [hat]
      trivial

/-- A child takes a post, or leaves all of them. -/
theorem childStep_takes (ha : s.childEnabled r ok = true) :
    (s.childStep r ok).semCons.value = s.semCons.value ∨
      (s.runs r).child = .semWaitCons ∧ ((s.childStep r ok).runs r).child = .memcpy := by
  unfold childEnabled at ha
  unfold childStep
  cases hat : (s.runs r).child with
  | unborn | exited | threw | killed => simp [hat] at ha
  | semWaitCons => exact Or.inr ⟨rfl, by simp [setChild]⟩
  | shmOpen => cases ok <;> exact Or.inl rfl
  | mmap | memcpy | semPostProd => exact Or.inl rfl

theorem Served.child (h : Served s) (hs : Sound s) (hregions : Regions s)
    (ha : s.childEnabled q ok = true) : Served (s.childStep q ok) := by
  obtain ⟨-, hothers, hself⟩ := childStep_frame s q ok
  have hframe : ∀ p, ((s.childStep q ok).runs p).parent = (s.runs p).parent ∧
      ((s.childStep q ok).runs p).filled = (s.runs p).filled := by
    intro p
    by_cases hp : p = q
    · rw [hp, hself]
      exact ⟨rfl, rfl⟩
    · rw [hothers p hp]
      exact ⟨rfl, rfl⟩
  intro r hr
  rw [(hframe r).1] at hr
  have hlt : r < s.count := by
    by_contra hno
    rw [hs.idle r (by omega)] at hr
    cases hr
  have hlast : r + 1 = s.count := hs.last hlt (by rw [hr]; decide)
  rcases h r hr with hpos | ⟨p, hserved, hp⟩
  · rcases childStep_takes ha with hsame | ⟨hat, hnext⟩
    · exact Or.inl (by rw [hsame]; exact hpos)
    · refine Or.inr ⟨q, by rw [hnext]; trivial, ?_⟩
      rw [(hframe q).1, (hframe q).2]
      exact hs.early (hs.started ha) hlast (by rw [hat]; rfl)
  · refine Or.inr ⟨p, ?_, by rwa [(hframe p).1, (hframe p).2]⟩
    by_cases hpq : p = q
    · subst hpq
      exact childStep_served hserved (hregions.sized_childRegion (by rw [hr]; rfl) p)
    · rwa [hothers p hpq]

theorem served (h : machine.Reachable s) : Served s := by
  refine h.invariant (P := Served) (fun r hr => ParentSite.noConfusion hr) ?_
  intro s a hr hs ha
  have hsound := reachable_sound hr
  cases a with
  | child q ok => exact hs.child hsound (regions hr) ha
  | start =>
      -- all parents have ended
      intro r (hat : ((s.setParent s.count .semOpenProd).runs r).parent = .waitpid)
      have hne : r ≠ s.count := by
        rintro rfl
        simp [setParent] at hat
      rw [setParent, setRun_of_ne hne] at hat
      rcases Nat.lt_or_ge r s.count with hlt | hge
      · have hended := ha r hlt
        rw [hat] at hended
        cases hended
      · rw [hsound.idle r hge] at hat
        cases hat
  | parent q ok =>
      have hcurrent := hsound.current ha
      intro r (hat : ((s.parentStep q ok).runs r).parent = .waitpid)
      by_cases hrq : r = q
      · subst hrq
        exact Or.inl (parentStep_waitpid ha hat)
      · rw [(parentStep_frame s q ok).2 r hrq] at hat
        rcases Nat.lt_or_ge (r + 1) s.count with hlt | hge
        · have hended := hsound.earlier r hlt
          rw [hat] at hended
          cases hended
        · rw [hsound.idle r (by omega)] at hat
          cases hat

/-- **A quiet state**: all runs have ended, or the last one hangs since the child of an earlier one
has taken its post. -/
theorem ended_or_hangs (h : machine.Reachable s) (hq : Quiet s) :
    (∀ r, r < s.count → (s.runs r).Ended) ∨
      ∃ r q, r + 1 = s.count ∧ (s.runs r).Hangs ∧ q < r ∧ (s.runs q).HasStolen := by
  have hs := reachable_sound h
  by_cases hall : ∀ r, r < s.count → (s.runs r).parent.hasEnded = true
  · exact Or.inl fun r hr => hq.ended h (hall r hr)
  · right
    obtain ⟨r, hr, hnot⟩ : ∃ r, r < s.count ∧ (s.runs r).parent.hasEnded ≠ true := by
      simpa using hall
    have hlast := hs.last hr hnot
    obtain ⟨hwaitpid, hchild, hzero⟩ :=
      ((hq.parent h r).resolve_left (started h r hr)).resolve_left hnot
    obtain ⟨q, hserved, hparent⟩ := (served h r hwaitpid).resolve_left (by omega)
    have hqr : q ≠ r := by
      rintro rfl
      rw [hchild] at hserved
      exact hserved
    obtain ⟨hthrew, hfilled⟩ := hparent.resolve_left hqr
    have hlt : q < s.count := by
      by_contra hno
      rw [hs.idle q (by omega)] at hserved
      exact hserved
    have hexited : (s.runs q).child = .exited := by
      rcases hq.child q with hover | ⟨hat, -⟩
      · cases hat : (s.runs q).child <;>
          simp_all [ChildSite.isOver, ChildSite.hasEnded, ChildSite.isServed]
      · rw [hat] at hserved
        exact hserved.elim
    exact ⟨r, q, hlast, ⟨hwaitpid, hchild⟩, by omega, hthrew, hfilled, hexited⟩

/-! ### Runs that start clean -/

/-- What the parent has filled stays so, and no step of it brings the child past its `sem_wait`. -/
theorem parentStep_taken :
    (((s.parentStep r ok).runs r).child.hasTaken = true → (s.runs r).child.hasTaken = true) ∧
      ((s.runs r).filled = true → ((s.parentStep r ok).runs r).filled = true) := by
  unfold parentStep
  cases (s.runs r).parent with
  | idle | exited | threw => exact ⟨id, id⟩
  | semOpenProd | semOpenCons | semPostProd | semWaitProd | semPostCons | waitpid
  | semUnlinkProd | semUnlinkCons | memcpy => simp [setParent]
  | fork | shmOpen | ftruncate | mmap | munmap | shmUnlink =>
      cases ok <;> simp [setParent, ChildSite.hasTaken]

/-- A child that has taken a post is at its `memcpy`, or it had taken it before. -/
theorem childStep_taken (ha : s.childEnabled r ok = true)
    (htaken : ((s.childStep r ok).runs r).child.hasTaken = true) :
    ((s.childStep r ok).runs r).child = .memcpy ∨ (s.runs r).child.hasTaken = true := by
  unfold childEnabled at ha
  unfold childStep at htaken ⊢
  cases hat : (s.runs r).child with
  | unborn | exited | threw | killed => simp [hat] at ha
  | shmOpen | mmap => cases ok <;> simp [hat, setChild, ChildSite.hasTaken] at htaken
  | semWaitCons => simp [setChild]
  | memcpy | semPostProd => exact Or.inr rfl

/-- Every child that has taken a post has a parent that has filled the region. -/
theorem filled_of_taken (h : (machine.restrict CleanStart).Reachable s) :
    ∀ r, (s.runs r).child.hasTaken = true → (s.runs r).filled = true := by
  refine h.invariant
    (P := fun s => ∀ r, (s.runs r).child.hasTaken = true → (s.runs r).filled = true) ?_ ?_
  · exact fun _ htaken => Bool.noConfusion htaken
  · intro s a hr hs ha
    have hsafe : Safe (s.step a) := (guarded (hr.next ha)).safe
    cases a with
    | start =>
        refine forall_runs (P := fun run => run.child.hasTaken = true → run.filled = true) hs
          (r := s.count) (fun q hq => setRun_of_ne hq ..) ?_
        show ((s.setParent s.count .semOpenProd).runs s.count).child.hasTaken = true →
          ((s.setParent s.count .semOpenProd).runs s.count).filled = true
        rw [setParent, setRun_self]
        exact hs s.count
    | parent r ok =>
        refine forall_runs (P := fun run => run.child.hasTaken = true → run.filled = true) hs
          (parentStep_frame s r ok).2 fun htaken => ?_
        exact parentStep_taken.2 (hs r (parentStep_taken.1 htaken))
    | child r ok =>
        obtain ⟨-, hothers, hself⟩ := childStep_frame s r ok
        refine forall_runs (P := fun run => run.child.hasTaken = true → run.filled = true) hs
          hothers fun htaken => ?_
        rcases childStep_taken ha.1 htaken with hat | hbefore
        · exact (hsafe r hat).2
        · show ((s.childStep r ok).runs r).filled = true
          rw [hself]
          exact hs r hbefore

/-! ### All runs -/

/--
**How the runs end.**  Only new runs can go on for ever.  Where nobody can go on, all runs have
ended; or the last one hangs, and the child of an earlier run, whose parent died before it
filled the region, has taken its post.  That does not come up where every run starts clean.
-/
theorem runs_end :
    (∀ run : ℕ → Action, machine.Endless run → Machine.Forever run Action.isStart) ∧
    (∀ s, machine.Reachable s → Quiet s → (∀ r, r < s.count → (s.runs r).Ended) ∨
      ∃ r q, r + 1 = s.count ∧ (s.runs r).Hangs ∧ q < r ∧ (s.runs q).HasStolen) ∧
    ∀ s, (machine.restrict CleanStart).Reachable s → Quiet s →
      ∀ r, r < s.count → (s.runs r).Ended := by
  refine ⟨fun run => forever_start, fun s => ended_or_hangs, fun s hs hq => ?_⟩
  refine (ended_or_hangs hs.of_restrict hq).resolve_right ?_
  rintro ⟨r, q, -, -, -, hstolen⟩
  obtain ⟨-, hfilled, hexited⟩ := hstolen
  have htaken := filled_of_taken hs q (by rw [hexited]; rfl)
  rw [hfilled] at htaken
  cases htaken

/-- The first parent dies at its `ftruncate`, and its child takes the post of the second one. -/
def stolen : List Action :=
  opening 0 ++ [.parent 0 false] ++ filling 1 ++ List.replicate 5 (.child 0 true) ++
    List.replicate 2 (.child 1 true)

theorem runs_end_stolen :
    (∃ r q, r + 1 = 2 ∧ ((machine.after machine.init stolen).runs r).Hangs ∧ q < r ∧
      ((machine.after machine.init stolen).runs q).HasStolen) ∧
    ∀ r, r < 2 → ((machine.after machine.init (wellRun 0 ++ wellRun 1)).runs r).Ended := by
  constructor
  · have hl : machine.Legal machine.init stolen := by decide +kernel
    have hr := Machine.reachable_after hl
    have hquiet := quiet_of_stuck (reachable_sound hr) (by decide +kernel)
    refine (runs_end.2.1 _ hr hquiet).resolve_left fun hall => ?_
    have hended := (hall 1 (by decide +kernel)).1
    revert hended
    decide +kernel
  · have hl : (machine.restrict CleanStart).Legal machine.init (wellRun 0 ++ wellRun 1) := by
      decide +kernel
    have hr := Machine.reachable_after hl
    have hquiet := quiet_of_stuck (reachable_sound hr.of_restrict) (by decide +kernel)
    exact runs_end.2.2 _ hr hquiet

end LinuxSystems.ShmExample
