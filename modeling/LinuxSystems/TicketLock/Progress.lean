/-
The clients of the ticket lock come to the end of their loops.

A thread in the loop of `lock()` can go round it for ever, and that is the only thing a thread can
do for ever.  Every other step brings its thread nearer to the end of its loop, except for the
steps of the range-for, of which there are no more than the vector had elements when it
began.

So from some step on an endless run consists of threads that wait for their tickets.  Then the
thread whose ticket is served, or one that does not wait at all, could go on and is not
scheduled.
-/
import LinuxSystems.TicketLock.Handover
import LinuxSystems.Machine.Endless
import LinuxSystems.Machine.Names

namespace LinuxSystems.TicketLock

/-- The turns that a thread has had in the present iteration. -/
def Site.turn : Site → Nat
  | .loop | .locking | .done => 0
  | .emplace1 | .emplace2 | .begin | .iterate _ _ | .clear | .unlocking | .sleep | .empty => 1

/-- How far the place is from the end of the iteration. -/
def Site.rank : Site → Nat
  | .loop => 12
  | .locking => 10
  | .emplace1 => 9
  | .emplace2 => 8
  | .begin => 7
  | .iterate _ _ => 6
  | .clear => 5
  | .unlocking => 4
  | .sleep => 2
  | .empty => 2
  | .done => 0

/-- The elements that the range-for has not looked at. -/
def Site.toVisit : Site → Nat
  | .iterate pos stop => stop - pos
  | .loop | .locking | .emplace1 | .emplace2 | .begin | .clear | .unlocking | .sleep | .empty
  | .done => 0

namespace Clients

variable {ι : Type*} {w : Nat}

/-! ### Where a thread can be -/

/-- What holds of the loop counter and the lock when a thread is there. -/
def Fits (i limit : Nat) (ph : Phase w) : Site → Prop
  | .loop => i ≤ limit ∧ ph = .outside
  | .locking => i < limit ∧ ¬ ph.isInside
  | .emplace1 | .emplace2 | .begin | .clear | .unlocking => i < limit ∧ ph.isInside
  | .iterate pos stop => i < limit ∧ ph.isInside ∧ pos ≤ stop
  | .sleep | .empty => i < limit ∧ ph = .outside
  | .done => i = limit ∧ ph = .outside

variable [DecidableEq ι] {p : Program ι} {s : Clients ι w} {a : Step ι}

theorem step_phase_of_ne {u : ι} (h : u ≠ a.thread) :
    (step p s a).spinlock.phase u = s.spinlock.phase u := by
  cases a with
  | lock a =>
      rw [step_lock_spinlock]
      exact TicketLock.step_phase_of_ne h
  | _ => rw [step_spinlock rfl]

structure Placed (p : Program ι) (s : Clients ι w) (t : ι) : Prop where
  fits : Fits (s.i t) (p.limit t) (s.spinlock.phase t) (s.site t)
  turns : (s.turns.map Turn.who).count t = s.i t + (s.site t).turn

theorem count_acquirer_of_ne {u : ι} (h : u ≠ a.thread) : a.acquirer.toList.count u = 0 := by
  cases a with
  | lock a => cases a <;> simp_all [Step.acquirer, Step.lockAction, Action.leaver, Step.thread,
      Action.thread, eq_comm]
  | _ => rfl

theorem Placed.of_ne {u : ι} (h : Placed p s u) (hu : u ≠ a.thread) : Placed p (step p s a) u := by
  refine ⟨?_, ?_⟩
  · rw [step_i_of_ne hu, step_site_of_ne hu, step_phase_of_ne hu]
    exact h.fits
  · rw [turns_step, List.count_append, count_acquirer_of_ne hu, step_i_of_ne hu,
      step_site_of_ne hu]
    exact h.turns

/-- The thread that takes the step. -/
theorem Placed.own (h : Placed p s a.thread) (ha : s.enabled a) :
    Placed p (step p s a) a.thread := by
  obtain ⟨hfits, hturns⟩ := h
  refine ⟨?_, ?_⟩
  · cases a with
    | loop t =>
        have hsite : s.site t = .loop := ha
        simp only [Step.thread, hsite, Fits] at hfits
        simp only [step, goto, Step.thread, Function.update_self]
        split
        · exact ⟨‹_›, by simp [hfits.2]⟩
        · exact ⟨by omega, hfits.2⟩
    | lock a =>
        obtain ⟨hsite, hlock⟩ := ha
        cases a with
        | take t =>
            have hsite : s.site t = .locking := hsite
            simp only [Step.thread, Action.thread, hsite, Fits] at hfits
            simp only [step, Step.thread, Action.thread, TicketLock.step, Function.update_self,
              hsite]
            exact ⟨hfits.1, id⟩
        | spin t => exact hfits
        | leave t =>
            have hsite : s.site t = .locking := hsite
            simp only [Step.thread, Action.thread, hsite, Fits] at hfits
            simp only [step, goto, Step.thread, Action.thread, TicketLock.step,
              Function.update_self]
            cases p.role t <;> exact ⟨hfits.1, trivial⟩
        | unlock t =>
            have hsite : s.site t = .unlocking := hsite
            simp only [Step.thread, Action.thread, hsite, Fits] at hfits
            simp only [step, goto, Step.thread, Action.thread, TicketLock.step,
              Function.update_self]
            cases p.role t <;> exact ⟨hfits.1, rfl⟩
    | visit t =>
        obtain ⟨pos, stop, hsite, hne⟩ := Site.looks_iff.mp ha
        simp only [Step.thread, hsite, Fits] at hfits
        obtain ⟨hi, hin, hpos⟩ := hfits
        have hlt : pos + 1 ≤ stop := by omega
        cases hr : p.role t <;>
          simp only [step, hsite, hr, goto, record, Step.thread, Function.update_self] <;>
          exact ⟨hi, hin, hlt⟩
    | finish t =>
        obtain ⟨pos, hsite⟩ := Site.ends_iff.mp ha
        simp only [Step.thread, hsite, Fits] at hfits
        simp only [step, goto, Step.thread, Function.update_self]
        cases p.role t <;> exact ⟨hfits.1, hfits.2.1⟩
    | emplace1 t | emplace2 t | begin t | clear t | sleep t | empty t =>
        have hsite : s.site t = _ := ha
        simp only [Step.thread, hsite, Fits] at hfits
        simp only [step, goto, emplaceBack, record, Step.thread, Function.update_self, Fits]
        first
          | exact hfits
          | exact ⟨hfits.1, hfits.2, Nat.zero_le _⟩
  · rw [turns_step, List.count_append, hturns]
    cases a with
    | loop t =>
        have hsite : s.site t = .loop := ha
        simp only [step, goto, Step.thread, Function.update_self, hsite]
        split <;> rfl
    | lock a =>
        obtain ⟨hsite, hlock⟩ := ha
        cases a with
        | take t | spin t => rfl
        | leave t =>
            have hsite : s.site t = .locking := hsite
            simp only [step, goto, Step.thread, Action.thread, Function.update_self, hsite,
              Step.acquirer, Step.lockAction, Action.leaver]
            cases p.role t <;> simp [Role.afterLock, Site.turn, Option.bind, Action.leaver]
        | unlock t =>
            have hsite : s.site t = .unlocking := hsite
            simp only [step, goto, Step.thread, Action.thread, Function.update_self, hsite,
              Step.acquirer, Step.lockAction, Action.leaver]
            cases p.role t <;> rfl
    | visit t =>
        obtain ⟨pos, stop, hsite, hne⟩ := Site.looks_iff.mp ha
        cases hr : p.role t <;>
          simp only [step, hsite, hr, goto, record, Step.thread, Function.update_self] <;> rfl
    | finish t =>
        obtain ⟨pos, hsite⟩ := Site.ends_iff.mp ha
        simp only [step, goto, Step.thread, Function.update_self, hsite]
        cases p.role t <;> rfl
    | emplace1 t | emplace2 t | begin t | clear t | sleep t | empty t =>
        have hsite : s.site t = _ := ha
        simp only [step, goto, emplaceBack, record, Step.thread, Function.update_self, hsite]
        rfl

theorem reachable_placed (hs : (machine p w).Reachable s) : ∀ t, Placed p s t := by
  refine hs.invariant (P := fun s => ∀ t, Placed p s t) (fun t => ⟨?_, rfl⟩) ?_
  · exact ⟨Nat.zero_le _, rfl⟩
  · intro s a _ h ha t
    by_cases ht : t = a.thread
    · rw [ht]
      exact (h _).own ha
    · exact (h t).of_ne ht

/-! ### A thread can go on -/

def Step.isSpin : Step ι → Bool
  | .lock (.spin _) => true
  | .lock (.take _) | .lock (.leave _) | .lock (.unlock _) | .loop _ | .emplace1 _ | .emplace2 _
  | .begin _ | .visit _ | .finish _ | .clear _ | .sleep _ | .empty _ => false

/-- A thread that is not in `lock()` and not done has its step. -/
theorem exists_step {t : ι} (h : Placed p s t) (hlock : s.site t ≠ .locking)
    (hdone : s.site t ≠ .done) : ∃ a : Step ι, a.isSpin = false ∧ s.enabled a := by
  have hfits := h.fits
  cases hsite : s.site t with
  | loop => exact ⟨.loop t, rfl, hsite⟩
  | emplace1 => exact ⟨.emplace1 t, rfl, hsite⟩
  | emplace2 => exact ⟨.emplace2 t, rfl, hsite⟩
  | begin => exact ⟨.begin t, rfl, hsite⟩
  | clear => exact ⟨.clear t, rfl, hsite⟩
  | sleep => exact ⟨.sleep t, rfl, hsite⟩
  | empty => exact ⟨.empty t, rfl, hsite⟩
  | unlocking =>
      rw [hsite] at hfits
      exact ⟨.lock (.unlock t), rfl, hsite, hfits.2⟩
  | iterate pos stop =>
      by_cases hpos : pos = stop
      · exact ⟨.finish t, rfl, Site.ends_iff.mpr ⟨pos, by rw [hsite, hpos]⟩⟩
      · exact ⟨.visit t, rfl, Site.looks_iff.mpr ⟨pos, stop, hsite, hpos⟩⟩
  | locking => exact absurd hsite hlock
  | done => exact absurd hsite hdone

/-- **Nobody is kept waiting by nobody.**  While a thread is not done, some thread can do
something besides going round the loop of `lock()`. -/
theorem exists_progress [Fintype ι] (hn : Fintype.card ι ≤ 2 ^ w)
    (hs : (machine p w).Reachable s) (hopen : ∃ t, s.site t ≠ .done) :
    ∃ a : Step ι, a.isSpin = false ∧ s.enabled a := by
  have hplaced := reachable_placed hs
  by_cases hall : ∀ t, s.site t = .locking ∨ s.site t = .done
  · obtain ⟨t, ht⟩ := hopen
    have hlocking : s.site t = .locking := (hall t).resolve_right ht
    cases hphase : s.spinlock.phase t with
    | outside => exact ⟨.lock (.take t), rfl, hlocking, hphase⟩
    | inside k =>
        have hfits := (hplaced t).fits
        rw [hlocking, hphase] at hfits
        exact absurd trivial hfits.2
    | spinning k =>
        -- a ticket is out: then one is served, and its thread is in `lock()`
        have hticket : (s.spinlock.phase t).ticket ≠ none := by simp [hphase, Phase.ticket]
        obtain ⟨u, hu, -⟩ := served_unique hn (lock_reachable hs) ⟨t, hticket⟩
        have hfits := (hplaced u).fits
        rcases hall u with hsite | hsite <;> rw [hsite] at hfits
        · exact ⟨.lock (.leave u), rfl, hsite, (served_moves hu).resolve_left hfits.2⟩
        · rw [hfits.2] at hu
          simp [Phase.ticket] at hu
  · simp only [not_forall, not_or] at hall
    obtain ⟨t, hlock, hdone⟩ := hall
    exact exists_step (hplaced t) hlock hdone

/-! ### How far a thread is from its end -/

/-- Whether the ticket is still to be taken, the iterations to come, and the present one. -/
def toGo (p : Program ι) (s : Clients ι w) (t : ι) : Nat :=
  (if (s.spinlock.phase t).ticket = none then 1 else 0) + (p.limit t - s.i t) * 12 +
    (s.site t).rank

def Step.isVisit : Step ι → Bool
  | .visit _ => true
  | .lock _ | .loop _ | .emplace1 _ | .emplace2 _ | .begin _ | .finish _ | .clear _ | .sleep _
  | .empty _ => false

theorem toGo_of_ne {u : ι} (h : u ≠ a.thread) : toGo p (step p s a) u = toGo p s u := by
  unfold toGo
  rw [step_i_of_ne h, step_site_of_ne h, step_phase_of_ne h]

omit [DecidableEq ι] in
/-- A step to a place of lower rank, in the same iteration and with the same ticket. -/
theorem toGo_lt {s' : Clients ι w} {t : ι} (hphase : s'.spinlock.phase t = s.spinlock.phase t)
    (hi : s'.i t = s.i t) (hrank : (s'.site t).rank < (s.site t).rank) :
    toGo p s' t < toGo p s t := by
  unfold toGo
  rw [hphase, hi]
  exact Nat.add_lt_add_left hrank _

/-- Every step but the two of the loops brings its thread nearer to the end. -/
theorem toGo_own (h : Placed p s a.thread) (ha : s.enabled a) (hspin : a.isSpin = false)
    (hvisit : a.isVisit = false) : toGo p (step p s a) a.thread < toGo p s a.thread := by
  have hfits := h.fits
  cases a with
  | loop t =>
      have hsite : s.site t = .loop := ha
      refine toGo_lt rfl rfl ?_
      simp only [step, goto, Step.thread, Function.update_self, hsite]
      split <;> decide
  | lock a =>
      obtain ⟨hsite, hlock⟩ := ha
      cases a with
      | spin t => simp [Step.isSpin] at hspin
      | take t =>
          have hsite : s.site t = .locking := hsite
          have hphase : s.spinlock.phase t = .outside := hlock
          simp only [toGo, step, Step.thread, Action.thread, hsite, hphase, TicketLock.step,
            Function.update_self, Phase.ticket, reduceCtorEq, if_true, if_false]
          omega
      | leave t =>
          have hsite : s.site t = .locking := hsite
          have hphase := enabled_leave.mp hlock
          simp only [toGo, step, goto, Step.thread, Action.thread, hsite, hphase,
            TicketLock.step, Function.update_self, Phase.ticket, reduceCtorEq, if_false]
          cases p.role t <;> simp [Role.afterLock, Site.rank]
      | unlock t =>
          have hsite : s.site t = .unlocking := hsite
          obtain ⟨k, hphase⟩ := isInside_iff.mp hlock
          simp only [toGo, step, goto, Step.thread, Action.thread, hsite, hphase,
            TicketLock.step, Function.update_self, Phase.ticket, reduceCtorEq, if_true, if_false]
          cases p.role t <;> simp only [Role.afterUnlock, Site.rank] <;> omega
  | visit t => simp [Step.isVisit] at hvisit
  | finish t =>
      obtain ⟨pos, hsite⟩ := Site.ends_iff.mp ha
      refine toGo_lt rfl rfl ?_
      simp only [step, goto, Step.thread, Function.update_self, hsite]
      cases p.role t <;> simp [Role.afterLoop, Site.rank]
  | emplace1 t | emplace2 t | begin t | clear t =>
      have hsite : s.site t = _ := ha
      refine toGo_lt rfl rfl ?_
      simp [step, goto, emplaceBack, Step.thread, hsite, Site.rank]
  | sleep t | empty t =>
      have hsite : s.site t = _ := ha
      simp only [Step.thread, hsite, Fits] at hfits
      simp only [toGo, step, goto, Step.thread, Function.update_self, hsite, hfits.2, Site.rank,
        Phase.ticket, if_true]
      omega

theorem toGo_visit {t : ι} (ha : s.enabled (.visit t)) (u : ι) :
    toGo p (step p s (.visit t)) u = toGo p s u := by
  obtain ⟨pos, stop, hsite, hne⟩ := Site.looks_iff.mp ha
  by_cases hu : u = t
  · subst hu
    cases hr : p.role u <;> simp [toGo, step, hsite, hr, goto, record, Site.rank]
  · exact toGo_of_ne (a := .visit t) hu

variable [Fintype ι]

/-- All threads together. -/
def allToGo (p : Program ι) (s : Clients ι w) : Nat := ∑ t, toGo p s t

theorem allToGo_lt (h : ∀ t, Placed p s t) (ha : s.enabled a) (hspin : a.isSpin = false)
    (hvisit : a.isVisit = false) : allToGo p (step p s a) < allToGo p s := by
  refine Finset.sum_lt_sum (fun u _ => ?_)
    ⟨a.thread, Finset.mem_univ _, toGo_own (h _) ha hspin hvisit⟩
  by_cases hu : u = a.thread
  · rw [hu]
    exact (toGo_own (h _) ha hspin hvisit).le
  · rw [toGo_of_ne hu]

theorem allToGo_visit {t : ι} (ha : s.enabled (.visit t)) :
    allToGo p (step p s (.visit t)) = allToGo p s :=
  Finset.sum_congr rfl fun u _ => toGo_visit ha u

/-- An element is looked at. -/
theorem toVisit_visit {t : ι} (h : Placed p s t) (ha : s.enabled (.visit t)) :
    ∑ u, ((step p s (.visit t)).site u).toVisit < ∑ u, (s.site u).toVisit := by
  obtain ⟨pos, stop, hsite, hne⟩ := Site.looks_iff.mp ha
  have hfits := h.fits
  rw [hsite] at hfits
  have hown : ((step p s (.visit t)).site t).toVisit < (s.site t).toVisit := by
    have hpos : pos ≤ stop := hfits.2.2
    cases hr : p.role t <;>
      simp only [step, hsite, hr, goto, record, Function.update_self, Site.toVisit] <;> omega
  refine Finset.sum_lt_sum (fun u _ => ?_) ⟨t, Finset.mem_univ t, hown⟩
  by_cases hu : u = t
  · rw [hu]
    exact hown.le
  · rw [step_site_of_ne (show u ≠ (Step.visit t).thread from hu)]

/-! ### Endless runs -/

/-- In the end there are only threads that wait for their tickets. -/
theorem only_spins {run : ℕ → Step ι} (hrun : (machine p w).Endless run) :
    ∃ k, ∀ j, k ≤ j → (run j).isSpin = true := by
  have hrest : ¬ Machine.Forever run (fun a => a.isSpin = false ∧ a.isVisit = false) := by
    refine hrun.not_forever (μ := allToGo p) (q := fun _ => False) ?_ ?_ ?_
    · exact fun s a hs ha hp _ => allToGo_lt (reachable_placed hs) ha hp.1 hp.2
    · intro s a hs ha _
      by_cases hspin : a.isSpin = true
      · cases a with
        | lock b => cases b <;> first | exact le_rfl | simp [Step.isSpin] at hspin
        | _ => simp [Step.isSpin] at hspin
      · by_cases hvisit : a.isVisit = true
        · cases a with
          | visit t => exact (allToGo_visit ha).le
          | _ => simp [Step.isVisit] at hvisit
        · simp only [Bool.not_eq_true] at hspin hvisit
          exact (allToGo_lt (reachable_placed hs) ha hspin hvisit).le
    · exact fun h => (h 0).choose_spec.2
  have hvisits : ¬ Machine.Forever run (fun a => a.isVisit = true) := by
    refine hrun.not_forever (μ := fun s => ∑ u, (s.site u).toVisit)
      (q := fun a => a.isSpin = false ∧ a.isVisit = false) ?_ ?_ hrest
    · intro s a hs ha hvisit _
      cases a with
      | visit t => exact toVisit_visit (reachable_placed hs t) ha
      | _ => simp [Step.isVisit] at hvisit
    · intro s a hs ha hq
      by_cases hvisit : a.isVisit = true
      · cases a with
        | visit t => exact (toVisit_visit (reachable_placed hs t) ha).le
        | _ => simp [Step.isVisit] at hvisit
      · have hspin : a.isSpin = true := by simpa [hvisit] using hq
        cases a with
        | lock b => cases b <;> first | exact le_rfl | simp [Step.isSpin] at hspin
        | _ => simp [Step.isSpin] at hspin
  simp only [Machine.Forever, not_forall, not_exists, not_and] at hrest hvisits
  obtain ⟨i, hi⟩ := hrest
  obtain ⟨j, hj⟩ := hvisits
  refine ⟨max i j, fun n hn => ?_⟩
  have hno := hi n (by omega)
  have hnovisit := hj n (by omega)
  simp only [Bool.not_eq_true] at hnovisit
  by_contra hspin
  simp only [Bool.not_eq_true] at hspin
  exact hno hspin hnovisit

omit [Fintype ι] in
theorem stateAt_of_spins {run : ℕ → Step ι} {k : ℕ} (hk : ∀ j, k ≤ j → (run j).isSpin = true)
    {j : ℕ} (hj : k ≤ j) : (machine p w).stateAt run j = (machine p w).stateAt run k := by
  induction j, hj using Nat.le_induction with
  | base => rfl
  | succ j hj ih =>
      rw [Machine.stateAt_succ, ih]
      have hspin := hk j hj
      cases ha : run j with
      | lock b => cases b <;> first | rfl | simp [ha, Step.isSpin] at hspin
      | _ => simp [ha, Step.isSpin] at hspin

omit [DecidableEq ι] [Fintype ι] in
/-- A thread that can only wait cannot do another step. -/
theorem thread_ne_of_spin {b : Step ι} (ha : s.enabled a) (hb : s.enabled b)
    (hspin : a.isSpin = false) (hspin' : b.isSpin = true) : b.thread ≠ a.thread := by
  intro heq
  cases b with
  | lock b =>
      cases b with
      | spin t =>
          obtain ⟨hsite, hlock⟩ := hb
          have hsite : s.site t = .locking := hsite
          have heq : t = a.thread := heq
          subst heq
          cases a with
          | lock a =>
              obtain ⟨hsite', hlock'⟩ := ha
              cases a with
              | spin u => simp [Step.isSpin] at hspin
              | take u =>
                  have hphase : s.spinlock.phase u = .outside := hlock'
                  simp [TicketLock.enabled, Step.thread, Action.thread, hphase] at hlock
              | leave u =>
                  have hphase := enabled_leave.mp hlock'
                  simp [TicketLock.enabled, Step.thread, Action.thread, hphase] at hlock
              | unlock u =>
                  have hsite' : s.site u = .unlocking := hsite'
                  simp [Step.thread, Action.thread, hsite'] at hsite
          | visit u =>
              obtain ⟨pos, stop, hsite', -⟩ := Site.looks_iff.mp ha
              simp [Step.thread, hsite'] at hsite
          | finish u =>
              obtain ⟨pos, hsite'⟩ := Site.ends_iff.mp ha
              simp [Step.thread, hsite'] at hsite
          | loop u | emplace1 u | emplace2 u | begin u | clear u | sleep u | empty u =>
              have hsite' : s.site u = _ := ha
              simp [Step.thread, hsite'] at hsite
      | take _ | leave _ | unlock _ => simp [Step.isSpin] at hspin'
  | _ => simp [Step.isSpin] at hspin'

omit [DecidableEq ι] [Fintype ι] in
/-- A thread in `lock()` is not done. -/
theorem open_of_spin (ha : s.enabled a) (hspin : a.isSpin = true) : ∃ t, s.site t ≠ .done := by
  cases a with
  | lock b =>
      cases b with
      | spin t =>
          obtain ⟨hsite, -⟩ := ha
          have hsite : s.site t = .locking := hsite
          exact ⟨t, by simp [hsite]⟩
      | take _ | leave _ | unlock _ => simp [Step.isSpin] at hspin
  | _ => simp [Step.isSpin] at hspin

omit [Fintype ι] in
theorem stuck_of_done (h : ∀ t, s.site t = .done) : (machine p w).Stuck s := by
  intro a ha
  cases a with
  | lock a =>
      have hsite := ha.1
      rw [h] at hsite
      cases a <;> exact absurd hsite (by simp [Action.site])
  | visit t =>
      obtain ⟨pos, stop, hsite, -⟩ := Site.looks_iff.mp ha
      rw [h] at hsite
      exact absurd hsite (by simp)
  | finish t =>
      obtain ⟨pos, hsite⟩ := Site.ends_iff.mp ha
      rw [h] at hsite
      exact absurd hsite (by simp)
  | loop t | emplace1 t | emplace2 t | begin t | clear t | sleep t | empty t =>
      have hsite : s.site t = _ := ha
      rw [h] at hsite
      exact absurd hsite (by simp)

/--
**The clients come to their end**, unless the scheduler leaves out a thread that could go on.  In an
endless run there is, from some step on, always the same step that a thread could do besides waiting
for its ticket, and that thread is never scheduled.  And where nobody can do anything, every
loop has gone round as often as it says, each time with one turn inside the lock.
-/
theorem clients_end (w n : Nat) (hn : n ≤ 2 ^ w) (p : Program (Fin n)) :
    (∀ run : ℕ → Step (Fin n), (machine p w).Endless run →
      ∃ k a, a.isSpin = false ∧ ∀ j, k ≤ j →
        ((machine p w).stateAt run j).enabled a ∧ (run j).thread ≠ a.thread) ∧
    ∀ s, (machine p w).Reachable s → (machine p w).Stuck s →
      ∀ t, s.site t = .done ∧ s.i t = p.limit t ∧
        (s.turns.map Turn.who).count t = p.limit t := by
  have hcard : Fintype.card (Fin n) ≤ 2 ^ w := by rwa [Fintype.card_fin]
  refine ⟨fun run hrun => ?_, fun s hs hstuck t => ?_⟩
  · obtain ⟨k, hk⟩ := only_spins hrun
    obtain ⟨a, hspin, ha⟩ := exists_progress hcard (hrun.reachable k)
      (open_of_spin (hrun.enabled k) (hk k le_rfl))
    refine ⟨k, a, hspin, fun j hj => ?_⟩
    have hsame := stateAt_of_spins (p := p) (w := w) hk hj
    have henabled := hrun.enabled j
    rw [hsame] at henabled ⊢
    exact ⟨ha, thread_ne_of_spin ha henabled hspin (hk j hj)⟩
  · have hdone : s.site t = .done := by
      by_contra hopen
      obtain ⟨a, -, ha⟩ := exists_progress hcard hs ⟨t, hopen⟩
      exact hstuck a ha
    obtain ⟨hfits, hturns⟩ := reachable_placed hs t
    rw [hdone] at hfits hturns
    exact ⟨hdone, hfits.1, by rw [hturns, hfits.1]; rfl⟩

attribute [local instance] neZeroTwo

/-- One iteration each, on a lock of one bit: the consumer waits for the producer. -/
def oneRound : Program (Fin 2) where
  role t := if t = 0 then .producer else .consumer
  limit _ := 1

def oneRoundRun : List (Step (Fin 2)) :=
  [.loop 0, .lock (.take 0), .loop 1, .lock (.take 1), .lock (.leave 0), .emplace1 0,
    .lock (.spin 1), .emplace2 0, .begin 0, .visit 0, .visit 0, .finish 0, .lock (.unlock 0),
    .lock (.leave 1), .begin 1, .visit 1, .visit 1, .finish 1, .clear 1, .lock (.unlock 1),
    .sleep 0, .empty 1, .loop 0, .loop 1]

theorem clients_end_one : ((((machine oneRound 1).after (machine oneRound 1).init
    oneRoundRun).turns.map Turn.who).count 1) = 1 :=
  ((clients_end 1 2 (by decide) oneRound).2 _ (Machine.reachable_after (by decide))
    (stuck_of_done (by decide)) 1).2.2

end Clients

end LinuxSystems.TicketLock
