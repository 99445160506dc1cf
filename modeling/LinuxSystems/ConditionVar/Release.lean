/-
When every wait is released by a notification.

Two things go wrong.  A thread that is woken for no reason goes on to process what nobody has
announced; and a notification that finds nobody waiting is lost, and with it a thread that
comes to wait later.  Where a thread is woken only while more calls of `done` have begun than
threads have been woken, and a notification is lost only while more of them are still to come
than threads are still to be woken, all is well.  A step that breaks either condition cannot be
made good without another wakeup for no reason.
-/
import LinuxSystems.ConditionVar.Counts

namespace LinuxSystems.ConditionVar

variable {ι κ : Type*} {s : ConditionVar ι κ} {a : Action ι κ} {t : ι} {j : κ}

/-! ### What is wanted of the threads -/

def Action.isSpurious : Action ι κ → Prop
  | .spurious _ => True
  | .announce _ | .lock _ | .wait _ | .relock _ | .processing _ | .finish _ | .unlock _ | .ready _
  | .notify _ _ => False

/-- Nothing can happen any more but that a thread is woken for no reason. -/
def Settled (s : ConditionVar ι κ) : Prop := ∀ a, ¬ a.isSpurious → ¬ s.enabled a

/-- No more calls of `processing` have started than calls of `done` have begun, and nobody is
left waiting in the end. -/
structure HandsOver (s : ConditionVar ι κ) : Prop where
  announced : s.output.count .processing ≤ s.output.count .resourceReady
  returned : Settled s → ∀ t, s.waiting t = .returned

/-- A thread is woken while more calls of `done` have begun than threads have been woken; and a
notification that reaches nobody leaves as many to come as threads are to be woken. -/
def Answered [Fintype ι] [Fintype κ] (s : ConditionVar ι κ) : Action ι κ → Prop
  | .spurious _ | .notify _ (some _) => s.released < s.begun
  | .notify _ none => s.pending < s.remaining
  | .announce _ | .lock _ | .wait _ | .relock _ | .processing _ | .finish _ | .unlock _
  | .ready _ => True

instance [Fintype ι] [Fintype κ] (s : ConditionVar ι κ) : ∀ a, Decidable (Answered s a)
  | .spurious _ | .notify _ (some _) => inferInstanceAs (Decidable (s.released < s.begun))
  | .notify _ none => inferInstanceAs (Decidable (s.pending < s.remaining))
  | .announce _ | .lock _ | .wait _ | .relock _ | .processing _ | .finish _ | .unlock _
  | .ready _ => isTrue trivial

variable [DecidableEq ι] [DecidableEq κ]

/-! ### Where the threads are when nothing happens -/

/-- A step of a `waiting` thread itself. -/
def Action.isOwn : Action ι κ → Prop
  | .announce _ | .lock _ | .wait _ | .relock _ | .processing _ | .finish _ | .unlock _ => True
  | .spurious _ | .ready _ | .notify _ _ => False

/-- **A thread without a next step waits to be woken, or has returned.** -/
theorem waits_or_returned (hr : (machine ι κ).Reachable s)
    (h : ∀ a, a.isOwn → ¬ s.enabled a) (t : ι) :
    s.waiting t = .waiting ∨ s.waiting t = .returned := by
  -- nobody is inside, so the mutex is free
  have hfree : s.owner = none := by
    cases howner : s.owner with
    | none => rfl
    | some u =>
        have hinside : (s.waiting u).stand = .inside :=
          (Monitor.reachable_owned (monitor_reachable hr) u).mpr howner
        cases hu : s.waiting u with
        | wait => exact absurd hu (h (.wait u) trivial)
        | processing => exact absurd hu (h (.processing u) trivial)
        | finish => exact absurd hu (h (.finish u) trivial)
        | unlock => exact absurd hu (h (.unlock u) trivial)
        | announce | lock | waiting | woken | returned =>
            rw [hu] at hinside
            exact Stand.noConfusion hinside
  cases hat : s.waiting t with
  | waiting => exact Or.inl rfl
  | returned => exact Or.inr rfl
  | announce => exact absurd hat (h (.announce t) trivial)
  | lock => exact absurd ⟨hat, hfree⟩ (h (.lock t) trivial)
  | wait => exact absurd hat (h (.wait t) trivial)
  | woken => exact absurd ⟨hat, hfree⟩ (h (.relock t) trivial)
  | processing => exact absurd hat (h (.processing t) trivial)
  | finish => exact absurd hat (h (.finish t) trivial)
  | unlock => exact absurd hat (h (.unlock t) trivial)

omit [DecidableEq ι] [DecidableEq κ] in
/-- A notification can always be made. -/
theorem exists_reached (s : ConditionVar ι κ) : ∃ reached, s.MayReach reached := by
  by_cases hwait : ∃ t, s.waiting t = .waiting
  · obtain ⟨t, ht⟩ := hwait
    exact ⟨some t, ht⟩
  · exact ⟨none, fun t ht => hwait ⟨t, ht⟩⟩

omit [DecidableEq ι] [DecidableEq κ] in
theorem done_of_settled (h : Settled s) (j : κ) : s.done j = .returned := by
  cases hat : s.done j with
  | returned => rfl
  | announce => exact absurd hat (h (.ready j) id)
  | notify =>
      obtain ⟨reached, hreached⟩ := exists_reached s
      exact absurd ⟨hat, hreached⟩ (h (.notify j reached) id)

theorem waiting_of_settled (hr : (machine ι κ).Reachable s) (h : Settled s) (t : ι) :
    s.waiting t = .waiting ∨ s.waiting t = .returned := by
  refine waits_or_returned hr (fun a ha => h a fun hspurious => ?_) t
  cases a <;> first | exact ha.elim | exact hspurious.elim

variable [Fintype ι] [Fintype κ]

/-! ### Runs in which every thread is answered -/

/-- There is a notification for every thread. -/
structure Matched (s : ConditionVar ι κ) : Prop where
  released : s.released ≤ s.begun
  pending : s.pending ≤ s.remaining

theorem Matched.step (h : Matched s) (ha : s.enabled a) (hg : Answered s a) :
    Matched (s.step a) := by
  obtain ⟨hreleased, hpending, -, hbegun, hremaining⟩ := step_numbers ha
  have hrel := h.released
  have hpen := h.pending
  cases a with
  | spurious t =>
      have hg : s.released < s.begun := hg
      simp only [Action.wakes, Action.begins, Action.notifies] at *
      exact ⟨by omega, by omega⟩
  | notify j reached =>
      cases reached with
      | some t =>
          have hg : s.released < s.begun := hg
          simp only [Action.wakes, Action.begins, Action.notifies] at *
          exact ⟨by omega, by omega⟩
      | none =>
          have hg : s.pending < s.remaining := hg
          simp only [Action.wakes, Action.begins, Action.notifies] at *
          exact ⟨by omega, by omega⟩
  | announce t | lock t | wait t | relock t | processing t | finish t | unlock t | ready j =>
      simp only [Action.wakes, Action.begins, Action.notifies] at *
      exact ⟨by omega, by omega⟩

theorem matched (hcard : Fintype.card ι ≤ Fintype.card κ)
    (h : ((machine ι κ).restrict Answered).Reachable s) : Matched s := by
  refine h.invariant (P := Matched) ⟨?_, ?_⟩ ?_
  · show tally Waiting.released (fun _ : ι => Waiting.announce) ≤ _
    rw [tally_const]
    exact Nat.zero_le _
  · show tally Waiting.pending (fun _ : ι => Waiting.announce) ≤
      tally Done.remaining (fun _ : κ => Done.announce)
    rw [tally_const, tally_const]
    exact Nat.mul_le_mul_right 1 hcard
  · intro s a _ hs ha
    have hboth : s.enabled a ∧ Answered s a := ha
    exact hs.step hboth.1 hboth.2

theorem Matched.handsOver (h : Matched s) (hr : (machine ι κ).Reachable s) : HandsOver s := by
  obtain ⟨hprocessing, hready⟩ := output_counts hr
  have hstarted := started_le_released s
  have hreleased := h.released
  refine ⟨by omega, fun hsettled t => ?_⟩
  refine (waiting_of_settled hr hsettled t).resolve_left fun hat => ?_
  have hremaining : s.remaining = 0 :=
    tally_eq_zero.mpr fun j => congrArg Done.remaining (done_of_settled hsettled j)
  have hpending := le_tally Waiting.pending s.waiting t
  have hle : s.pending ≤ 0 := hremaining ▸ h.pending
  rw [hat] at hpending
  exact absurd (hpending.trans hle) (by decide)

/-! ### A step after which it goes wrong -/

/-- With more threads woken than calls begun, the threads go on to process too much. -/
theorem overtakes (hr : (machine ι κ).Reachable s) (hover : s.begun < s.released) :
    ∃ rest, (machine ι κ).Legal s rest ∧ (∀ b ∈ rest, ¬ b.isSpurious) ∧
      ¬ HandsOver ((machine ι κ).after s rest) := by
  obtain ⟨rest, hrest, hend⟩ := descends.exists_rest (InvImage.wf _ Nat.lt_wfRel.wf)
    (fun _ => Action.isOwn) hr
  have hl := Machine.restrict_legal hrest
  refine ⟨rest, hl, fun b hb hspurious => ?_, fun hhands => ?_⟩
  · have hown := Machine.restrict_forall hrest b hb
    cases b <;> first | exact hown.elim | exact hspurious.elim
  · have hkeep : ((machine ι κ).after s rest).begun < ((machine ι κ).after s rest).released := by
      refine hr.keeps (P := fun s => s.begun < s.released) hover ?_ hrest
      intro s a _ hs ha hown
      obtain ⟨hreleased, -, -, hbegun, -⟩ := step_numbers ha
      show (s.step a).begun < (s.step a).released
      cases a <;> first | exact hown.elim | (simp only [Action.wakes, Action.begins] at *; omega)
    have hreach := hr.after hl
    have hstarted : ((machine ι κ).after s rest).started =
        ((machine ι κ).after s rest).released := by
      refine tally_congr fun t => ?_
      rcases waits_or_returned hreach (fun a ha hen => hend a hen ha) t with hat | hat <;>
        rw [hat] <;> rfl
    obtain ⟨hprocessing, hready⟩ := output_counts hreach
    have hannounced := hhands.announced
    omega

/-- With more threads to be woken than notifications to come, somebody is left waiting. -/
theorem strands (hr : (machine ι κ).Reachable s) (hshort : s.remaining < s.pending) :
    ∃ rest, (machine ι κ).Legal s rest ∧ (∀ b ∈ rest, ¬ b.isSpurious) ∧
      ¬ HandsOver ((machine ι κ).after s rest) := by
  obtain ⟨rest, hrest, hend⟩ := descends.exists_rest (InvImage.wf _ Nat.lt_wfRel.wf)
    (fun _ a => ¬ a.isSpurious) hr
  have hl := Machine.restrict_legal hrest
  refine ⟨rest, hl, Machine.restrict_forall hrest, fun hhands => ?_⟩
  have hkeep : ((machine ι κ).after s rest).remaining < ((machine ι κ).after s rest).pending := by
    refine hr.keeps (P := fun s => s.remaining < s.pending) hshort ?_ hrest
    intro s a _ hs ha hnot
    obtain ⟨-, hpending, -, -, hremaining⟩ := step_numbers ha
    show (s.step a).remaining < (s.step a).pending
    cases a with
    | spurious t => exact absurd trivial hnot
    | notify j reached =>
        cases reached <;> simp only [Action.wakes, Action.notifies] at * <;> omega
    | announce t | lock t | wait t | relock t | processing t | finish t | unlock t | ready j =>
        simp only [Action.wakes, Action.notifies] at *
        omega
  have hsettled : Settled ((machine ι κ).after s rest) := fun a ha hen => hend a hen ha
  have hall := hhands.returned hsettled
  have hzero : ((machine ι κ).after s rest).pending = 0 :=
    tally_eq_zero.mpr fun t => congrArg Waiting.pending (hall t)
  omega

/--
**When every wait is released by a notification.**  A run in which every thread is answered hands
the work over all along, where there are at least as many calls of `done` as of `waiting`; and
a step that does not answer a thread can be followed, without any wakeup for no reason, by
steps after which the work is not handed over.
-/
theorem waits_released (hcard : Fintype.card ι ≤ Fintype.card κ) :
    (∀ tr, ((machine ι κ).restrict Answered).Legal (machine ι κ).init tr →
      ∀ pre, pre <+: tr → HandsOver ((machine ι κ).after (machine ι κ).init pre)) ∧
    ∀ s a, (machine ι κ).Reachable s → s.enabled a → ¬ Answered s a →
      ∃ rest, (machine ι κ).Legal (s.step a) rest ∧ (∀ b ∈ rest, ¬ b.isSpurious) ∧
        ¬ HandsOver ((machine ι κ).after (s.step a) rest) := by
  refine ⟨fun tr hl pre hpre => ?_, fun s a hr ha hnot => ?_⟩
  · have hreach := Machine.reachable_after (Machine.legal_of_prefix hpre hl)
    exact (matched hcard hreach).handsOver hreach.of_restrict
  · have hnext : (machine ι κ).Reachable (s.step a) := hr.next ha
    obtain ⟨hreleased, hpending, -, hbegun, hremaining⟩ := step_numbers ha
    have hwakes : a.wakes = 1 → a.begins = 0 → ¬ s.released < s.begun →
        (s.step a).begun < (s.step a).released := by
      intro hone hzero hle
      omega
    cases a with
    | spurious t => exact overtakes hnext (hwakes rfl rfl hnot)
    | notify j reached =>
        cases reached with
        | some t => exact overtakes hnext (hwakes rfl rfl hnot)
        | none =>
            have hle : ¬ s.pending < s.remaining := hnot
            refine strands hnext ?_
            simp only [Action.wakes, Action.notifies] at hpending hremaining
            omega
    | announce t | lock t | wait t | relock t | processing t | finish t | unlock t | ready j =>
        exact absurd trivial hnot

/-- The thread waits before it is notified. -/
def waitFirst : List (Action Unit Unit) :=
  [.announce (), .lock (), .wait (), .ready (), .notify () (some ()), .relock (), .processing (),
    .finish (), .unlock ()]

theorem waits_released_first :
    HandsOver ((machine Unit Unit).after (machine Unit Unit).init waitFirst) :=
  (waits_released (ι := Unit) (κ := Unit) (le_refl _)).1 waitFirst (by decide +kernel) waitFirst
    List.prefix_rfl

/-- It is notified before it waits. -/
def notifyFirst : List (Action Unit Unit) :=
  [.ready (), .notify () none, .announce (), .lock (), .wait ()]

/-- It is woken before anybody has called `done`. -/
def wokenFirst : List (Action Unit Unit) :=
  [.announce (), .lock (), .wait (), .spurious (), .relock (), .processing ()]

/-- Then it waits for ever, or it processes what is not there. -/
theorem waits_unreleased :
    (machine Unit Unit).Legal (machine Unit Unit).init notifyFirst ∧
      ¬ HandsOver ((machine Unit Unit).after (machine Unit Unit).init notifyFirst) ∧
      (machine Unit Unit).Legal (machine Unit Unit).init wokenFirst ∧
      ¬ HandsOver ((machine Unit Unit).after (machine Unit Unit).init wokenFirst) := by
  refine ⟨by decide +kernel, fun hhands => ?_, by decide +kernel, fun hhands => ?_⟩
  · refine absurd (hhands.returned (fun a hnot ha => ?_) ()) (by decide +kernel)
    cases a with
    | spurious t => exact hnot trivial
    | notify j reached =>
        cases j
        exact absurd ha.1 (by decide +kernel)
    | lock t | relock t =>
        cases t
        exact absurd ha.1 (by decide +kernel)
    | announce t | wait t | processing t | finish t | unlock t | ready t =>
        cases t
        exact absurd ha (by decide +kernel)
  · exact absurd hhands.announced (by decide +kernel)

end LinuxSystems.ConditionVar
