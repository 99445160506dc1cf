/-
How many threads were woken, and how many notified.

A step changes four numbers at most: of the `waiting` threads, how many have been woken and how
many have got to `processing`; of the `done` threads, how many have begun and how many have
notified.  The numbers are read off the places of the threads, and the first line of each
function counts its calls in the output as well.
-/
import LinuxSystems.ConditionVar.Model
import LinuxSystems.Machine.Endless
import LinuxSystems.Machine.Tally
import Mathlib.Data.Fintype.Sum

namespace LinuxSystems.ConditionVar

variable {ι κ : Type*} {s : ConditionVar ι κ} {a : Action ι κ} {t u : ι} {j : κ} {x : Waiting}

/-! ### The numbers -/

/-- The thread has been woken. -/
def Waiting.released : Waiting → Nat
  | .announce | .lock | .wait | .waiting => 0
  | .woken | .processing | .finish | .unlock | .returned => 1

/-- It has got to `processing`. -/
def Waiting.started : Waiting → Nat
  | .announce | .lock | .wait | .waiting | .woken | .processing => 0
  | .finish | .unlock | .returned => 1

/-- It has not been woken. -/
def Waiting.pending : Waiting → Nat
  | .announce | .lock | .wait | .waiting => 1
  | .woken | .processing | .finish | .unlock | .returned => 0

/-- The call has begun. -/
def Done.begun : Done → Nat
  | .announce => 0
  | .notify | .returned => 1

/-- The call has not notified. -/
def Done.remaining : Done → Nat
  | .announce | .notify => 1
  | .returned => 0

section Numbers

variable [Fintype ι] [Fintype κ]

/-- The threads that have been woken. -/
def released (s : ConditionVar ι κ) : Nat := tally Waiting.released s.waiting

def started (s : ConditionVar ι κ) : Nat := tally Waiting.started s.waiting

/-- The threads that have not been woken. -/
def pending (s : ConditionVar ι κ) : Nat := tally Waiting.pending s.waiting

def begun (s : ConditionVar ι κ) : Nat := tally Done.begun s.done

/-- The calls of `done` that have not notified. -/
def remaining (s : ConditionVar ι κ) : Nat := tally Done.remaining s.done

end Numbers

/-- The step wakes a thread. -/
def Action.wakes : Action ι κ → Nat
  | .spurious _ | .notify _ (some _) => 1
  | .announce _ | .lock _ | .wait _ | .relock _ | .processing _ | .finish _ | .unlock _ | .ready _
  | .notify _ none => 0

def Action.starts : Action ι κ → Nat
  | .processing _ => 1
  | .announce _ | .lock _ | .wait _ | .relock _ | .finish _ | .unlock _ | .spurious _ | .ready _
  | .notify _ _ => 0

def Action.begins : Action ι κ → Nat
  | .ready _ => 1
  | .announce _ | .lock _ | .wait _ | .relock _ | .processing _ | .finish _ | .unlock _
  | .spurious _ | .notify _ _ => 0

def Action.notifies : Action ι κ → Nat
  | .notify _ _ => 1
  | .announce _ | .lock _ | .wait _ | .relock _ | .processing _ | .finish _ | .unlock _
  | .spurious _ | .ready _ => 0

/-! ### What a step does to them -/

variable [DecidableEq ι] [DecidableEq κ]

/-- A step takes one `waiting` thread from a place to another, or none. -/
theorem step_waiting (ha : s.enabled a) :
    (s.step a).waiting = s.waiting ∧ a.wakes = 0 ∧ a.starts = 0 ∨
      ∃ t x y, s.waiting t = x ∧ (s.step a).waiting = Function.update s.waiting t y ∧
        y.released = x.released + a.wakes ∧ x.pending = y.pending + a.wakes ∧
        y.started = x.started + a.starts := by
  cases a with
  | announce t => exact Or.inr ⟨t, _, .lock, ha, rfl, rfl, rfl, rfl⟩
  | lock t => exact Or.inr ⟨t, _, .wait, ha.1, rfl, rfl, rfl, rfl⟩
  | wait t => exact Or.inr ⟨t, _, .waiting, ha, rfl, rfl, rfl, rfl⟩
  | relock t => exact Or.inr ⟨t, _, .processing, ha.1, rfl, rfl, rfl, rfl⟩
  | processing t => exact Or.inr ⟨t, _, .finish, ha, rfl, rfl, rfl, rfl⟩
  | finish t => exact Or.inr ⟨t, _, .unlock, ha, rfl, rfl, rfl, rfl⟩
  | unlock t => exact Or.inr ⟨t, _, .returned, ha, rfl, rfl, rfl, rfl⟩
  | spurious t => exact Or.inr ⟨t, _, .woken, ha, rfl, rfl, rfl, rfl⟩
  | ready j => exact Or.inl ⟨rfl, rfl, rfl⟩
  | notify j reached =>
      cases reached with
      | none => exact Or.inl ⟨rfl, rfl, rfl⟩
      | some t => exact Or.inr ⟨t, _, .woken, ha.2, rfl, rfl, rfl, rfl⟩

/-- Or it takes one `done` thread from a place to another. -/
theorem step_done (ha : s.enabled a) :
    (s.step a).done = s.done ∧ a.begins = 0 ∧ a.notifies = 0 ∨
      ∃ j x y, s.done j = x ∧ (s.step a).done = Function.update s.done j y ∧
        y.begun = x.begun + a.begins ∧ x.remaining = y.remaining + a.notifies := by
  cases a with
  | ready j => exact Or.inr ⟨j, _, .notify, ha, rfl, rfl, rfl⟩
  | notify j reached =>
      cases reached with
      | none => exact Or.inr ⟨j, _, .returned, ha.1, rfl, rfl, rfl⟩
      | some t => exact Or.inr ⟨j, _, .returned, ha.1, rfl, rfl, rfl⟩
  | announce t | lock t | wait t | relock t | processing t | finish t | unlock t | spurious t =>
      exact Or.inl ⟨rfl, rfl, rfl⟩

section Numbers

variable [Fintype ι] [Fintype κ]

/-- **What a step does to the numbers.** -/
theorem step_numbers (ha : s.enabled a) :
    (s.step a).released = s.released + a.wakes ∧ s.pending = (s.step a).pending + a.wakes ∧
      (s.step a).started = s.started + a.starts ∧ (s.step a).begun = s.begun + a.begins ∧
      s.remaining = (s.step a).remaining + a.notifies := by
  have hwaiting : (s.step a).released = s.released + a.wakes ∧
      s.pending = (s.step a).pending + a.wakes ∧
      (s.step a).started = s.started + a.starts := by
    unfold released pending started
    rcases step_waiting ha with ⟨heq, hwakes, hstarts⟩ | ⟨t, x, y, hx, heq, hrel, hpen, hsta⟩
    · rw [heq, hwakes, hstarts]
      exact ⟨rfl, rfl, rfl⟩
    · have hreleased := tally_update Waiting.released s.waiting t y
      have hpending := tally_update Waiting.pending s.waiting t y
      have hstarted := tally_update Waiting.started s.waiting t y
      rw [hx] at hreleased hpending hstarted
      rw [heq]
      exact ⟨by omega, by omega, by omega⟩
  have hdone : (s.step a).begun = s.begun + a.begins ∧
      s.remaining = (s.step a).remaining + a.notifies := by
    unfold begun remaining
    rcases step_done ha with ⟨heq, hbegins, hnotifies⟩ | ⟨j, x, y, hx, heq, hbeg, hrem⟩
    · rw [heq, hbegins, hnotifies]
      exact ⟨rfl, rfl⟩
    · have hbegun := tally_update Done.begun s.done j y
      have hremaining := tally_update Done.remaining s.done j y
      rw [hx] at hbegun hremaining
      rw [heq]
      exact ⟨by omega, by omega⟩
  exact ⟨hwaiting.1, hwaiting.2.1, hwaiting.2.2, hdone.1, hdone.2⟩

/-! ### The output -/

omit [Fintype ι] [Fintype κ] in
theorem step_output (s : ConditionVar ι κ) (a : Action ι κ) :
    (s.step a).output.count .processing = s.output.count .processing + a.starts ∧
      (s.step a).output.count .resourceReady = s.output.count .resourceReady + a.begins := by
  cases a with
  | announce t | processing t | finish t | ready j =>
      constructor <;> exact List.count_append ..
  | lock t | wait t | relock t | unlock t | spurious t => exact ⟨rfl, rfl⟩
  | notify j reached => cases reached <;> exact ⟨rfl, rfl⟩

/-- The output shows how many calls of `processing` have started, and how many of `done`. -/
theorem output_counts (h : (machine ι κ).Reachable s) :
    s.output.count .processing = s.started ∧ s.output.count .resourceReady = s.begun := by
  refine h.invariant (P := fun s => s.output.count .processing = s.started ∧
    s.output.count .resourceReady = s.begun) ⟨?_, ?_⟩ ?_
  · exact (tally_const Waiting.started .announce).symm
  · exact (tally_const Done.begun .announce).symm
  · intro s a _ hs ha
    obtain ⟨-, -, hstarted, hbegun, -⟩ := step_numbers ha
    obtain ⟨hprocessing, hready⟩ := step_output s a
    show (s.step a).output.count .processing = (s.step a).started ∧
      (s.step a).output.count .resourceReady = (s.step a).begun
    omega

omit [Fintype κ] [DecidableEq ι] [DecidableEq κ] in
/-- Who has got to `processing` was woken before. -/
theorem started_le_released (s : ConditionVar ι κ) : s.started ≤ s.released :=
  tally_mono fun x => by cases x <;> decide

end Numbers

/-! ### The mutex -/

/-- Where a thread stands with the mutex and the condition variable. -/
def Waiting.stand : Waiting → Stand
  | .announce | .lock | .returned => .outside
  | .wait | .processing | .finish | .unlock => .inside
  | .waiting => .waiting
  | .woken => .woken

/-- What the mutex and the condition variable see of the threads. -/
def monitor (s : ConditionVar ι κ) : Monitor ι := ⟨s.owner, fun t => (s.waiting t).stand⟩

/-- The steps that they take part in. -/
def Action.toMonitor : Action ι κ → Option (Monitor.Action ι)
  | .lock t => some (.lock t)
  | .wait t => some (.wait t)
  | .relock t => some (.relock t)
  | .unlock t => some (.unlock t)
  | .spurious t | .notify _ (some t) => some (.wake t)
  | .announce _ | .processing _ | .finish _ | .ready _ | .notify _ none => none

omit [DecidableEq κ] in
theorem stand_goto (s : ConditionVar ι κ) (t : ι) (x : Waiting) :
    (fun u => ((s.goto t x).waiting u).stand) =
      Function.update (fun u => (s.waiting u).stand) t x.stand :=
  Function.comp_update Waiting.stand s.waiting t x

omit [DecidableEq κ] in
/-- A step on the same side of the mutex. -/
theorem monitor_goto (hx : x.stand = (s.waiting t).stand) : (s.goto t x).monitor = s.monitor := by
  unfold monitor
  rw [stand_goto, hx]
  exact congrArg (Monitor.mk s.owner) (Function.update_eq_self t fun u => (s.waiting u).stand)

/-- **The threads use the mutex and the condition variable as they should.** -/
theorem simulates_monitor :
    Machine.Simulates (machine ι κ) (Monitor.machine ι) Action.toMonitor
      fun s m => s.monitor = m := by
  refine ⟨rfl, ?_, ?_⟩
  · intro s m a b hab hsm ha
    subst hsm
    cases a with
    | lock t =>
        obtain rfl : Monitor.Action.lock t = b := Option.some.inj hab
        exact ⟨⟨congrArg Waiting.stand ha.1, ha.2⟩,
          congrArg (Monitor.mk (some t)) (stand_goto s t .wait)⟩
    | relock t =>
        obtain rfl : Monitor.Action.relock t = b := Option.some.inj hab
        exact ⟨⟨congrArg Waiting.stand ha.1, ha.2⟩,
          congrArg (Monitor.mk (some t)) (stand_goto s t .processing)⟩
    | wait t =>
        obtain rfl : Monitor.Action.wait t = b := Option.some.inj hab
        exact ⟨congrArg Waiting.stand ha, congrArg (Monitor.mk none) (stand_goto s t .waiting)⟩
    | unlock t =>
        obtain rfl : Monitor.Action.unlock t = b := Option.some.inj hab
        exact ⟨congrArg Waiting.stand ha, congrArg (Monitor.mk none) (stand_goto s t .returned)⟩
    | spurious t =>
        obtain rfl : Monitor.Action.wake t = b := Option.some.inj hab
        exact ⟨congrArg Waiting.stand ha, congrArg (Monitor.mk s.owner) (stand_goto s t .woken)⟩
    | notify j reached =>
        cases reached with
        | none => exact nomatch hab
        | some t =>
            obtain rfl : Monitor.Action.wake t = b := Option.some.inj hab
            exact ⟨congrArg Waiting.stand ha.2,
              congrArg (Monitor.mk s.owner) (stand_goto s t .woken)⟩
    | announce t | processing t | finish t | ready j => exact nomatch hab
  · intro s m a hab hsm ha
    subst hsm
    cases a with
    | announce t =>
        refine monitor_goto (s := s.print _) ?_
        rw [show (s.print _).waiting t = .announce from ha]
        rfl
    | processing t =>
        refine monitor_goto (s := s.print _) ?_
        rw [show (s.print _).waiting t = .processing from ha]
        rfl
    | finish t =>
        refine monitor_goto (s := s.print _) ?_
        rw [show (s.print _).waiting t = .finish from ha]
        rfl
    | ready j => rfl
    | notify j reached =>
        cases reached with
        | none => rfl
        | some t => exact nomatch hab
    | lock t | wait t | relock t | unlock t | spurious t => exact nomatch hab

theorem monitor_reachable (h : (machine ι κ).Reachable s) :
    (Monitor.machine ι).Reachable s.monitor := simulates_monitor.component h

/-! ### The end of a run -/

/-- The steps that are left to a `waiting` thread. -/
def Waiting.left : Waiting → Nat
  | .announce => 8
  | .lock => 7
  | .wait => 6
  | .waiting => 5
  | .woken => 4
  | .processing => 3
  | .finish => 2
  | .unlock => 1
  | .returned => 0

/-- And to a `done` thread. -/
def Done.left : Done → Nat
  | .announce => 2
  | .notify => 1
  | .returned => 0

def left (s : ConditionVar ι κ) : ι ⊕ κ → Nat
  | .inl t => (s.waiting t).left
  | .inr j => (s.done j).left

/-- Who takes the step. -/
def Action.actor : Action ι κ → ι ⊕ κ
  | .announce t | .lock t | .wait t | .relock t | .processing t | .finish t | .unlock t
  | .spurious t => .inl t
  | .ready j | .notify j _ => .inr j

omit [DecidableEq κ] in
theorem left_goto (hx : x.left < (s.waiting t).left) (u : ι) :
    ((s.goto t x).waiting u).left ≤ (s.waiting u).left ∧
      ((s.goto t x).waiting t).left < (s.waiting t).left := by
  have hself : (s.goto t x).waiting t = x := Function.update_self ..
  refine ⟨?_, by rwa [hself]⟩
  by_cases hu : u = t
  · rw [hu, hself]
    exact hx.le
  · exact (congrArg Waiting.left (Function.update_of_ne hu ..)).le

omit [DecidableEq ι] in
theorem left_gotoDone {x : Done} (hx : x.left < (s.done j).left) (k : κ) :
    ((s.gotoDone j x).done k).left ≤ (s.done k).left ∧
      ((s.gotoDone j x).done j).left < (s.done j).left := by
  have hself : (s.gotoDone j x).done j = x := Function.update_self ..
  refine ⟨?_, by rwa [hself]⟩
  by_cases hk : k = j
  · rw [hk, hself]
    exact hx.le
  · exact (congrArg Done.left (Function.update_of_ne hk ..)).le

/-- A step that takes a thread from `x` to `y` leaves it fewer steps. -/
theorem left_step (ha : s.enabled a) :
    (s.step a).left a.actor < s.left a.actor ∧ ∀ i, (s.step a).left i ≤ s.left i := by
  have hwaiter : ∀ {t : ι} {y : Waiting}, y.left < (s.waiting t).left →
      (s.goto t y).left (.inl t) < s.left (.inl t) ∧
        ∀ i, (s.goto t y).left i ≤ s.left i := by
    intro t y hy
    refine ⟨(left_goto hy t).2, fun i => ?_⟩
    cases i with
    | inl u => exact (left_goto hy u).1
    | inr k => exact le_rfl
  cases a with
  | announce t => exact hwaiter (y := .lock) (by rw [ha]; decide)
  | lock t => exact hwaiter (y := .wait) (by rw [ha.1]; decide)
  | wait t => exact hwaiter (y := .waiting) (by rw [ha]; decide)
  | relock t => exact hwaiter (y := .processing) (by rw [ha.1]; decide)
  | processing t => exact hwaiter (y := .finish) (by rw [ha]; decide)
  | finish t => exact hwaiter (y := .unlock) (by rw [ha]; decide)
  | unlock t => exact hwaiter (y := .returned) (by rw [ha]; decide)
  | spurious t => exact hwaiter (y := .woken) (by rw [ha]; decide)
  | ready j =>
      have hj : Done.notify.left < (s.done j).left := by rw [ha]; decide
      refine ⟨(left_gotoDone hj j).2, fun i => ?_⟩
      cases i with
      | inl u => exact le_rfl
      | inr k => exact (left_gotoDone hj k).1
  | notify j reached =>
      have hj : Done.returned.left < (s.done j).left := by rw [ha.1]; decide
      cases reached with
      | none =>
          refine ⟨(left_gotoDone hj j).2, fun i => ?_⟩
          cases i with
          | inl u => exact le_rfl
          | inr k => exact (left_gotoDone hj k).1
      | some t =>
          have ht : Waiting.woken.left < (s.waiting t).left := by
            rw [show s.waiting t = .waiting from ha.2]
            decide
          refine ⟨(left_gotoDone hj j).2, fun i => ?_⟩
          cases i with
          | inl u => exact (left_goto ht u).1
          | inr k => exact (left_gotoDone hj k).1

/-- **Every run comes to an end**: each thread is woken once at most. -/
theorem descends [Fintype ι] [Fintype κ] :
    (machine ι κ).Descends (InvImage (· < ·) fun s => ∑ i, s.left i) :=
  Machine.descends_sum left Action.actor (fun _ _ _ ha => (left_step ha).1)
    (fun _ _ _ ha i _ => (left_step ha).2 i)

end LinuxSystems.ConditionVar
