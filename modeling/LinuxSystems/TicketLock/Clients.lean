/-
The producers and consumers of `Chapter 9/ticket_lock.cpp`, and the vector they share.

Both loops are modelled step by step around the ticket lock: the loop test, the
steps of `lock()` and `unlock()`, each `emplace_back`, each element the range-for
looks at, `clear`, and the consumer's `empty`.  The lock inside is the machine of
`TicketLock/Lock.lean`, moved by its own steps, so whatever that machine never does
happens nowhere here either.

One access stands outside the lock.  The consumer asks `shared_res.empty()` after it
has called `unlock()`, and nothing keeps a producer out of the vector at that
moment.  `exclusive_iff` says that this is all that goes wrong: a run keeps the
accesses apart exactly when nobody starts to modify the vector while a consumer
stands at that test.
-/
import LinuxSystems.TicketLock.Exclusion

namespace LinuxSystems.TicketLock

/-- Which of the two functions a thread runs. -/
inductive Role where
  | producer
  | consumer
  deriving DecidableEq

/-- Where a thread stands in its loop. -/
inductive Site where
  /-- The test `i < limit` and the line printed after it. -/
  | loop
  /-- In `spinlock.lock()`. -/
  | locking
  /-- At `shared_res.emplace_back("test1")`. -/
  | emplace1
  /-- At `shared_res.emplace_back("test2")`. -/
  | emplace2
  /-- About to evaluate the bounds of the range-for. -/
  | begin
  /-- In the range-for, at position `pos`, which was set to end at `stop`. -/
  | iterate (pos stop : Nat)
  /-- At `shared_res.clear()`. -/
  | clear
  /-- At `spinlock.unlock()`. -/
  | unlocking
  /-- The producer's sleep. -/
  | sleep
  /-- At the consumer's `shared_res.empty()`. -/
  | empty
  | done
  deriving DecidableEq

namespace Site

/-- Between the return of `lock()` and the call of `unlock()`. -/
def critical : Site → Prop
  | .emplace1 | .emplace2 | .begin | .iterate _ _ | .clear | .unlocking => True
  | .loop | .locking | .sleep | .empty | .done => False

/-- The range-for has another element to look at. -/
def looks : Site → Prop
  | .iterate pos stop => pos ≠ stop
  | _ => False

/-- The range-for is at its end. -/
def ends : Site → Prop
  | .iterate pos stop => pos = stop
  | _ => False

instance : DecidablePred looks
  | .iterate pos stop => inferInstanceAs (Decidable (pos ≠ stop))
  | .loop | .locking | .emplace1 | .emplace2 | .begin | .clear | .unlocking | .sleep | .empty
  | .done => isFalse id

instance : DecidablePred ends
  | .iterate pos stop => inferInstanceAs (Decidable (pos = stop))
  | .loop | .locking | .emplace1 | .emplace2 | .begin | .clear | .unlocking | .sleep | .empty
  | .done => isFalse id

theorem looks_iff {x : Site} : x.looks ↔ ∃ pos stop, x = .iterate pos stop ∧ pos ≠ stop := by
  cases x <;> simp [looks]

theorem ends_iff {x : Site} : x.ends ↔ ∃ pos, x = .iterate pos pos := by
  cases x <;> simp [ends, eq_comm]

/-- The next step modifies the vector. -/
def modifies : Site → Prop
  | .emplace1 | .emplace2 | .clear => True
  | _ => False

/-- The next step reads or modifies the vector. -/
def accesses : Site → Prop
  | .emplace1 | .emplace2 | .begin | .iterate _ _ | .clear | .empty => True
  | _ => False

/-- The thread has its turn in the present iteration, or has had it. -/
def entered : Site → Prop
  | .loop | .locking | .done => False
  | _ => True

theorem entered_of_critical {x : Site} (h : x.critical) : x.entered := by
  cases x <;> trivial

theorem critical_of_modifies {x : Site} (h : x.modifies) : x.critical := by
  cases x <;> trivial

/-- The consumer's `empty()` is the only access outside the lock. -/
theorem critical_or_empty {x : Site} (h : x.accesses) : x.critical ∨ x = .empty := by
  cases x <;> simp_all [accesses, critical]

end Site

namespace Role

/-- What follows `lock()`. -/
def afterLock : Role → Site
  | .producer => .emplace1
  | .consumer => .begin

/-- What follows the range-for. -/
def afterLoop : Role → Site
  | .producer => .unlocking
  | .consumer => .clear

/-- What follows `unlock()`. -/
def afterUnlock : Role → Site
  | .producer => .sleep
  | .consumer => .empty

end Role

/-- The call a step of the lock belongs to. -/
def Action.site {ι : Type*} : Action ι → Site
  | .take _ | .spin _ | .leave _ => .locking
  | .unlock _ => .unlocking

/-- A string in the vector, tagged with the thread and the iteration it comes from. -/
structure Elem (ι : Type*) where
  who : ι
  iter : Nat
  text : String
  deriving DecidableEq

/-- One acquisition of the lock: by which thread, in which iteration of its loop, and
the elements the thread appended or, for a consumer, iterated over while it held it. -/
structure Turn (ι : Type*) where
  who : ι
  iter : Nat
  items : List (Elem ι)

/-- What each thread runs, and how often its loop goes round (100 times in the source). -/
structure Program (ι : Type*) where
  role : ι → Role
  limit : ι → Nat

/-- The lock, the vector, each thread's loop counter and position.  The turns are a
record kept for the statements; no step looks at it. -/
structure Clients (ι : Type*) (w : Nat) where
  spinlock : TicketLock ι w
  sharedRes : List (Elem ι)
  i : ι → Nat
  site : ι → Site
  turns : List (Turn ι)

namespace Clients

variable {ι : Type*} {w : Nat}

inductive Step (ι : Type*) where
  | loop (t : ι)
  /-- A step of `spinlock.lock()` or `spinlock.unlock()`. -/
  | lock (a : TicketLock.Action ι)
  | emplace1 (t : ι)
  | emplace2 (t : ι)
  | begin (t : ι)
  /-- The body of the range-for for one element, and `++`. -/
  | visit (t : ι)
  /-- The range-for finds its iterator at the end. -/
  | finish (t : ι)
  | clear (t : ι)
  | sleep (t : ι)
  | empty (t : ι)

/-- The thread that takes a step. -/
def Step.thread : Step ι → ι
  | .lock a => a.thread
  | .loop t | .emplace1 t | .emplace2 t | .begin t | .visit t | .finish t | .clear t | .sleep t
  | .empty t => t

def enabled (s : Clients ι w) : Step ι → Prop
  | .loop t => s.site t = .loop
  | .lock a => s.site a.thread = a.site ∧ s.spinlock.enabled a
  | .emplace1 t => s.site t = .emplace1
  | .emplace2 t => s.site t = .emplace2
  | .begin t => s.site t = .begin
  | .visit t => (s.site t).looks
  | .finish t => (s.site t).ends
  | .clear t => s.site t = .clear
  | .sleep t => s.site t = .sleep
  | .empty t => s.site t = .empty

instance (s : Clients ι w) : ∀ a, Decidable (s.enabled a)
  | .loop t => inferInstanceAs (Decidable (s.site t = .loop))
  | .lock a => inferInstanceAs (Decidable (s.site a.thread = a.site ∧ s.spinlock.enabled a))
  | .emplace1 t => inferInstanceAs (Decidable (s.site t = .emplace1))
  | .emplace2 t => inferInstanceAs (Decidable (s.site t = .emplace2))
  | .begin t => inferInstanceAs (Decidable (s.site t = .begin))
  | .visit t => inferInstanceAs (Decidable (s.site t).looks)
  | .finish t => inferInstanceAs (Decidable (s.site t).ends)
  | .clear t => inferInstanceAs (Decidable (s.site t = .clear))
  | .sleep t => inferInstanceAs (Decidable (s.site t = .sleep))
  | .empty t => inferInstanceAs (Decidable (s.site t = .empty))

variable [DecidableEq ι]

/-- Thread `t` goes on to `x`. -/
def goto (s : Clients ι w) (t : ι) (x : Site) : Clients ι w :=
  { s with site := Function.update s.site t x }

/-- Add `items` to the turn thread `t` has in the present iteration. -/
def record (s : Clients ι w) (t : ι) (items : List (Elem ι)) : Clients ι w :=
  { s with turns := s.turns.map fun e =>
      if e.who = t ∧ e.iter = s.i t then { e with items := e.items ++ items } else e }

/-- `shared_res.emplace_back(text)`. -/
def emplaceBack (s : Clients ι w) (t : ι) (text : String) : Clients ι w :=
  { s.record t [⟨t, s.i t, text⟩] with sharedRes := s.sharedRes ++ [⟨t, s.i t, text⟩] }

def step (p : Program ι) (s : Clients ι w) : Step ι → Clients ι w
  | .loop t => s.goto t (if s.i t < p.limit t then .locking else .done)
  | .lock (.take t) => { s with spinlock := s.spinlock.step (.take t) }
  | .lock (.spin t) => { s with spinlock := s.spinlock.step (.spin t) }
  | .lock (.leave t) =>
      { s.goto t (p.role t).afterLock with
        spinlock := s.spinlock.step (.leave t), turns := s.turns ++ [⟨t, s.i t, []⟩] }
  | .lock (.unlock t) =>
      { s.goto t (p.role t).afterUnlock with spinlock := s.spinlock.step (.unlock t) }
  | .emplace1 t => (s.emplaceBack t "test1").goto t .emplace2
  | .emplace2 t => (s.emplaceBack t "test2").goto t .begin
  | .begin t => s.goto t (.iterate 0 s.sharedRes.length)
  | .visit t => match s.site t, p.role t with
    | .iterate pos stop, .producer => s.goto t (.iterate (pos + 1) stop)
    | .iterate pos stop, .consumer =>
        (s.record t s.sharedRes[pos]?.toList).goto t (.iterate (pos + 1) stop)
    | _, _ => s
  | .finish t => s.goto t (p.role t).afterLoop
  | .clear t => { s.goto t .unlocking with sharedRes := [] }
  | .sleep t | .empty t => { s.goto t .loop with i := Function.update s.i t (s.i t + 1) }

/-- Every thread at the head of its loop, the vector empty, the lock free. -/
def machine (p : Program ι) (w : Nat) : Machine (Clients ι w) (Step ι) where
  init := ⟨(TicketLock.machine ι w).init, [], fun _ => 0, fun _ => .loop, []⟩
  enabled := enabled
  next := step p

instance (p : Program ι) (s : Clients ι w) (a : Step ι) :
    Decidable ((machine p w).enabled s a) :=
  inferInstanceAs (Decidable (s.enabled a))

/-! ### Frames -/

theorem step_site_of_ne {p : Program ι} {s : Clients ι w} {a : Step ι} {u : ι}
    (h : u ≠ a.thread) : (step p s a).site u = s.site u := by
  cases a with
  | lock a => cases a <;> first | rfl | exact Function.update_of_ne h _ _
  | visit t =>
      simp only [step]
      split
      · exact Function.update_of_ne h _ _
      · exact Function.update_of_ne h _ _
      · rfl
  | _ => exact Function.update_of_ne h _ _

theorem step_i_of_ne {p : Program ι} {s : Clients ι w} {a : Step ι} {u : ι}
    (h : u ≠ a.thread) : (step p s a).i u = s.i u := by
  cases a with
  | lock a => cases a <;> rfl
  | visit t =>
      simp only [step]
      split <;> rfl
  | sleep t | empty t => exact Function.update_of_ne h _ _
  | _ => rfl

/-! ### The lock inside -/

/-- The step of the lock in a step of a client. -/
def Step.lockAction : Step ι → Option (TicketLock.Action ι)
  | .lock a => some a
  | _ => none

theorem step_spinlock {p : Program ι} {s : Clients ι w} {a : Step ι} (h : a.lockAction = none) :
    (step p s a).spinlock = s.spinlock := by
  cases a with
  | lock a => simp [Step.lockAction] at h
  | visit t =>
      simp only [step]
      split <;> rfl
  | _ => rfl

theorem step_lock_spinlock {p : Program ι} {s : Clients ι w} {a : TicketLock.Action ι} :
    (step p s (.lock a)).spinlock = s.spinlock.step a := by
  cases a <;> rfl

theorem simulatesLock (p : Program ι) : Machine.Simulates (machine p w) (TicketLock.machine ι w)
    Step.lockAction fun s l => s.spinlock = l where
  init := rfl
  step := by
    rintro s _ a b hb rfl ha
    cases a with
    | lock a =>
        obtain rfl := Option.some.inj hb
        exact ⟨ha.2, step_lock_spinlock⟩
    | _ => simp [Step.lockAction] at hb
  stutter := by
    rintro s _ a hb rfl ha
    exact step_spinlock hb

/-- The lock in a reachable state is in a reachable state of its own. -/
theorem lock_reachable {p : Program ι} {s : Clients ι w} (h : (machine p w).Reachable s) :
    (TicketLock.machine ι w).Reachable s.spinlock :=
  (simulatesLock p).component h

/-- A thread is at a critical step exactly when the lock has it inside. -/
theorem critical_iff_inside {p : Program ι} {s : Clients ι w} (h : (machine p w).Reachable s) :
    ∀ t, (s.site t).critical ↔ (s.spinlock.phase t).isInside := by
  refine h.invariant (P := fun s => ∀ t, (s.site t).critical ↔ (s.spinlock.phase t).isInside)
    (by simp [machine, TicketLock.machine, Site.critical]) ?_
  intro s a _ ih ha u
  show ((step p s a).site u).critical ↔ ((step p s a).spinlock.phase u).isInside
  by_cases hu : u = a.thread
  · subst hu
    cases a with
    | lock a =>
        obtain ⟨hsite, hlock⟩ := ha
        rw [step_lock_spinlock]
        cases a with
        | take t =>
            show (s.site t).critical ↔ _
            have hsite : s.site t = .locking := hsite
            simp [hsite, Site.critical, Step.thread, Action.thread, TicketLock.step]
        | spin t => exact ih t
        | leave t =>
            simp only [step, goto, Step.thread, Action.thread, TicketLock.step,
              Function.update_self]
            cases p.role t <;> simp [Role.afterLock, Site.critical]
        | unlock t =>
            simp only [step, goto, Step.thread, Action.thread, TicketLock.step,
              Function.update_self]
            cases p.role t <;> simp [Role.afterUnlock, Site.critical]
    | visit t =>
        rw [step_spinlock rfl]
        obtain ⟨pos, stop, hsite, -⟩ := Site.looks_iff.mp ha
        have hin := (ih t).mp (by rw [hsite]; trivial)
        cases hr : p.role t <;>
          simpa [step, hsite, hr, goto, Step.thread, Site.critical] using hin
    | finish t =>
        rw [step_spinlock rfl]
        obtain ⟨pos, hsite⟩ := Site.ends_iff.mp ha
        have hin := (ih t).mp (by rw [hsite]; trivial)
        cases hr : p.role t <;>
          simpa [step, goto, hr, Role.afterLoop, Step.thread, Site.critical] using hin
    | loop t | emplace1 t | emplace2 t | begin t | clear t | sleep t | empty t =>
        rw [step_spinlock rfl]
        have hin := ih t
        have hsite : s.site t = _ := ha
        rw [hsite] at hin
        simp only [step, goto, emplaceBack, Step.thread, Function.update_self]
        first
          | exact hin
          | (rw [← hin]; split <;> simp [Site.critical])
  · rw [step_site_of_ne hu, ih u]
    by_cases hl : a.lockAction = none
    · rw [step_spinlock hl]
    · obtain ⟨b, hb⟩ := Option.ne_none_iff_exists'.mp hl
      cases a with
      | lock a => rw [step_lock_spinlock, TicketLock.step_phase_of_ne hu]
      | _ => simp [Step.lockAction] at hb

/-- Two threads at critical steps are one. -/
theorem critical_unique [Fintype ι] (hn : Fintype.card ι ≤ 2 ^ w) {p : Program ι}
    {s : Clients ι w} (h : (machine p w).Reachable s) {t u : ι} (ht : (s.site t).critical)
    (hu : (s.site u).critical) : t = u :=
  inside_unique hn (lock_reachable h) ((critical_iff_inside h t).mp ht)
    ((critical_iff_inside h u).mp hu)

end Clients

end LinuxSystems.TicketLock
