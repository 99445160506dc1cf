/-
The ticket lock of `Chapter 9/ticket_lock.cpp`, and the queue behind it.

Two counters make up the lock.  `lock()` takes a ticket by incrementing `next` and
spins until `serving` shows it; `unlock()` increments `serving`.  Each access to a
counter is one atomic step, the counters are `w` bits wide and wrap.

The lock is a first-come first-served lock because the tickets that are out are
exactly `serving, serving + 1, …, next - 1`, handed out in that order.  `Queued`
says so: the thread at position `i` of the queue holds the ticket `serving + i`.
With at most `2 ^ w` threads the queue is never longer than the counters can tell
apart, which is the only place where the number of threads matters.
-/
import LinuxSystems.Machine.Simulation
import LinuxSystems.Machine.FifoLock
import Mathlib.Data.Fintype.Card
import Mathlib.Data.Fintype.Pigeonhole

namespace LinuxSystems

/-! ### The lock and its steps -/

/-- Where a thread stands with the lock. -/
inductive Phase (w : Nat) where
  /-- It has no ticket. -/
  | outside
  /-- It is in the loop of `lock()`. -/
  | spinning (ticket : BitVec w)
  /-- It has returned from `lock()` and not yet called `unlock()`. -/
  | inside (ticket : BitVec w)
  deriving DecidableEq

/-- The ticket a thread has taken and not yet released. -/
def Phase.ticket {w : Nat} : Phase w → Option (BitVec w)
  | .outside => none
  | .spinning ticket => some ticket
  | .inside ticket => some ticket

/-- Between the return of `lock()` and the call of `unlock()`. -/
def Phase.isInside {w : Nat} : Phase w → Prop
  | .inside _ => True
  | .outside | .spinning _ => False

instance {w : Nat} (p : Phase w) : Decidable p.isInside :=
  match p with
  | .inside _ => isTrue trivial
  | .outside => isFalse id
  | .spinning _ => isFalse id

/-- The two counters, and where each thread stands. -/
structure TicketLock (ι : Type*) (w : Nat) where
  serving : BitVec w
  next : BitVec w
  phase : ι → Phase w

namespace TicketLock

variable {ι : Type*} {w : Nat}

/-- The atomic steps of `lock()` and `unlock()`. -/
inductive Action (ι : Type*) where
  /-- `next.fetch_add(1)`, the start of `lock()`. -/
  | take (t : ι)
  /-- `serving.load() != ticket`: once more round the loop. -/
  | spin (t : ι)
  /-- `serving.load() == ticket`: out of the loop, and `lock()` returns. -/
  | leave (t : ι)
  /-- `serving.fetch_add(1)`, which is all of `unlock()`. -/
  | unlock (t : ι)

/-- The thread that takes a step. -/
def Action.thread : Action ι → ι
  | .take t | .spin t | .leave t | .unlock t => t

def enabled (s : TicketLock ι w) : Action ι → Prop
  | .take t => s.phase t = .outside
  | .spin t => match s.phase t with
    | .spinning ticket => s.serving ≠ ticket
    | _ => False
  | .leave t => match s.phase t with
    | .spinning ticket => s.serving = ticket
    | _ => False
  | .unlock t => (s.phase t).isInside

instance (s : TicketLock ι w) : ∀ a, Decidable (s.enabled a)
  | .take t => inferInstanceAs (Decidable (s.phase t = .outside))
  | .spin t =>
      match h : s.phase t with
      | .spinning ticket => decidable_of_iff (s.serving ≠ ticket) (by simp [enabled, h])
      | .outside => isFalse (by simp [enabled, h])
      | .inside _ => isFalse (by simp [enabled, h])
  | .leave t =>
      match h : s.phase t with
      | .spinning ticket => decidable_of_iff (s.serving = ticket) (by simp [enabled, h])
      | .outside => isFalse (by simp [enabled, h])
      | .inside _ => isFalse (by simp [enabled, h])
  | .unlock t => inferInstanceAs (Decidable (s.phase t).isInside)

variable [DecidableEq ι]

/-- What a step does to the counters and to the thread that takes it. -/
def step (s : TicketLock ι w) : Action ι → TicketLock ι w
  | .take t =>
      { s with next := s.next + 1, phase := Function.update s.phase t (.spinning s.next) }
  | .spin _ => s
  | .leave t => { s with phase := Function.update s.phase t (.inside s.serving) }
  | .unlock t =>
      { s with serving := s.serving + 1, phase := Function.update s.phase t .outside }

/-- `TicketLock spinlock = {0}`, with every thread still outside. -/
def machine (ι : Type*) [DecidableEq ι] (w : Nat) : Machine (TicketLock ι w) (Action ι) where
  init := ⟨0, 0, fun _ => .outside⟩
  enabled := enabled
  next := step

instance (s : TicketLock ι w) (a : Action ι) : Decidable ((machine ι w).enabled s a) :=
  inferInstanceAs (Decidable (s.enabled a))

/-- A step moves no thread but its own. -/
theorem step_phase_of_ne {s : TicketLock ι w} {a : Action ι} {u : ι} (h : u ≠ a.thread) :
    (s.step a).phase u = s.phase u := by
  cases a with
  | spin t => rfl
  | take t | leave t | unlock t => exact Function.update_of_ne h _ _

omit [DecidableEq ι] in
/-- A thread leaves the loop exactly when its ticket is being served. -/
@[simp] theorem enabled_leave {s : TicketLock ι w} {t : ι} :
    s.enabled (.leave t) ↔ s.phase t = .spinning s.serving := by
  simp only [enabled]
  split
  · rename_i ticket h
    rw [h, Phase.spinning.injEq, eq_comm]
  · rename_i h
    exact ⟨False.elim, fun hs => h _ hs⟩

omit [DecidableEq ι] in
@[simp] theorem isInside_iff {p : Phase w} : p.isInside ↔ ∃ k, p = .inside k := by
  cases p <;> simp [Phase.isInside]

/-! ### The tickets that are out form an interval -/

/-- `w` bits tell a number below `2 ^ w` from zero. -/
theorem eq_zero_of_offset_zero {i : Nat} (hi : i < 2 ^ w) {serving : BitVec w}
    (h : serving + BitVec.ofNat w i = serving) : i = 0 := by
  have hmod : i % 2 ^ w = 0 := by simpa using congrArg BitVec.toNat (BitVec.add_right_eq_self.mp h)
  rwa [Nat.mod_eq_of_lt hi] at hmod

/-- The lock stands for the queue `q`: position `i` holds the ticket `serving + i`. -/
structure Queued (s : TicketLock ι w) (q : FifoLock ι) : Prop where
  nodup : q.queue.Nodup
  ticket : ∀ i t, q.queue[i]? = some t →
    (s.phase t).ticket = some (s.serving + BitVec.ofNat w i)
  outside : ∀ t, t ∉ q.queue → s.phase t = .outside
  inside : ∀ t, (s.phase t).isInside ↔ q.holder = some t
  next : s.next = s.serving + BitVec.ofNat w q.queue.length

namespace Queued

variable {s : TicketLock ι w} {q : FifoLock ι}

omit [DecidableEq ι] in
/-- Who has a ticket stands in the queue. -/
theorem mem_iff (h : Queued s q) {t : ι} : t ∈ q.queue ↔ (s.phase t).ticket ≠ none := by
  constructor
  · intro hmem
    obtain ⟨i, hi⟩ := List.mem_iff_getElem?.mp hmem
    rw [h.ticket i t hi]
    simp
  · intro hne
    by_contra hc
    exact hne (by rw [h.outside t hc]; rfl)

omit [DecidableEq ι] in
theorem length_le [Fintype ι] (h : Queued s q) (hn : Fintype.card ι ≤ 2 ^ w) :
    q.queue.length ≤ 2 ^ w :=
  Nat.le_trans h.nodup.length_le_card hn

omit [DecidableEq ι] in
/-- **The served ticket is the head's.**  A thread whose ticket is being served is
first in the queue: its position is below `2 ^ w` and a multiple of it. -/
theorem head_of_served [Fintype ι] (h : Queued s q) (hn : Fintype.card ι ≤ 2 ^ w) {t : ι}
    (ht : (s.phase t).ticket = some s.serving) : q.queue[0]? = some t := by
  have hmem : t ∈ q.queue := h.mem_iff.mpr (by simp [ht])
  obtain ⟨i, hi⟩ := List.mem_iff_getElem?.mp hmem
  have hlt : i < 2 ^ w :=
    Nat.lt_of_lt_of_le (List.getElem?_eq_some_iff.mp hi).1 (h.length_le hn)
  have hzero : i = 0 :=
    eq_zero_of_offset_zero hlt (Option.some.inj ((h.ticket i t hi).symm.trans ht))
  rwa [hzero] at hi

omit [DecidableEq ι] in
theorem served_of_head (h : Queued s q) {t : ι} (ht : q.queue[0]? = some t) :
    (s.phase t).ticket = some s.serving := by
  simpa using h.ticket 0 t ht

/-! ### Each step of the lock is a step of the queue -/

theorem init : Queued (machine ι w).init (FifoLock.machine ι).init where
  nodup := by simp [FifoLock.machine, FifoLock.queue]
  ticket := by simp [FifoLock.machine, FifoLock.queue]
  outside := by simp [machine]
  inside := by simp [machine, FifoLock.machine]
  next := by simp [machine, FifoLock.machine, FifoLock.queue]

/-- Taking a ticket joins the queue at its end. -/
theorem take (h : Queued s q) {t : ι} (ha : s.enabled (.take t)) :
    q.enabled (.request t) ∧ Queued (s.step (.take t)) (q.next (.request t)) := by
  have hout : s.phase t = .outside := ha
  have hmem : t ∉ q.queue := by
    rw [h.mem_iff, hout]
    simp [Phase.ticket]
  have hother : ∀ u ∈ q.queue, Function.update s.phase t (.spinning s.next) u = s.phase u :=
    fun u hu => Function.update_of_ne (ne_of_mem_of_not_mem hu hmem) _ _
  refine ⟨hmem, FifoLock.nodup_next h.nodup hmem, ?_, ?_, ?_, ?_⟩
  · intro i u hu
    rw [FifoLock.queue_request] at hu
    show (Function.update s.phase t (.spinning s.next) u).ticket = _
    rcases Nat.lt_or_ge i q.queue.length with hlt | hge
    · rw [List.getElem?_append_left hlt] at hu
      rw [hother u (List.mem_of_getElem? hu)]
      exact h.ticket i u hu
    · -- the new ticket is `next`, which is `serving` plus the length of the queue
      rw [List.getElem?_append_right hge] at hu
      obtain ⟨hi, rfl⟩ : i = q.queue.length ∧ t = u := by
        rw [List.getElem?_singleton] at hu
        split at hu
        · exact ⟨by omega, Option.some.inj hu⟩
        · simp at hu
      rw [Function.update_self, hi]
      exact congrArg some h.next
  · intro u hu
    rw [FifoLock.queue_request, List.mem_append, not_or] at hu
    show Function.update s.phase t (.spinning s.next) u = .outside
    rw [Function.update_of_ne (by simpa using hu.2)]
    exact h.outside u hu.1
  · intro u
    show (Function.update s.phase t (.spinning s.next) u).isInside ↔ q.holder = some u
    by_cases hu : u = t
    · rw [hu, Function.update_self, ← h.inside t, hout]
      simp
    · rw [Function.update_of_ne hu]
      exact h.inside u
  · rw [FifoLock.queue_request, List.length_append]
    show s.next + 1 = _
    rw [h.next, List.length_singleton, BitVec.ofNat_add, ← BitVec.add_assoc]
    rfl

/-- Leaving the loop is a grant: the thread is first in line and the lock is free. -/
theorem leave [Fintype ι] (h : Queued s q) (hn : Fintype.card ι ≤ 2 ^ w) {t : ι}
    (ha : s.enabled (.leave t)) :
    q.enabled (.grant t) ∧ Queued (s.step (.leave t)) (q.next (.grant t)) := by
  have hspin : s.phase t = .spinning s.serving := enabled_leave.mp ha
  have hhead : q.queue[0]? = some t := h.head_of_served hn (by rw [hspin]; rfl)
  have hfree : q.holder = none := by
    cases hh : q.holder with
    | none => rfl
    | some u =>
        -- a holder would be the head, but the head still spins
        rw [FifoLock.queue_of_holder hh] at hhead
        obtain rfl : u = t := by simpa using hhead
        have := (h.inside u).mpr hh
        simp [hspin] at this
  have hen : q.enabled (.grant t) := by
    refine ⟨hfree, ?_⟩
    rw [List.head?_eq_getElem?]
    simpa [FifoLock.queue, hfree] using hhead
  have hqueue := FifoLock.queue_grant hen
  refine ⟨hen, FifoLock.nodup_next h.nodup hen, ?_, ?_, ?_, ?_⟩
  · intro i u hu
    rw [hqueue] at hu
    show (Function.update s.phase t (.inside s.serving) u).ticket = _
    by_cases hut : u = t
    · subst hut
      rw [Function.update_self]
      exact (congrArg Phase.ticket hspin).symm.trans (h.ticket i u hu)
    · rw [Function.update_of_ne hut]
      exact h.ticket i u hu
  · intro u hu
    rw [hqueue] at hu
    have hut : u ≠ t := fun hc => hu (hc ▸ List.mem_of_getElem? hhead)
    show Function.update s.phase t (.inside s.serving) u = .outside
    rw [Function.update_of_ne hut]
    exact h.outside u hu
  · intro u
    show (Function.update s.phase t (.inside s.serving) u).isInside ↔ some t = some u
    by_cases hut : u = t
    · simp [hut]
    · rw [Function.update_of_ne hut, h.inside u, hfree]
      simp [Ne.symm hut]
  · rw [hqueue]
    exact h.next

/-- `unlock()` takes the head off the queue and moves `serving` to the next one. -/
theorem unlock (h : Queued s q) {t : ι} (ha : s.enabled (.unlock t)) :
    q.enabled (.release t) ∧ Queued (s.step (.unlock t)) (q.next (.release t)) := by
  have hhold : q.holder = some t := (h.inside t).mp ha
  have hqueue : q.queue = t :: (q.next (.release t)).queue := FifoLock.queue_release hhold
  have hnot : t ∉ (q.next (.release t)).queue := (List.nodup_cons.mp (hqueue ▸ h.nodup)).1
  refine ⟨hhold, FifoLock.nodup_next h.nodup hhold, ?_, ?_, ?_, ?_⟩
  · intro i u hu
    have hut : u ≠ t := fun hc => hnot (hc ▸ List.mem_of_getElem? hu)
    show (Function.update s.phase t .outside u).ticket = some (s.serving + 1 + BitVec.ofNat w i)
    rw [Function.update_of_ne hut, h.ticket (i + 1) u (by rw [hqueue]; simpa using hu),
      Nat.add_comm i 1, BitVec.ofNat_add, ← BitVec.add_assoc]
    rfl
  · intro u hu
    show Function.update s.phase t .outside u = .outside
    by_cases hut : u = t
    · rw [hut, Function.update_self]
    · rw [Function.update_of_ne hut]
      exact h.outside u (by rw [hqueue]; simp [hut, hu])
  · intro u
    show (Function.update s.phase t .outside u).isInside ↔ none = some u
    by_cases hut : u = t
    · simp [hut]
    · rw [Function.update_of_ne hut, h.inside u, hhold]
      simp [Ne.symm hut]
  · show s.next = s.serving + 1 + _
    rw [h.next, hqueue, List.length_cons, Nat.add_comm _ 1, BitVec.ofNat_add, ← BitVec.add_assoc]
    rfl

end Queued

/-- The step of the queue that a step of the lock performs; spinning is none. -/
def Action.label : Action ι → Option (FifoLock.Action ι)
  | .take t => some (.request t)
  | .spin _ => none
  | .leave t => some (.grant t)
  | .unlock t => some (.release t)

/-- **The ticket lock is a first-come first-served lock**, as long as there are no more
threads than the counters have values. -/
theorem simulates [Fintype ι] (hn : Fintype.card ι ≤ 2 ^ w) :
    Machine.Simulates (machine ι w) (FifoLock.machine ι) Action.label Queued where
  init := Queued.init
  step := by
    intro s q a b hb h ha
    cases a with
    | take t => obtain rfl := Option.some.inj hb; exact h.take ha
    | spin t => simp [Action.label] at hb
    | leave t => obtain rfl := Option.some.inj hb; exact h.leave hn ha
    | unlock t => obtain rfl := Option.some.inj hb; exact h.unlock ha
  stutter := by
    intro s q a hb h ha
    cases a with
    | spin t => exact h
    | take t | leave t | unlock t => simp [Action.label] at hb

end TicketLock

end LinuxSystems
