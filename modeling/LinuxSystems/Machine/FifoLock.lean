/-
A first-come first-served lock, as a queue.

This is what a fair lock is for, with nothing said about how it is built: threads
that asked for it stand in a queue, the first of them is granted it once nobody holds
the lock, and the holder gives it back.  The two guarantees are read off the queue.
At most one thread holds the lock, since the holder is one field; and the order of
admissions is the order of requests, since a queue is left in the order in which it
was joined.
-/
import LinuxSystems.Machine.Run

namespace LinuxSystems

/-- The threads that asked for the lock and do not hold it, and the one that does. -/
structure FifoLock (ι : Type*) where
  waiting : List ι
  holder : Option ι

namespace FifoLock

variable {ι : Type*}

inductive Action (ι : Type*) where
  | request (t : ι)
  | grant (t : ι)
  | release (t : ι)

/-- Everybody who asked for the lock and has not given it back, in the order of asking. -/
def queue (s : FifoLock ι) : List ι := s.holder.toList ++ s.waiting

def enabled (s : FifoLock ι) : Action ι → Prop
  | .request t => t ∉ s.queue
  | .grant t => s.holder = none ∧ s.waiting.head? = some t
  | .release t => s.holder = some t

def next (s : FifoLock ι) : Action ι → FifoLock ι
  | .request t => { s with waiting := s.waiting ++ [t] }
  | .grant t => { waiting := s.waiting.tail, holder := some t }
  | .release _ => { s with holder := none }

def machine (ι : Type*) : Machine (FifoLock ι) (Action ι) where
  init := ⟨[], none⟩
  enabled := enabled
  next := next

/-! ### What an action does to the queue -/

@[simp] theorem queue_request (s : FifoLock ι) (t : ι) :
    (s.next (.request t)).queue = s.queue ++ [t] := by
  simp [queue, next]

/-- A grant moves the head of the line to the lock and leaves the queue as it is. -/
theorem queue_grant {s : FifoLock ι} {t : ι} (h : s.enabled (.grant t)) :
    (s.next (.grant t)).queue = s.queue := by
  obtain ⟨hnone, hhead⟩ := h
  obtain ⟨rest, hrest⟩ := List.head?_eq_some_iff.mp hhead
  simp [queue, next, hnone, hrest]

theorem queue_release {s : FifoLock ι} {t : ι} (h : s.enabled (.release t)) :
    s.queue = t :: (s.next (.release t)).queue := by
  have hholder : s.holder = some t := h
  simp [queue, next, hholder]

/-- The holder is at the head of the queue. -/
theorem queue_of_holder {s : FifoLock ι} {t : ι} (h : s.holder = some t) :
    s.queue = t :: s.waiting := by
  simp [queue, h]

/-- Nobody comes to stand in the queue twice. -/
theorem nodup_next {s : FifoLock ι} {a : Action ι} (h : s.queue.Nodup) (ha : s.enabled a) :
    (s.next a).queue.Nodup := by
  cases a with
  | request t =>
      rw [queue_request]
      refine List.nodup_append.mpr ⟨h, by simp, ?_⟩
      intro x hx y hy hxy
      rw [List.mem_singleton.mp hy] at hxy
      exact ha (hxy ▸ hx)
  | grant t =>
      rw [queue_grant ha]
      exact h
  | release t =>
      rw [queue_release ha] at h
      exact (List.nodup_cons.mp h).2

/-! ### First come, first served -/

/-- The thread an action makes a request for. -/
def Action.requested : Action ι → Option ι
  | .request t => some t
  | .grant _ | .release _ => none

/-- The thread an action grants the lock to. -/
def Action.granted : Action ι → Option ι
  | .grant t => some t
  | .request _ | .release _ => none

/-- A request joins the line at its end; a grant takes the line's head. -/
theorem waiting_step {s : FifoLock ι} {a : Action ι} (ha : s.enabled a) :
    s.waiting ++ a.requested.toList = a.granted.toList ++ (s.next a).waiting := by
  cases a with
  | request t => simp [Action.requested, Action.granted, next]
  | grant t =>
      obtain ⟨-, hhead⟩ := ha
      obtain ⟨rest, hrest⟩ := List.head?_eq_some_iff.mp hhead
      simp [Action.requested, Action.granted, next, hrest]
  | release t => simp [Action.requested, Action.granted, next]

/-- Those who asked are those who were granted the lock, followed by those who still wait. -/
theorem requests_eq {tr : List (Action ι)} (hl : (machine ι).Legal (machine ι).init tr) :
    tr.filterMap Action.requested
      = tr.filterMap Action.granted ++ ((machine ι).after (machine ι).init tr).waiting := by
  refine Machine.run_invariant (m := machine ι) (P := fun tr s =>
    tr.filterMap Action.requested = tr.filterMap Action.granted ++ s.waiting) rfl ?_ hl
  intro tr a _ ih ha
  rw [Machine.filterMap_snoc, Machine.filterMap_snoc, ih, List.append_assoc, List.append_assoc]
  exact congrArg _ (waiting_step ha)

/-- **First come, first served.**  The order of grants is a prefix of the order of
requests. -/
theorem grants_prefix {tr : List (Action ι)}
    (hl : (machine ι).Legal (machine ι).init tr) :
    tr.filterMap Action.granted <+: tr.filterMap Action.requested :=
  ⟨_, (requests_eq hl).symm⟩

end FifoLock

end LinuxSystems
