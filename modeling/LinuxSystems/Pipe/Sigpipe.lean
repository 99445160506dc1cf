/-
The pipe without a reader in `Chapter 3/anonymous_pipe_sigpipe_example.c`.

The child closes both ends and returns.  The parent asks that the signal of a failing `write` be
ignored, closes its end for reading, and writes.  A failed `fork` gives -1, which the parent
takes for the child it has made, and goes on alone.

Whatever the order of the two, the parent is not killed by its own `write`.  It fails exactly
where there is no child, or the child has closed its end for reading by then.
-/
import LinuxSystems.AnonymousPipe.Model

namespace LinuxSystems.Sigpipe

open AnonymousPipe (Process Exit Message)

inductive ParentSite where
  | pipe
  | fork
  | sigaction
  | closeIn
  | write
  | leave
  | ended (e : Exit)
  deriving DecidableEq

inductive ChildSite where
  | absent
  | closeOut
  | closeIn
  | leave
  | ended (e : Exit)
  deriving DecidableEq

inductive Action where
  /-- `ok` is the result of `pipe`, `fork` or `sigaction`, where the parent is there. -/
  | parent (ok : Bool)
  | child
  | kill (p : Process)
  deriving DecidableEq

end Sigpipe

open Sigpipe
open AnonymousPipe (Process Exit Message)

structure Sigpipe where
  ends : PipeEnds Process
  parent : ParentSite
  child : ChildSite
  /-- `SIGPIPE` is ignored by the parent. -/
  ignores : Bool
  /-- Whether the pipe took what the parent wrote. -/
  result : Option Bool

namespace Sigpipe

def ParentSite.isEnded : ParentSite → Bool
  | .ended _ => true
  | .pipe | .fork | .sigaction | .closeIn | .write | .leave => false

def ChildSite.alive : ChildSite → Bool
  | .absent | .ended _ => false
  | .closeOut | .closeIn | .leave => true

def enabled (s : Sigpipe) : Action → Prop
  | .parent _ => s.parent.isEnded = false
  | .child => s.child.alive = true
  | .kill .parent => s.parent.isEnded = false
  | .kill .child => s.child.alive = true

instance (s : Sigpipe) : ∀ a, Decidable (s.enabled a)
  | .parent _ => inferInstanceAs (Decidable (s.parent.isEnded = false))
  | .child => inferInstanceAs (Decidable (s.child.alive = true))
  | .kill .parent => inferInstanceAs (Decidable (s.parent.isEnded = false))
  | .kill .child => inferInstanceAs (Decidable (s.child.alive = true))

def parentEnds (s : Sigpipe) (e : Exit) : Sigpipe :=
  { s with parent := .ended e, ends := s.ends.leave .parent }

def childEnds (s : Sigpipe) (e : Exit) : Sigpipe :=
  { s with child := .ended e, ends := s.ends.leave .child }

def parentStep (msg : Message) (s : Sigpipe) (ok : Bool) : Sigpipe :=
  match s.parent with
  | .pipe =>
      if ok then { s with parent := .fork, ends := .create .parent }
      else s.parentEnds .success
  | .fork =>
      if ok then
        { s with parent := .sigaction, child := .closeOut, ends := s.ends.inherit .parent .child }
      else { s with parent := .sigaction }
  | .sigaction =>
      if ok then { s with parent := .closeIn, ignores := true }
      else s.parentEnds .failure
  | .closeIn => { s with parent := .write, ends := s.ends.closeRead .parent }
  | .write =>
      if s.ends.Broken then
        if s.ignores then { s with parent := .leave, result := some false }
        else s.parentEnds .sigpipe
      else
        { s with
          parent := .leave
          ends := s.ends.put (msg.text ++ [0])
          result := some true }
  | .leave => s.parentEnds .success
  | .ended _ => s

def childStep (s : Sigpipe) : Sigpipe :=
  match s.child with
  | .closeOut => { s with child := .closeIn, ends := s.ends.closeWrite .child }
  | .closeIn => { s with child := .leave, ends := s.ends.closeRead .child }
  | .leave => s.childEnds .success
  | .absent | .ended _ => s

def step (msg : Message) (s : Sigpipe) : Action → Sigpipe
  | .parent ok => s.parentStep msg ok
  | .child => s.childStep
  | .kill .parent => s.parentEnds .killed
  | .kill .child => s.childEnds .killed

def machine (msg : Message) : Machine Sigpipe Action where
  init := ⟨.none, .pipe, .absent, false, none⟩
  enabled := enabled
  next := step msg

instance (msg : Message) (s : Sigpipe) (a : Action) : Decidable ((machine msg).enabled s a) :=
  inferInstanceAs (Decidable (s.enabled a))

variable {msg : Message} {s : Sigpipe} {a : Action}

/-! ### Who can read -/

def ParentSite.reads : ParentSite → Bool
  | .fork | .sigaction | .closeIn => true
  | .pipe | .write | .leave | .ended _ => false

def ChildSite.reads : ChildSite → Bool
  | .closeOut | .closeIn => true
  | .absent | .leave | .ended _ => false

/-- The parent has asked to ignore the signal, unless it has ended. -/
def ParentSite.asked : ParentSite → Bool
  | .closeIn | .write | .leave => true
  | .pipe | .fork | .sigaction | .ended _ => false

structure Stands (s : Sigpipe) : Prop where
  parentReads : s.ends.reads .parent = s.parent.reads
  childReads : s.ends.reads .child = s.child.reads
  forked : s.parent = .pipe ∨ s.parent = .fork → s.child = .absent
  ignores : s.parent.asked = true → s.ignores = true
  unharmed : s.parent ≠ .ended .sigpipe

theorem Stands.parentEnds {e : Exit} (hs : Stands s) (he : e ≠ .sigpipe) :
    Stands (s.parentEnds e) :=
  { parentReads := by simp [Sigpipe.parentEnds, ParentSite.reads]
    childReads := by simpa [Sigpipe.parentEnds] using hs.childReads
    forked := fun h => by simp [Sigpipe.parentEnds] at h
    ignores := fun h => by simp [Sigpipe.parentEnds, ParentSite.asked] at h
    unharmed := by simpa [Sigpipe.parentEnds] using he }

theorem Stands.childEnds {e : Exit} (hs : Stands s) (ha : s.child.alive = true) :
    Stands (s.childEnds e) :=
  { hs with
    parentReads := by simpa [Sigpipe.childEnds] using hs.parentReads
    childReads := by simp [Sigpipe.childEnds, ChildSite.reads]
    forked := fun h => by
      have habsent := hs.forked h
      simp [habsent, ChildSite.alive] at ha }

/-- Nobody can read, once the parent has closed its end: there is no child, or it has closed
its own. -/
theorem Stands.broken_iff (hs : Stands s) (hp : s.parent.reads = false) :
    s.ends.Broken ↔ s.child.reads = false := by
  constructor
  · intro hbroken
    rw [← hs.childReads, hbroken .child]
  · intro hc p
    cases p with
    | parent => rw [hs.parentReads, hp]
    | child => rw [hs.childReads, hc]

theorem Stands.parentStep {ok : Bool} (hs : Stands s) (ha : s.enabled (.parent ok)) :
    Stands (s.parentStep msg ok) := by
  cases hp : s.parent with
  | pipe =>
      have habsent := hs.forked (Or.inl hp)
      cases ok with
      | false =>
          simp only [Sigpipe.parentStep, hp]
          exact hs.parentEnds (by simp)
      | true =>
          simp only [Sigpipe.parentStep, hp, if_true]
          exact {
            parentReads := by simp [PipeEnds.create, ParentSite.reads]
            childReads := by simp [PipeEnds.create, habsent, ChildSite.reads]
            forked := fun _ => habsent
            ignores := fun h => by simp [ParentSite.asked] at h
            unharmed := by simp }
  | fork =>
      have habsent := hs.forked (Or.inr hp)
      have hreads : s.ends.reads .parent = true := by rw [hs.parentReads, hp]; rfl
      cases ok with
      | false =>
          simp only [Sigpipe.parentStep, hp]
          exact { hs with
            parentReads := by simp [hreads, ParentSite.reads]
            forked := fun _ => habsent
            ignores := fun h => by simp [ParentSite.asked] at h
            unharmed := by simp }
      | true =>
          simp only [Sigpipe.parentStep, hp, if_true]
          exact {
            parentReads := by simp [hreads, ParentSite.reads]
            childReads := by simp [hreads, ChildSite.reads]
            forked := fun h => by simp at h
            ignores := fun h => by simp [ParentSite.asked] at h
            unharmed := by simp }
  | sigaction =>
      cases ok with
      | false =>
          simp only [Sigpipe.parentStep, hp]
          exact hs.parentEnds (by simp)
      | true =>
          simp only [Sigpipe.parentStep, hp, if_true]
          exact { hs with
            parentReads := by simpa [hp, ParentSite.reads] using hs.parentReads
            forked := fun h => by simp at h
            ignores := fun _ => rfl
            unharmed := by simp }
  | closeIn =>
      simp only [Sigpipe.parentStep, hp]
      exact {
        parentReads := by simp [ParentSite.reads]
        childReads := by simpa using hs.childReads
        forked := fun h => by simp at h
        ignores := fun _ => hs.ignores (by rw [hp]; rfl)
        unharmed := by simp }
  | write =>
      have hignores := hs.ignores (by rw [hp]; rfl)
      simp only [Sigpipe.parentStep, hp, hignores, if_true]
      by_cases hbroken : s.ends.Broken
      · rw [if_pos hbroken]
        exact { hs with
          parentReads := by simpa [hp, ParentSite.reads] using hs.parentReads
          forked := fun h => by simp at h
          ignores := fun _ => rfl
          unharmed := by simp }
      · rw [if_neg hbroken]
        exact {
          parentReads := by simpa [hp, ParentSite.reads] using hs.parentReads
          childReads := by simpa using hs.childReads
          forked := fun h => by simp at h
          ignores := fun _ => rfl
          unharmed := by simp }
  | leave =>
      simp only [Sigpipe.parentStep, hp]
      exact hs.parentEnds (by simp)
  | ended e => simp [enabled, hp, ParentSite.isEnded] at ha

theorem Stands.childStep (hs : Stands s) (ha : s.enabled .child) : Stands s.childStep := by
  cases hc : s.child with
  | closeOut =>
      simp only [Sigpipe.childStep, hc]
      exact { hs with
        parentReads := by simpa using hs.parentReads
        childReads := by simpa [hc, ChildSite.reads] using hs.childReads
        forked := fun h => by simpa [hc] using hs.forked h }
  | closeIn =>
      simp only [Sigpipe.childStep, hc]
      exact { hs with
        parentReads := by simpa using hs.parentReads
        childReads := by simp [ChildSite.reads]
        forked := fun h => by simpa [hc] using hs.forked h }
  | leave =>
      simp only [Sigpipe.childStep, hc]
      exact hs.childEnds ha
  | absent | ended _ => simp [enabled, hc, ChildSite.alive] at ha

theorem reachable_stands (hr : (machine msg).Reachable s) : Stands s := by
  refine hr.invariant (P := Stands) ?_ ?_
  · constructor <;> simp [machine, PipeEnds.none, ParentSite.reads, ChildSite.reads,
      ParentSite.asked]
  · intro s a _ hs ha
    cases a with
    | parent ok => exact hs.parentStep ha
    | child => exact hs.childStep ha
    | kill p =>
        cases p with
        | parent => exact hs.parentEnds (by simp)
        | child => exact hs.childEnds ha

/--
**The `write` does no harm.**  At no time of a run is the parent killed by it.  It
fails exactly where, when it comes, there is no child or the child has closed its end for
reading.
-/
theorem write_ignored (hr : (machine msg).Reachable s) : s.parent ≠ .ended .sigpipe ∧
    (s.parent = .write → ∀ ok, (s.step msg (.parent ok)).parent = .leave ∧
      (s.step msg (.parent ok)).result =
        some (decide (s.child = .closeOut ∨ s.child = .closeIn))) := by
  have hs := reachable_stands hr
  refine ⟨hs.unharmed, fun hp ok => ?_⟩
  have hignores := hs.ignores (by rw [hp]; rfl)
  have hbroken := hs.broken_iff (by rw [hp]; rfl)
  show (s.parentStep msg ok).parent = .leave ∧ (s.parentStep msg ok).result = _
  simp only [Sigpipe.parentStep, hp, hignores, if_true]
  by_cases hb : s.ends.Broken
  · have hc := hbroken.mp hb
    rw [if_pos hb]
    refine ⟨rfl, ?_⟩
    cases hcs : s.child <;> simp_all [ChildSite.reads]
  · have hc : ¬ s.child.reads = false := fun h => hb (hbroken.mpr h)
    rw [if_neg hb]
    refine ⟨rfl, ?_⟩
    cases hcs : s.child <;> simp_all [ChildSite.reads]

/-- The message of `main`, to a child that could not be made. -/
theorem write_ignored_alone : ((machine AnonymousPipe.mainMessage).after
    (machine AnonymousPipe.mainMessage).init
      [.parent true, .parent false, .parent true, .parent true, .parent true]).result =
        some false := by
  have hr : (machine AnonymousPipe.mainMessage).Reachable
      ((machine AnonymousPipe.mainMessage).after (machine AnonymousPipe.mainMessage).init
        [.parent true, .parent false, .parent true, .parent true]) :=
    Machine.reachable_after (by decide)
  exact ((write_ignored hr).2 (by decide) true).2

end Sigpipe

end LinuxSystems
