/-
The end of `anonymous_pipe_example.cpp`.

The child does not wait for ever, whoever is killed: it has closed its own end for writing, so
that a parent that is gone is the end of the file.
-/
import LinuxSystems.AnonymousPipe.Child
import LinuxSystems.Machine.Endless

namespace LinuxSystems

namespace AnonymousPipe

variable {msg : Message} {s : AnonymousPipe} {a : Action}

def ParentSite.left : ParentSite → ℕ
  | .pipe => 5
  | .fork => 4
  | .closeIn => 3
  | .write => 2
  | .leave => 1
  | .ended _ => 0

def ChildSite.left : ChildSite → ℕ
  | .absent => 5
  | .closeOut => 4
  | .read => 3
  | .print _ => 2
  | .leave => 1
  | .ended _ => 0

def left (s : AnonymousPipe) : ℕ := s.parent.left + s.child.left

/-- No step is taken twice. -/
theorem left_step (hs : Stands msg s) (ha : s.enabled a) : (s.step msg a).left < s.left := by
  cases a with
  | parent ok =>
      have hsite : s.parent.isEnded = false := ha
      show (s.parentStep msg ok).left < s.left
      cases hp : s.parent with
      | write =>
          by_cases hbroken : s.ends.Broken <;>
            simp [AnonymousPipe.parentStep, hp, left, ParentSite.left, hbroken,
              AnonymousPipe.parentEnds]
      | fork =>
          have habsent : s.child = .absent := hs.forked.resolve_right fun h => h.2 hp
          cases ok <;>
            simp [AnonymousPipe.parentStep, hp, left, ParentSite.left, ChildSite.left, habsent,
              AnonymousPipe.parentEnds]
      | pipe =>
          cases ok <;>
            simp [AnonymousPipe.parentStep, hp, left, ParentSite.left, AnonymousPipe.parentEnds]
      | closeIn | leave =>
          simp [AnonymousPipe.parentStep, hp, left, ParentSite.left, AnonymousPipe.parentEnds]
      | ended e => exact absurd hp (Stands.parent_ne hsite e)
  | child =>
      show s.childStep.left < s.left
      cases hc : s.child with
      | absent | ended _ => simp [enabled, hc, childReady] at ha
      | closeOut | read | print _ | leave =>
          simp [AnonymousPipe.childStep, hc, left, ChildSite.left, AnonymousPipe.childEnds]
  | kill p =>
      cases p with
      | parent =>
          have hsite : s.parent.isEnded = false := ha
          show (s.parentEnds .killed).left < s.left
          cases hp : s.parent with
          | ended e => exact absurd hp (Stands.parent_ne hsite e)
          | pipe | fork | closeIn | write | leave =>
              simp [left, hp, AnonymousPipe.parentEnds, ParentSite.left]
      | child =>
          have halive : s.child.alive = true := ha
          show (s.childEnds .killed).left < s.left
          cases hc : s.child with
          | absent | ended _ => simp [hc, ChildSite.alive] at halive
          | closeOut | read | print _ | leave =>
              simp [left, hc, AnonymousPipe.childEnds, ChildSite.left]

/--
**Nobody waits for ever.**  Every run is finite, and where no process can go on by itself the
parent has ended, and so has the child if there was one: also where the other
one was killed.
-/
theorem processes_end (msg : Message) : (∀ run : ℕ → Action, ¬ (machine msg).Endless run) ∧
    ∀ s, (machine msg).Reachable s →
      (∀ ok, ¬ s.enabled (.parent ok)) → ¬ s.enabled .child →
      (∃ e, s.parent = .ended e) ∧ (s.child = .absent ∨ ∃ e, s.child = .ended e) := by
  constructor
  · intro run
    have hdown : (machine msg).Descends (InvImage (· < ·) left) :=
      fun s a hr ha => left_step (reachable_stands hr) ha
    exact hdown.not_endless (InvImage.wf left Nat.lt_wfRel.wf)
  · intro s hr hparent hchild
    have hs := reachable_stands hr
    have hp : s.parent.isEnded = true := by simpa [enabled] using hparent true
    obtain ⟨e, he⟩ : ∃ e, s.parent = .ended e := by
      cases hp' : s.parent with
      | ended e => exact ⟨e, rfl⟩
      | pipe | fork | closeIn | write | leave => simp [hp', ParentSite.isEnded] at hp
    refine ⟨⟨e, he⟩, ?_⟩
    cases hc : s.child with
    | absent => exact Or.inl rfl
    | ended e' => exact Or.inr ⟨e', rfl⟩
    | closeOut | print _ | leave => simp [enabled, hc, childReady] at hchild
    | read =>
        -- nobody holds the end for writing: the parent has ended, and the child has closed it
        have hready : s.ends.Readable := by
          refine Or.inr fun p => ?_
          cases p with
          | parent => rw [hs.parentWrites, he]; rfl
          | child => rw [hs.childWrites, hc]; rfl
        exact absurd (by simpa [enabled, hc, childReady] using hready) hchild

theorem processes_end_killed : ∃ e, ((machine mainMessage).after (machine mainMessage).init
    (untilWrite ++ [.kill .parent, .child, .child, .child])).parent = .ended e := by
  have hr : (machine mainMessage).Reachable ((machine mainMessage).after (machine mainMessage).init
      (untilWrite ++ [.kill .parent, .child, .child, .child])) :=
    Machine.reachable_after (by decide)
  exact ((processes_end mainMessage).2 _ hr (by decide) (by decide)).1

end AnonymousPipe

end LinuxSystems
