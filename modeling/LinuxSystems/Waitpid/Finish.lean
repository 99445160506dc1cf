/-
The end of the process that waits.

It waits for a child by its id, or for any child where there was no id to be had.  There is one then
that comes to its end, or there is none left, and `waitpid` fails at once.
-/
import LinuxSystems.Waitpid.Model
import LinuxSystems.Machine.Endless

namespace LinuxSystems

open Waitpid

namespace Waitpid

variable {s : Waitpid} {a : Action} {c d : Fin 2}

attribute [local instance] neZeroTwo

def Site.left : Site → ℕ
  | .fork 0 => 10
  | .fork 1 => 7
  | .wait 0 => 4
  | .report 0 => 3
  | .wait 1 => 2
  | .report 1 => 1
  | .returned => 0

/-- The steps of a child. -/
def childLeft : Option Child → ℕ
  | some ⟨_, .line⟩ => 2
  | some ⟨_, .exit⟩ => 1
  | some ⟨_, .zombie _⟩ | none => 0

/-- What parent and children have still to do. -/
def left (s : Waitpid) : ℕ := s.site.left + (childLeft (s.child 0) + childLeft (s.child 1))

/-- A child that goes on. -/
theorem left_setChild {q : Option Child} {l : List Line} {e : Fin 2 → Option Ending}
    (hless : childLeft q < childLeft (s.child c)) :
    ({ s.setChild c q with cout := l, ended := e } : Waitpid).left < s.left := by
  match c with
  | 0 =>
      have hother : Function.update s.child 0 q 1 = s.child 1 :=
        Function.update_of_ne (by decide) _ _
      simp only [left, setChild, Function.update_self, hother]
      omega
  | 1 =>
      have hother : Function.update s.child 1 q 0 = s.child 0 :=
        Function.update_of_ne (by decide) _ _
      simp only [left, setChild, Function.update_self, hother]
      omega

theorem fork_left {pid : Option ℕ} (ha : s.enabled (.fork pid)) :
    (s.forkStep pid).left < s.left := by
  match hsite : s.site with
  | .wait _ | .report _ | .returned => cases pid <;> simp [enabled, hsite, Site.isFork] at ha
  | .fork 0 | .fork 1 =>
      cases pid with
      | none =>
          simp only [forkStep, hsite, left, setPid, Site.next, Site.left]
          omega
      | some pid =>
          simp only [forkStep, hsite, left, setPid, setChild, Site.next, Site.left,
            Function.update_self, ne_eq, Fin.reduceEq, not_false_eq_true, Function.update_of_ne,
            childLeft]
          omega

theorem wait_left {c : Option (Fin 2)} (ha : s.enabled (.wait c)) :
    (s.waitStep c).left < s.left := by
  match hsite : s.site with
  | .fork _ | .report _ | .returned => simp [enabled, hsite, waitEnabled] at ha
  | .wait 0 | .wait 1 =>
      match c with
      | none =>
          simp only [waitStep, hsite, left, Site.next, Site.left]
          omega
      | some 0 | some 1 =>
          simp only [waitStep, hsite, left, setChild, Site.next, Site.left, Function.update_self,
            ne_eq, Fin.reduceEq, not_false_eq_true, Function.update_of_ne, childLeft]
          omega

theorem report_left (ha : s.enabled .report) : s.reportStep.left < s.left := by
  match hsite : s.site with
  | .fork _ | .wait _ | .returned => simp [enabled, hsite, Site.isReport] at ha
  | .report 0 | .report 1 =>
      simp only [reportStep, hsite, left, Site.next, Site.left]
      omega

theorem finish_left {how : Ending} (ha : alive (s.child c)) : (s.finish c how).left < s.left := by
  refine left_setChild ?_
  match hchild : s.child c with
  | none | some ⟨_, .zombie _⟩ => simp [hchild, alive] at ha
  | some ⟨pid, .line⟩ | some ⟨pid, .exit⟩ => simp [childLeft]

theorem child_left (ha : alive (s.child c)) : (s.childStep c).left < s.left := by
  match hchild : s.child c with
  | none | some ⟨_, .zombie _⟩ => simp [hchild, alive] at ha
  | some ⟨pid, .exit⟩ =>
      simp only [childStep, hchild]
      exact finish_left ha
  | some ⟨pid, .line⟩ =>
      simp only [childStep, hchild]
      refine left_setChild ?_
      rw [hchild]
      simp [childLeft]

/-- Every step brings the end closer. -/
theorem descends : machine.Descends (InvImage (· < ·) left) := by
  intro s a _ ha
  show (s.step a).left < s.left
  cases a with
  | fork pid => exact fork_left ha
  | wait c => exact wait_left ha
  | report => exact report_left ha
  | child c => exact child_left ha
  | kill c signal core => exact finish_left ha.1

/-- While the parent waits, there is a child that goes on or is at its end, or there is none. -/
theorem exists_enabled_of_wait (hsite : s.site = .wait d) : ∃ a, s.enabled a := by
  by_cases hall : ∀ c, ¬ Names (s.pids d) (s.child c)
  · exact ⟨.wait none, by simpa [enabled, hsite, waitEnabled, waitReady] using hall⟩
  · simp only [not_forall, not_not] at hall
    obtain ⟨c, hc⟩ := hall
    match hchild : s.child c with
    | none =>
        rw [hchild] at hc
        exact absurd hc id
    | some ⟨pid, .line⟩ | some ⟨pid, .exit⟩ =>
        exact ⟨.child c, by simp [enabled, hchild, alive]⟩
    | some ⟨pid, .zombie how⟩ =>
        refine ⟨.wait (some c), ?_⟩
        simp only [enabled, hsite, waitEnabled]
        exact ⟨hc, by simp [hchild, endStatus, Place.ending?]⟩

/--
**Nobody waits for ever.**  There is no endless run, and where nobody can do anything the parent has
returned.
-/
theorem parent_returns : (∀ run : ℕ → Action, ¬ machine.Endless run) ∧
    ∀ s, machine.Reachable s → machine.Stuck s → s.site = .returned := by
  refine ⟨fun _ => descends.not_endless (InvImage.wf _ Nat.lt_wfRel.wf), fun s _ hstuck => ?_⟩
  cases hsite : s.site with
  | returned => rfl
  | fork c =>
      have ha : s.enabled (.fork none) := by simp [enabled, hsite, Site.isFork]
      exact absurd ha (hstuck (.fork none))
  | report c =>
      have ha : s.enabled .report := by simp [enabled, hsite, Site.isReport]
      exact absurd ha (hstuck .report)
  | wait d =>
      obtain ⟨a, ha⟩ := exists_enabled_of_wait hsite
      exact absurd ha (hstuck a)

theorem stuck_of_returned (hsite : s.site = .returned) (hnone : ∀ c, s.child c = none) :
    machine.Stuck s := by
  intro a ha
  have ha : s.enabled a := ha
  cases a with
  | fork pid => cases pid <;> simp [enabled, hsite, Site.isFork] at ha
  | wait c => simp [enabled, hsite, waitEnabled] at ha
  | report => simp [enabled, hsite, Site.isReport] at ha
  | child c => simp [enabled, hnone, alive] at ha
  | kill c signal core => simp [enabled, hnone, alive] at ha

theorem parent_returns_twice : (machine.after machine.init forkFails).site = .returned :=
  parent_returns.2 _ (Machine.reachable_after (by decide))
    (stuck_of_returned (by decide) (by decide))

end Waitpid

end LinuxSystems
