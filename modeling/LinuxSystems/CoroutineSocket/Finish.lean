/-
The end of the socket program.

Each thread makes ten calls, and no call waits: neither for the other thread nor for
anybody who sends to the port.  So the process comes to its end, whatever fails and whatever is
received.
-/
import LinuxSystems.CoroutineSocket.Model
import LinuxSystems.Machine.Endless

namespace LinuxSystems

open CoroutineSocket

namespace CoroutineSocket

variable {s : CoroutineSocket} {a : Action} {t u : Thread}

def MainSite.left : MainSite → ℕ
  | .opening => 6
  | .makeServer => 5
  | .makeClient => 4
  | .joinServer => 3
  | .joinClient => 2
  | .close => 1
  | .returned => 0
  | .thrown => 0

/-- The steps to come, where a call counts for the pieces it brings and what it sends. -/
def Site.left : Site → ℕ
  | .absent => 65
  | .begin => 64
  | .loop i => 6 * (rounds + 1 - i) + 1
  | .done => 0
  | .exited => 0

def left (s : CoroutineSocket) : ℕ :=
  s.main.left + ((s.site .server).left + (s.pending .server).length) +
    ((s.site .client).left + (s.pending .client).length) + s.net.length

theorem mainStep_left (hstage : Staged s) (ha : s.mainReady s.main) : s.mainStep.left < s.left := by
  have habsent := hstage.absent_iff
  cases hmain : s.main with
  | returned | thrown => simp [mainReady, hmain] at ha
  | opening | joinServer | joinClient | close =>
      simp only [left, mainStep, hmain, MainSite.left]
      omega
  | makeServer =>
      have hsite : s.site .server = .absent := by
        simp [habsent, hmain, MainSite.stage, Thread.makeStage]
      simp only [left, mainStep, hmain, MainSite.left, goto, hsite, Function.update_self, Site.left,
        ne_eq, reduceCtorEq, not_false_eq_true, Function.update_of_ne]
      omega
  | makeClient =>
      have hsite : s.site .client = .absent := by
        simp [habsent, hmain, MainSite.stage, Thread.makeStage]
      simp only [left, mainStep, hmain, MainSite.left, goto, hsite, Function.update_self, Site.left,
        ne_eq, reduceCtorEq, not_false_eq_true, Function.update_of_ne]
      omega

theorem loop_left {i : ℕ} (hi : i ≤ rounds) :
    (Site.loop (i + 1)).left + 6 = (Site.loop i).left := by
  simp only [Site.left]
  omega

theorem recvStep_left {net : List (List UInt8)} (r : Received) (hgoes : (s.site .client).goesOn)
    (hpending : s.pending .client = []) (hnet : net.length ≤ s.net.length) :
    (s.recvStep r net).left < s.left := by
  obtain ⟨i, hsite, hi⟩ := goesOn_iff.mp hgoes
  have hless := loop_left hi
  simp only [left, recvStep, goto, say, hsite, hpending, Site.next, recvLine, Function.update_self,
    ne_eq, reduceCtorEq, not_false_eq_true, Function.update_of_ne, List.length_cons,
    List.length_nil]
  omega

/-- Every step brings the end closer. -/
theorem descends : machine.Descends (InvImage (· < ·) left) := by
  rintro s a hr ⟨-, ha⟩
  have hstage := reachable_staged hr
  show (s.step a).left < s.left
  cases a with
  | main => exact mainStep_left hstage ha
  | socketFails =>
      have hmain : s.main = .opening := ha
      simp only [left, step, hmain, MainSite.left]
      omega
  | bind =>
      have hsite : s.site .server = .begin := ha
      simp only [left, step, goto, say, hsite, Function.update_self, Site.left, ne_eq, reduceCtorEq,
        not_false_eq_true, Function.update_of_ne, List.length_cons, List.length_nil, rounds]
      omega
  | bindFails =>
      have hsite : s.site .server = .begin := ha
      simp only [left, step, goto, hsite, Function.update_self, Site.left, ne_eq, reduceCtorEq,
        not_false_eq_true, Function.update_of_ne]
      omega
  | begin =>
      have hsite : s.site .client = .begin := ha
      simp only [left, step, goto, say, hsite, Function.update_self, Site.left, ne_eq, reduceCtorEq,
        not_false_eq_true, Function.update_of_ne, List.length_cons, List.length_nil, rounds]
      omega
  | send ok =>
      obtain ⟨i, hsite, hi⟩ := goesOn_iff.mp ha.1
      have hless := loop_left hi
      have hnet : (if ok then s.net ++ [message] else s.net).length ≤ s.net.length + 1 := by
        cases ok <;> simp
      simp only [left, step, goto, say, hsite, ha.2, Site.next, sendLine, Function.update_self,
        ne_eq, reduceCtorEq, not_false_eq_true, Function.update_of_ne, List.length_cons,
        List.length_nil]
      omega
  | recv j =>
      cases j with
      | none => exact recvStep_left .failed ha.1 ha.2 le_rfl
      | some j => exact recvStep_left _ ha.1.1 ha.1.2 (List.length_eraseIdx_le s.net j)
  | hear d => exact recvStep_left (.got d) ha.1.1 ha.1.2 le_rfl
  | finish t =>
      obtain ⟨i, hsite, -⟩ := ends_iff.mp ha.1
      have hpos : 0 < (Site.loop i).left := Nat.succ_pos _
      cases t <;> simp only [left, step, goto, hsite, Function.update_self, ne_eq, reduceCtorEq,
        not_false_eq_true, Function.update_of_ne] <;> simp only [Site.left] at hpos ⊢ <;> omega
  | insert t =>
      have hpos : 0 < (s.pending t).length := List.length_pos_iff.mpr ha
      cases t <;> simp only [left, step, say, Function.update_self, ne_eq, reduceCtorEq,
        not_false_eq_true, Function.update_of_ne, List.length_tail] <;> omega
  | lose j =>
      have hless : (s.net.eraseIdx j).length < s.net.length := by
        rw [List.length_eraseIdx_of_lt ha]
        exact Nat.sub_lt (Nat.zero_lt_of_lt ha) Nat.zero_lt_one
      simp only [left, step]
      omega

/-- A thread that is there can go on until it is done. -/
theorem exists_ready (t : Thread) (habsent : s.site t ≠ .absent) (hdone : s.site t ≠ .done)
    (hexited : s.site t ≠ .exited) : ∃ a, s.ready a := by
  by_cases hpending : s.pending t = []
  · cases hsite : s.site t with
    | begin =>
        cases t with
        | server => exact ⟨.bind, hsite⟩
        | client => exact ⟨.begin, hsite⟩
    | loop i =>
        by_cases hi : i ≤ rounds
        · cases t with
          | server => exact ⟨.send true, goesOn_iff.mpr ⟨i, hsite, hi⟩, hpending⟩
          | client => exact ⟨.recv none, goesOn_iff.mpr ⟨i, hsite, hi⟩, hpending⟩
        · exact ⟨.finish t, ends_iff.mpr ⟨i, hsite, Nat.lt_of_not_le hi⟩, hpending⟩
    | absent => exact absurd hsite habsent
    | done => exact absurd hsite hdone
    | exited => exact absurd hsite hexited
  · exact ⟨.insert t, hpending⟩

/-- Nobody can do anything: then the process is at its end. -/
theorem ended_of_stuck (hr : machine.Reachable s) (hstuck : machine.Stuck s) :
    s.site .server = .exited ∨ s.main = .thrown ∨ s.main = .returned := by
  have hstage := reachable_staged hr
  by_contra hno
  simp only [not_or] at hno
  obtain ⟨hexited, hthrown, hreturned⟩ := hno
  have hready : ∀ a, ¬ s.ready a := fun a ha => hstuck a ⟨hexited, ha⟩
  have hall : ∀ t, s.site t ≠ .absent → s.site t = .done := by
    intro t habsent
    by_contra hdone
    have hlive : s.site t ≠ .exited := by
      intro h
      have hfits := hstage.fits t
      rw [h] at hfits
      have hserver : t = .server := hfits
      exact hexited (hserver ▸ h)
    obtain ⟨a, ha⟩ := exists_ready t habsent hdone hlive
    exact hready a ha
  have hmain : ¬ s.mainReady s.main := hready .main
  have habsent := hstage.absent_iff
  cases hsite : s.main with
  | opening | makeServer | makeClient | close => simp [hsite, mainReady] at hmain
  | returned => exact hreturned hsite
  | thrown => exact hthrown hsite
  | joinServer =>
      refine hmain ?_
      rw [hsite]
      exact hall .server (by simp [habsent, hsite, MainSite.stage, Thread.makeStage])
  | joinClient =>
      refine hmain ?_
      rw [hsite]
      exact hall .client (by simp [habsent, hsite, MainSite.stage, Thread.makeStage])

/--
**The process comes to its end.**  There is no endless run.  Where nobody can do anything, `socket`
or `bind` failed, or `main` has returned.
-/
theorem socket_end : (∀ run : ℕ → Action, ¬ machine.Endless run) ∧
    ∀ s, machine.Reachable s → machine.Stuck s →
      s.site .server = .exited ∨ s.main = .thrown ∨ s.main = .returned :=
  ⟨fun _ => descends.not_endless (InvImage.wf _ Nat.lt_wfRel.wf),
    fun _ hr hstuck => ended_of_stuck hr hstuck⟩

/-- `socket` fails. -/
theorem socket_end_thrown : let s := machine.after machine.init [.socketFails]
    s.site .server = .exited ∨ s.main = .thrown ∨ s.main = .returned := by
  refine socket_end.2 _ (Machine.reachable_after (by decide)) ?_
  rintro a ⟨-, ha⟩
  cases a with
  | recv j => cases j <;> simp [ready, machine, step, Site.goesOn] at ha
  | insert t => exact ha rfl
  | main | socketFails | bind | bindFails | begin | send _ | hear _ | finish _ | lose _ =>
      simp [ready, machine, step, mainReady, Site.goesOn, Site.ends] at ha

end CoroutineSocket

end LinuxSystems
