/-
The end of `stop-token.cpp` and `stop-source.cpp`.

A worker that is asked to stop has few steps left, and `main` has only so many commands.  In a
run that goes on for ever there is a worker that goes on for ever and is never asked.
-/
import LinuxSystems.Workers.Output
import LinuxSystems.Machine.Endless

namespace LinuxSystems

namespace Workers

variable {n : ℕ} {c : Setup n} {s : Workers n} {a : Action n} {w v : Fin n}

/-- The steps that a worker has left once it is asked to stop. -/
def Site.left : Site → ℕ
  | .work => 4
  | .sleep => 3
  | .test => 2
  | .stop => 1
  | .done => 0
  | .absent => 0

/-- Nobody can do anything: then `main` has returned. -/
theorem returned_of_stuck (hr : (machine c).Reachable s) (hstuck : (machine c).Stuck s) :
    s.todo = [] := by
  obtain ⟨past, hs⟩ := reachable_script hr
  by_contra hne
  obtain ⟨x, rest, htodo⟩ := List.exists_cons_of_ne_nil hne
  have hmain : ¬ s.enabled .main := hstuck .main
  cases x with
  | join w =>
      have halong := hs.along
      rw [htodo] at halong
      have habsent : s.site w ≠ .absent := halong.all_present (by simp) w
      have hdone : s.site w ≠ .done := by simpa [enabled, htodo, Ready] using hmain
      exact hstuck (.worker w) ⟨habsent, hdone⟩
  | make _ | own _ => simp [enabled, htodo, Ready] at hmain

/-- A command of `main` shortens what it has to do. -/
theorem todo_mainStep (ha : s.enabled .main) : s.mainStep.todo.length < s.todo.length := by
  cases htodo : s.todo with
  | nil => simp [enabled, htodo, Ready] at ha
  | cons x rest => cases x <;> simp [Workers.mainStep, htodo]

theorem todo_step (ha : s.enabled a) : (s.step c a).todo = s.todo ∨
    (s.step c a).todo.length < s.todo.length := by
  cases a with
  | main => exact Or.inr (todo_mainStep ha)
  | worker w =>
      left
      show (s.workerStep c w).todo = s.todo
      rw [workerStep_eq c ha]
      rfl

/-- A source that was asked to stop stays so. -/
theorem requested_step {x : Option (Fin n)} (hx : s.requested x = true) (ha : s.enabled a) :
    (s.step c a).requested x = true := by
  cases a with
  | main =>
      show s.mainStep.requested x = true
      cases htodo : s.todo with
      | nil => simpa [Workers.mainStep, htodo] using hx
      | cons y rest =>
          cases y with
          | own y =>
              simp only [Workers.mainStep, htodo]
              cases y with
              | request z =>
                  show Function.update s.requested z true x = true
                  by_cases hxz : x = z <;> simp [hxz, hx]
              | sleep | announce => exact hx
          | make _ | join _ => simpa [Workers.mainStep, htodo, Workers.goto] using hx
  | worker w =>
      show (s.workerStep c w).requested x = true
      rw [workerStep_eq c ha]
      exact hx

theorem requested_mono {run : ℕ → Action n} (hrun : (machine c).Endless run)
    {x : Option (Fin n)} {i j : ℕ} (hij : i ≤ j)
    (hx : ((machine c).stateAt run i).requested x = true) :
    ((machine c).stateAt run j).requested x = true := by
  induction j, hij using Nat.le_induction with
  | base => exact hx
  | succ j _ ih =>
      rw [Machine.stateAt_succ]
      exact requested_step ih (hrun.enabled j)

theorem Site.left_next {y : Site} (habsent : y ≠ .absent) (hdone : y ≠ .done) :
    (y.next true).left < y.left := by
  cases y <;> simp_all [Site.next, Site.left]

/-- A worker that is asked to stop comes closer to its end. -/
theorem left_workerStep (ha : s.enabled (.worker w)) (hasked : s.requested (c.token w) = true) :
    ∑ v, ((s.workerStep c w).site v).left < ∑ v, (s.site v).left := by
  rw [workerStep_eq c ha, hasked]
  show ∑ v, (Function.update s.site w ((s.site w).next true) v).left < _
  have hown := Site.left_next ha.1 ha.2
  refine Finset.sum_lt_sum (fun v _ => ?_) ⟨w, Finset.mem_univ w, by simpa using hown⟩
  by_cases hvw : v = w
  · rw [hvw, Function.update_self]
    exact hown.le
  · rw [Function.update_of_ne hvw]

/--
**The programs come to their end**, unless the scheduler keeps `main` from asking.  In a run
that goes on for ever some worker goes on for ever, and it is never asked to stop.  Where
nobody can do anything, `main` has returned.
-/
theorem workers_end (c : Setup n) : (∀ run : ℕ → Action n, (machine c).Endless run →
      ∃ w, Machine.Forever run (· = .worker w) ∧
        ∀ k, ((machine c).stateAt run k).requested (c.token w) = false) ∧
    ∀ s, (machine c).Reachable s → (machine c).Stuck s → s.todo = [] := by
  refine ⟨fun run hrun => ?_, fun s hr hstuck => returned_of_stuck hr hstuck⟩
  by_contra hno
  simp only [not_exists, not_and, not_forall, Bool.not_eq_false] at hno
  -- from some step on only the workers do something
  obtain ⟨k, hk⟩ := hrun.settles (f := Workers.todo) (μ := List.length)
    fun s a _ ha => todo_step ha
  have hworkers : ∀ j, k ≤ j → ∃ w, run j = .worker w := by
    intro j hj
    cases ha : run j with
    | worker w => exact ⟨w, rfl⟩
    | main =>
        have hen := hrun.enabled j
        have hsame : ((machine c).stateAt run (j + 1)).todo = ((machine c).stateAt run j).todo := by
          rw [hk (j + 1) (by omega), hk j hj]
        rw [Machine.stateAt_succ, ha] at hsame
        rw [ha] at hen
        have hless := todo_mainStep hen
        exact absurd (congrArg List.length hsame) hless.ne
  -- and from some step on each of them has been asked
  have hasked : ∀ w, ∃ j, ∀ i, j ≤ i → run i = .worker w →
      ((machine c).stateAt run i).requested (c.token w) = true := by
    intro w
    by_cases hw : Machine.Forever run (· = .worker w)
    · obtain ⟨j, hj⟩ := hno w hw
      exact ⟨j, fun i hi _ => requested_mono hrun hi hj⟩
    · simp only [Machine.Forever, not_forall, not_exists, not_and] at hw
      obtain ⟨j, hj⟩ := hw
      exact ⟨j, fun i hi hrun => absurd hrun (hj i hi)⟩
  choose J hJ using hasked
  have hlower : ∀ i, max k (Finset.univ.sup J) ≤ i →
      ∑ v, (((machine c).stateAt run (i + 1)).site v).left <
        ∑ v, (((machine c).stateAt run i).site v).left := by
    intro i hi
    obtain ⟨w, hw⟩ := hworkers i ((le_max_left _ _).trans hi)
    have hsup : J w ≤ Finset.univ.sup J := Finset.le_sup (Finset.mem_univ w)
    have hen := hrun.enabled i
    rw [hw] at hen
    rw [Machine.stateAt_succ, hw]
    exact left_workerStep hen (hJ w i (hsup.trans ((le_max_right _ _).trans hi)) hw)
  have hnone : ¬ Machine.Forever run fun _ => True :=
    Machine.Endless.not_forever_from (m := machine c) (μ := fun s => ∑ v, (s.site v).left)
      (fun i hi _ => hlower i hi) fun i hi => (hlower i hi).le
  exact hnone fun j => ⟨j, le_rfl, trivial⟩

theorem workers_end_late :
    ((machine (stopSource 2)).after (machine (stopSource 2)).init lateRun).todo = [] := by
  refine (workers_end _).2 _ (Machine.reachable_after (by decide)) fun a => ?_
  cases a with
  | main => decide
  | worker w =>
      revert w
      decide

end Workers

end LinuxSystems
