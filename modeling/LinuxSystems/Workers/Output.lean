/-
The output of the workers of `stop-token.cpp` and `stop-source.cpp`.

`main` has asked everywhere when it says so.  A worker is then at most about to print
once more before it finds that it is asked, and it says so once.
-/
import LinuxSystems.Workers.Model

namespace LinuxSystems

namespace Workers

variable {n : ℕ} {c : Setup n} {s : Workers n} {a : Action n} {x : Command n} {w v : Fin n}
  {past rest : List (Command n)}

/-! ### What every step keeps -/

/-- `main` has asked everywhere when it says so. -/
theorem all_requested (h : past ++ rest = c.plan.program) (hx : .own .announce ∈ past)
    (w : Fin n) : .own (.request (c.token w)) ∈ past := by
  have hprogram : c.plan.program =
      (Crew.makes n (Own n) ++ c.asking) ++ .own .announce :: destructors n := by
    rw [List.append_assoc]
    rfl
  rw [hprogram] at h
  refine Crew.before_mem h ?_ hx ?_
  · simp [Crew.makes, Setup.asking]
  · have hmem : Crew.Command.own (.request (c.token w)) ∈ c.asking :=
      List.mem_cons_of_mem _ (List.mem_map_of_mem (c.covers w))
    exact List.mem_append_right _ hmem

/-- `main` has done the commands of `past`. -/
structure Script (c : Setup n) (past : List (Command n)) (s : Workers n) : Prop where
  along : Crew.Along c.plan past s.todo (fun w => s.site w = .absent) (fun w => s.site w = .done)
  requested : ∀ x, s.requested x = true ↔ .own (.request x) ∈ past
  announced : .requested ∈ s.cout ↔ .own .announce ∈ past

theorem Script.mainStep (hs : Script c past s) (htodo : s.todo = x :: rest)
    (ha : s.enabled .main) : Script c (past ++ [x]) s.mainStep := by
  obtain ⟨halong, hrequested, hannounced⟩ := hs
  rw [htodo] at halong
  cases x with
  | make w =>
      simp only [Workers.mainStep, htodo]
      refine ⟨halong.make (fun v => ?_) (fun v hvw => ?_) ?_, by simpa [goto] using hrequested,
        by simpa [goto] using hannounced⟩
      · show Function.update s.site w .test v = .absent ↔ _
        by_cases hvw : v = w <;> simp [hvw]
      · show Function.update s.site w .test v = .done ↔ _
        rw [Function.update_of_ne hvw]
      · show Function.update s.site w .test w ≠ .done
        simp
  | own y =>
      simp only [Workers.mainStep, htodo]
      cases y with
      | sleep =>
          exact ⟨halong.own, by simpa [ownStep] using hrequested,
            by simpa [ownStep] using hannounced⟩
      | announce =>
          exact ⟨halong.own, by simpa [ownStep] using hrequested, by simp [ownStep]⟩
      | request y =>
          refine ⟨halong.own, fun z => ?_, by simpa [ownStep] using hannounced⟩
          show Function.update s.requested y true z = true ↔ _
          by_cases hzy : z = y
          · simp [hzy]
          · simp [hzy, hrequested]
  | join w =>
      have hdone : s.site w = .done := by simpa [enabled, htodo, Ready] using ha
      simp only [Workers.mainStep, htodo]
      exact ⟨halong.join hdone, by simpa using hrequested, by simpa using hannounced⟩

/-- A worker that goes on neither comes nor goes back. -/
theorem Script.goto {y : Site} {l : List (Line n)} (hs : Script c past s)
    (hw : s.enabled (.worker w)) (hy : y ≠ .absent) (hl : .requested ∉ l) :
    Script c past { s.goto w y with cout := s.cout ++ l } := by
  refine ⟨hs.along.go (fun v => ?_) (fun v hv => ?_) fun v hv => ?_, hs.requested, ?_⟩
  · show Function.update s.site w y v = .absent ↔ _
    by_cases hvw : v = w
    · subst hvw
      rw [Function.update_self]
      exact iff_of_false hy hw.1
    · rw [Function.update_of_ne hvw]
  · show Function.update s.site w y v = .done
    have hvw : v ≠ w := by
      rintro rfl
      exact hw.2 hv
    rw [Function.update_of_ne hvw, hv]
  · by_cases hvw : v = w
    · subst hvw
      exact hw.1
    · refine hs.along.present v ?_
      have hv' : Function.update s.site w y v = .done := hv
      rwa [Function.update_of_ne hvw] at hv'
  · show .requested ∈ s.cout ++ l ↔ _
    rw [List.mem_append, or_iff_left hl, hs.announced]

/-- What a step of a worker does. -/
theorem workerStep_eq (c : Setup n) (ha : s.enabled (.worker w)) : s.workerStep c w =
    { s.goto w ((s.site w).next (s.requested (c.token w))) with
      cout := s.cout ++ (s.site w).prints w } := by
  cases hw : s.site w with
  | test | work | sleep | stop =>
      simp [Workers.workerStep, hw, Site.next, Site.prints, Workers.goto]
  | absent => exact absurd hw ha.1
  | done => exact absurd hw ha.2

theorem Site.next_ne_absent {y : Site} (hy : y ≠ .absent) (asked : Bool) :
    y.next asked ≠ .absent := by
  cases y <;> cases asked <;> simp_all [Site.next]

theorem requested_notMem_prints (y : Site) : .requested ∉ y.prints w := by
  cases y <;> simp [Site.prints]

theorem reachable_script (hr : (machine c).Reachable s) : ∃ past, Script c past s := by
  refine hr.invariant (P := fun s => ∃ past, Script c past s) ⟨[], ?_⟩ ?_
  · exact ⟨Crew.Along.init fun w => ⟨rfl, by simp [machine]⟩, by simp [machine],
      by simp [machine]⟩
  · intro s a _ ⟨past, hs⟩ ha
    cases a with
    | main =>
        cases htodo : s.todo with
        | nil => simp [machine, enabled, htodo, Ready] at ha
        | cons x rest => exact ⟨past ++ [x], hs.mainStep htodo ha⟩
    | worker w =>
        refine ⟨past, ?_⟩
        show Script c past (s.workerStep c w)
        rw [workerStep_eq c ha]
        exact hs.goto ha (Site.next_ne_absent ha.1 _) (requested_notMem_prints _)

/-! ### What is printed -/

/-- The line is one of the worker `w`. -/
def Line.of (w : Fin n) : Line n → Bool
  | .working v => v = w
  | .stopped v => v = w
  | .requested => false

structure Printed (s : Workers n) : Prop where
  /-- A worker prints that it works, and in the end that it stopped. -/
  lines : ∀ w, ∃ k, s.cout.filter (Line.of w) =
    List.replicate k (.working w) ++ if s.site w = .done then [.stopped w] else []
  /-- Behind the line of `main`, once more at most that it works. -/
  late : ∀ before after, s.cout = before ++ .requested :: after → ∀ w,
    after.count (.working w) + (if s.site w = .work then 1 else 0) ≤ 1

/-- Lines of `main`, or of a worker that goes on. -/
theorem filter_prints (y : Site) (v : Fin n) :
    (y.prints v).filter (Line.of w) = if v = w then y.prints v else [] := by
  cases y <;> by_cases hvw : v = w <;> simp [Site.prints, Line.of, hvw]

theorem append_eq_append_cons {α : Type*} {x : α} {l m before after : List α} (hx : x ∉ m)
    (h : l ++ m = before ++ x :: after) : ∃ behind, after = behind ++ m ∧
      l = before ++ x :: behind := by
  rcases List.append_eq_append_iff.mp h with ⟨l', hbefore, hm⟩ | ⟨l', hl, hafter⟩
  · have hmem : x ∈ m := by
      rw [hm]
      exact List.mem_append_right l' List.mem_cons_self
    exact absurd hmem hx
  · cases l' with
    | nil =>
        rw [List.nil_append] at hafter
        exact absurd (hafter ▸ List.mem_cons_self) hx
    | cons y l' =>
        obtain ⟨rfl, rfl⟩ := List.cons.inj hafter
        exact ⟨l', rfl, hl⟩

theorem Printed.workerStep (hp : Printed s) (hs : Script c past s)
    (ha : s.enabled (.worker v)) : Printed (s.workerStep c v) := by
  rw [workerStep_eq c ha]
  constructor
  · intro w
    obtain ⟨k, hk⟩ := hp.lines w
    show ∃ k, (s.cout ++ (s.site v).prints v).filter (Line.of w) = _ ++
      if Function.update s.site v ((s.site v).next (s.requested (c.token v))) w = .done then
        [Line.stopped w] else []
    rw [List.filter_append, hk, filter_prints]
    by_cases hvw : v = w
    · subst hvw
      rw [if_neg ha.2, if_pos rfl, Function.update_self, List.append_nil]
      cases hsite : s.site v with
      | work => exact ⟨k + 1, by simp [Site.prints, Site.next, List.replicate_succ']⟩
      | stop => exact ⟨k, by simp [Site.prints, Site.next]⟩
      | test => exact ⟨k, by cases s.requested (c.token v) <;> simp [Site.prints, Site.next]⟩
      | sleep => exact ⟨k, by simp [Site.prints, Site.next]⟩
      | absent => exact absurd hsite ha.1
      | done => exact absurd hsite ha.2
    · rw [if_neg hvw, List.append_nil, Function.update_of_ne (Ne.symm hvw)]
      exact ⟨k, rfl⟩
  · intro before after hcout w
    obtain ⟨behind, rfl, hold⟩ := append_eq_append_cons (requested_notMem_prints _) hcout
    have hlate := hp.late before behind hold w
    show _ + (if Function.update s.site v ((s.site v).next (s.requested (c.token v))) w = .work
      then 1 else 0) ≤ 1
    by_cases hvw : v = w
    · subst hvw
      -- `main` has asked: the worker does not begin with another line
      have hasked : s.requested (c.token v) = true := by
        rw [hs.requested]
        refine all_requested hs.along.program (hs.announced.mp ?_) v
        rw [hold]
        simp
      rw [Function.update_self, hasked, List.count_append]
      cases hsite : s.site v <;> simp_all [Site.next, Site.prints]
    · have hcount : ((s.site v).prints v).count (.working w) = 0 := by
        cases s.site v <;> simp [Site.prints, hvw]
      rw [Function.update_of_ne (Ne.symm hvw), List.count_append, hcount, Nat.add_zero]
      exact hlate

/-- What `main` does to the lines: it makes a worker that has not printed its last, or prints its
own line. -/
theorem Printed.mainStep (hp : Printed s) (hs : Script c past s) : Printed s.mainStep := by
  cases htodo : s.todo with
  | nil =>
      simp only [Workers.mainStep, htodo]
      exact hp
  | cons x rest =>
      cases x with
      | make w =>
          have halong := hs.along
          rw [htodo] at halong
          have hw : s.site w = .absent := halong.absent_of_make
          simp only [Workers.mainStep, htodo]
          constructor
          · intro v
            obtain ⟨k, hk⟩ := hp.lines v
            refine ⟨k, hk.trans ?_⟩
            show _ = _ ++ if Function.update s.site w .test v = .done then [Line.stopped v] else []
            by_cases hvw : v = w
            · simp [hvw, hw]
            · simp [hvw]
          · intro before after hcout v
            have hlate := hp.late before after hcout v
            show _ + (if Function.update s.site w .test v = .work then 1 else 0) ≤ 1
            by_cases hvw : v = w
            · simp [hvw, hw] at hlate ⊢
              exact hlate
            · simpa [hvw] using hlate
      | own y =>
          simp only [Workers.mainStep, htodo]
          cases y with
          | sleep | request _ => exact ⟨hp.lines, hp.late⟩
          | announce =>
              constructor
              · intro v
                obtain ⟨k, hk⟩ := hp.lines v
                refine ⟨k, ?_⟩
                show (s.cout ++ [Line.requested]).filter (Line.of v) =
                  _ ++ if s.site v = .done then [Line.stopped v] else []
                rw [List.filter_append, hk]
                simp [Line.of]
              · intro before after hcout v
                show _ + (if s.site v = .work then 1 else 0) ≤ 1
                rcases List.eq_nil_or_concat after with rfl | ⟨behind, y, rfl⟩
                · rw [List.count_nil, Nat.zero_add]
                  split <;> simp
                · have hsplit : s.cout ++ [.requested] =
                      (before ++ .requested :: behind) ++ [y] := by
                    rw [List.concat_eq_append] at hcout
                    rw [List.append_assoc]
                    exact hcout
                  obtain ⟨hold, hy⟩ := List.append_inj' hsplit rfl
                  have hlate := hp.late before behind hold v
                  obtain rfl : .requested = y := by simpa using hy
                  simpa using hlate
      | join _ =>
          simp only [Workers.mainStep, htodo]
          exact ⟨hp.lines, hp.late⟩

theorem reachable_printed (hr : (machine c).Reachable s) : Printed s := by
  refine hr.invariant (P := Printed) ⟨fun w => ⟨0, rfl⟩, fun before after hcout => ?_⟩ ?_
  · simp [machine] at hcout
  · intro s a hr hp ha
    obtain ⟨past, hs⟩ := reachable_script hr
    cases a with
    | main => exact hp.mainStep hs
    | worker w => exact hp.workerStep hs ha

/-- All the threads are joined when `main` returns. -/
theorem Script.returned (hs : Script c past s) (htodo : s.todo = []) :
    .requested ∈ s.cout ∧ ∀ w, s.site w = .done := by
  have halong := hs.along
  rw [htodo] at halong
  refine ⟨hs.announced.mpr ?_, halong.all_done⟩
  have hprogram := halong.program
  rw [List.append_nil] at hprogram
  simp [hprogram, Crew.Plan.program, Setup.plan, Setup.tail]

/--
**What the workers print.**  Each prints some lines that it works, and then that it stopped.  Behind
the line of `main` it prints once more at most that it works.  And when `main` has returned,
every one has stopped.
-/
theorem workers_output (hr : (machine c).Reachable s) :
    (∀ w, ∃ k, s.cout.filter (Line.of w) =
      List.replicate k (.working w) ++ if s.site w = .done then [.stopped w] else []) ∧
    (∀ before after, s.cout = before ++ .requested :: after →
      ∀ w, after.count (.working w) ≤ 1) ∧
    (s.todo = [] → .requested ∈ s.cout ∧ ∀ w, s.site w = .done) := by
  have hp := reachable_printed hr
  obtain ⟨past, hs⟩ := reachable_script hr
  refine ⟨hp.lines, fun before after hcout w => ?_, hs.returned⟩
  exact (Nat.le_add_right _ _).trans (hp.late before after hcout w)

/-- A worker that is about to print when it is asked to stop. -/
def lateRun : List (Action 2) :=
  [.main, .worker 0, .main, .main, .main, .main, .worker 0, .worker 0, .worker 0, .worker 0,
    .worker 1, .worker 1, .main, .main, .main, .main]

example : ((machine (stopSource 2)).after (machine (stopSource 2)).init lateRun).cout =
    [.requested, .working 0, .stopped 0, .stopped 1] := by decide

theorem workers_output_late :
    ((machine (stopSource 2)).after (machine (stopSource 2)).init lateRun).site 0 = .done :=
  ((workers_output (Machine.reachable_after (by decide))).2.2 (by decide)).2 0

end Workers

end LinuxSystems
