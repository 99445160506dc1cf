/-
The lines of `latch.cpp`.

Whoever waits goes on only when every thread has counted down, so that what is printed behind the
latch stands behind what every thread prints before it.  The counter is never counted
below zero.
-/
import LinuxSystems.Latch.Model
import LinuxSystems.Machine.Tally
import LinuxSystems.Machine.Names

namespace LinuxSystems

namespace Latch

variable {n : ℕ} {kind : Fin n → Kind} {s : Latch n} {a : Action n} {v w : Fin n}
  {past rest : List (Crew.Command n Own)} {x : Crew.Command n Own}

/-! ### What a worker does -/

def Site.next (k : Kind) : Site → Site
  | .start => k.afterStart
  | .sleep => .announce
  | .announce => .count
  | .count => k.afterCount
  | .wait => .finish
  | .finish => .done
  | .absent => .absent
  | .done => .done

def Site.prints (w : Fin n) : Site → List (Line n)
  | .start => [.starting w]
  | .announce => [.decrementing w]
  | .finish => [.finished w]
  | .absent | .sleep | .count | .wait | .done => []

/-- How much the thread takes from the counter from here on. -/
def Site.due : Site → ℕ
  | .absent | .start | .sleep | .announce | .count => 1
  | .wait | .finish | .done => 0

/-- How much this step takes from it. -/
def Site.takes : Site → ℕ
  | .count => 1
  | .absent | .start | .sleep | .announce | .wait | .finish | .done => 0

theorem workerStep_eq (ha : s.enabled (.worker w)) : s.workerStep kind w =
    { s.goto w ((s.site w).next (kind w)) with
      counter := s.counter - (s.site w).takes
      cout := s.cout ++ (s.site w).prints w } := by
  cases hw : s.site w with
  | start | sleep | announce | count | wait | finish =>
      simp [workerStep, hw, Site.next, Site.prints, Site.takes, goto]
  | absent | done => simp [enabled, hw, Site.Ready] at ha

theorem Site.due_next {y : Site} (k : Kind) (hy : y.Ready s.counter) :
    (y.next k).due + y.takes = y.due := by
  cases k <;> cases y <;> simp_all [Site.next, Site.due, Site.takes, Kind.afterStart,
    Kind.afterCount, Site.Ready]

/-! ### What every step keeps -/

/-- Where a thread of the kind can be. -/
def Site.On (k : Kind) : Site → Prop
  | .sleep | .announce => k = .counts
  | .wait => k = .waits
  | .absent | .start | .count | .finish | .done => True

/-- The line is one of the thread `w`. -/
def Line.of (w : Fin n) : Line n → Bool
  | .starting v => v = w
  | .decrementing v => v = w
  | .finished v => v = w
  | .mainWaiting => false
  | .mainFinished => false

/-- What the thread prints before it counts down. -/
def Kind.intro (w : Fin n) : Kind → List (Line n)
  | .counts => [.starting w, .decrementing w]
  | .waits => [.starting w]

/-- What the thread has printed when it is there. -/
def Site.log (k : Kind) (w : Fin n) : Site → List (Line n)
  | .absent | .start => []
  | .sleep | .announce => [.starting w]
  | .count | .wait | .finish => k.intro w
  | .done => k.intro w ++ [.finished w]

/-- Printed by one that waits at the latch. -/
def Line.Behind (kind : Fin n → Kind) : Line n → Prop
  | .mainFinished => True
  | .finished w => kind w = .waits
  | .starting _ | .decrementing _ | .mainWaiting => False

/-- Every thread has printed what it prints before it counts down. -/
def AllBefore (kind : Fin n → Kind) (l : List (Line n)) : Prop :=
  ∀ w, ∀ x ∈ (kind w).intro w, x ∈ l

/-- `main` has done the commands of `past`. -/
structure Held (kind : Fin n → Kind) (past : List (Crew.Command n Own)) (s : Latch n) : Prop where
  along : Crew.Along (plan n) past s.todo (fun w => s.site w = .absent) (fun w => s.site w = .done)
  counter : s.counter = tally Site.due s.site
  on : ∀ w, (s.site w).On (kind w)
  lines : ∀ w, s.cout.filter (Line.of w) = (s.site w).log (kind w) w
  /-- A thread that waited was let through. -/
  passed : ∀ w, kind w = .waits → s.site w = .finish ∨ s.site w = .done → s.counter = 0
  mainPassed : .own .wait ∈ past → s.counter = 0
  behind : ∀ before l after, s.cout = before ++ l :: after → l.Behind kind → AllBefore kind before

/-- The latch is open: then everything is printed that is printed before it. -/
theorem Held.allBefore (hs : Held kind past s) (hzero : s.counter = 0) :
    AllBefore kind s.cout := by
  intro w x hx
  have hdue : (s.site w).due = 0 := by
    rw [hs.counter] at hzero
    exact tally_eq_zero.mp hzero w
  have hlog : x ∈ (s.site w).log (kind w) w := by
    cases hw : s.site w with
    | wait | finish => exact hx
    | done => exact List.mem_append_left _ hx
    | absent | start | sleep | announce | count => simp [hw, Site.due] at hdue
  rw [← hs.lines w] at hlog
  exact (List.mem_filter.mp hlog).1

/-- Some more lines, none of them behind the latch before it is open. -/
theorem Held.behind_append {m : List (Line n)} (hs : Held kind past s)
    (hm : ∀ l ∈ m, l.Behind kind → s.counter = 0) (before : List (Line n)) (l : Line n)
    (after : List (Line n)) (hcout : s.cout ++ m = before ++ l :: after)
    (hl : l.Behind kind) : AllBefore kind before := by
  rcases List.append_eq_append_iff.mp hcout with ⟨k, rfl, hk⟩ | ⟨k, hold, hk⟩
  · -- the line is the one that is new
    have hmem : l ∈ m := by
      rw [hk]
      exact List.mem_append_right k List.mem_cons_self
    intro w x hx
    exact List.mem_append_left k (hs.allBefore (hm l hmem hl) w x hx)
  · cases k with
    | nil =>
        rw [List.nil_append] at hk
        rw [List.append_nil] at hold
        rw [← hold]
        exact hs.allBefore (hm l (hk ▸ List.mem_cons_self) hl)
    | cons y k =>
        obtain ⟨rfl, _⟩ := List.cons.inj hk
        exact hs.behind before l k hold hl

theorem Site.on_next {y : Site} {k : Kind} (hy : y.On k) : (y.next k).On k := by
  cases k <;> cases y <;> simp_all [Site.next, Site.On, Kind.afterStart, Kind.afterCount]

theorem Site.log_next {y : Site} {k : Kind} (hy : y.On k) (hready : y.Ready s.counter)
    (w : Fin n) : (y.next k).log k w = y.log k w ++ y.prints w := by
  cases k <;> cases y <;> simp_all [Site.next, Site.On, Site.log, Site.prints, Site.Ready,
    Kind.afterStart, Kind.afterCount, Kind.intro]

theorem filter_prints (y : Site) (v : Fin n) :
    (y.prints v).filter (Line.of w) = if v = w then y.prints v else [] := by
  cases y <;> by_cases hvw : v = w <;> simp [Site.prints, Line.of, hvw]

theorem Held.workerStep (hs : Held kind past s) (ha : s.enabled (.worker w)) :
    Held kind past (s.workerStep kind w) := by
  rw [workerStep_eq ha]
  have hready : (s.site w).Ready s.counter := ha
  have hdue := Site.due_next (kind w) hready
  have hle := le_tally Site.due s.site w
  have hmove := tally_update Site.due s.site w ((s.site w).next (kind w))
  have hcounter := hs.counter
  -- the counter does not come back from zero
  have hzero : s.counter = 0 → s.counter - (s.site w).takes = 0 := fun h => by
    rw [h, Nat.zero_sub]
  refine ⟨hs.along.go (fun v => ?_) (fun v hv => ?_) fun v hv => ?_, ?_, fun v => ?_, fun v => ?_,
    fun v hk hv => ?_, fun hm => hzero (hs.mainPassed hm), ?_⟩
  · show Function.update s.site w _ v = .absent ↔ _
    by_cases hvw : v = w
    · subst hvw
      rw [Function.update_self]
      cases hv : s.site v <;> cases kind v <;>
        simp_all [Site.next, Site.Ready, Kind.afterStart, Kind.afterCount]
    · rw [Function.update_of_ne hvw]
  · show Function.update s.site w _ v = .done
    have hvw : v ≠ w := by
      rintro rfl
      rw [hv] at hready
      exact hready
    rw [Function.update_of_ne hvw, hv]
  · by_cases hvw : v = w
    · subst hvw
      intro habsent
      rw [habsent] at hready
      exact hready
    · have hv' : Function.update s.site w _ v = .done := hv
      rw [Function.update_of_ne hvw] at hv'
      simp [hv']
  · show s.counter - (s.site w).takes = tally Site.due (Function.update s.site w _)
    omega
  · show (Function.update s.site w _ v).On (kind v)
    by_cases hvw : v = w
    · rw [hvw, Function.update_self]
      exact Site.on_next (hs.on w)
    · rw [Function.update_of_ne hvw]
      exact hs.on v
  · show (s.cout ++ (s.site w).prints w).filter (Line.of v) =
      (Function.update s.site w _ v).log (kind v) v
    rw [List.filter_append, hs.lines v, filter_prints]
    by_cases hvw : w = v
    · subst hvw
      rw [if_pos rfl, Function.update_self, Site.log_next (hs.on w) hready]
    · rw [if_neg hvw, List.append_nil, Function.update_of_ne (Ne.symm hvw)]
  · show s.counter - (s.site w).takes = 0
    refine hzero ?_
    by_cases hvw : v = w
    · subst hvw
      -- it went through the latch just now, or before
      have hv' : (s.site v).next (kind v) = .finish ∨ (s.site v).next (kind v) = .done := by
        simpa [goto] using hv
      cases hv : s.site v with
      | wait =>
          rw [hv] at hready
          exact hready
      | finish => exact hs.passed v hk (Or.inl hv)
      | absent | start | sleep | announce | count | done =>
          simp_all [Site.next, Site.Ready, Kind.afterStart, Kind.afterCount]
    · refine hs.passed v hk ?_
      simpa [goto, hvw] using hv
  · refine hs.behind_append fun l hl hbehind => ?_
    cases hw : s.site w with
    | finish =>
        simp only [hw, Site.prints, List.mem_singleton] at hl
        subst hl
        exact hs.passed w hbehind (Or.inl hw)
    | start | announce =>
        simp only [hw, Site.prints, List.mem_singleton] at hl
        subst hl
        exact absurd hbehind id
    | absent | sleep | count | wait | done => simp [hw, Site.prints] at hl

/-- `main` has waited before it prints its last line. -/
theorem wait_mem (h : past ++ .own .finish :: rest = (plan n).program) : .own .wait ∈ past := by
  have hprogram : past ++ .own .finish :: rest =
      (Crew.makes n Own ++ [.own .announce, .own .wait]) ++
        .own .finish :: (List.finRange n).reverse.map .join := by
    rw [h, List.append_assoc]
    rfl
  have hsplit : (past ++ [.own .finish]) ++ rest =
      (Crew.makes n Own ++ [.own .announce, .own .wait]) ++
        .own .finish :: (List.finRange n).reverse.map .join := by
    rw [List.append_assoc]
    exact hprogram
  have hmem : .own .wait ∈ past ++ [.own .finish] :=
    Crew.before_mem hsplit (by simp [Crew.makes]) (by simp) (by simp)
  simpa using hmem

theorem Held.mainStep (hs : Held kind past s) (htodo : s.todo = x :: rest)
    (ha : s.enabled .main) : Held kind (past ++ [x]) s.mainStep := by
  have halong := hs.along
  rw [htodo] at halong
  cases x with
  | make w =>
      have hw : s.site w = .absent := halong.absent_of_make
      have hmove := tally_update Site.due s.site w .start
      simp only [Latch.mainStep, htodo]
      refine { hs with along := ?_, counter := ?_, on := ?_, lines := ?_, passed := ?_,
                       mainPassed := ?_ }
      · refine halong.make (fun v => ?_) (fun v hvw => ?_) ?_
        · show Function.update s.site w .start v = .absent ↔ _
          by_cases hvw : v = w <;> simp [hvw]
        · show Function.update s.site w .start v = .done ↔ _
          rw [Function.update_of_ne hvw]
        · show Function.update s.site w .start w ≠ .done
          simp
      · show s.counter = tally Site.due (Function.update s.site w .start)
        rw [hs.counter]
        simp only [hw, Site.due] at hmove
        omega
      · intro v
        show (Function.update s.site w .start v).On (kind v)
        by_cases hvw : v = w
        · rw [hvw, Function.update_self]
          exact trivial
        · rw [Function.update_of_ne hvw]
          exact hs.on v
      · intro v
        refine (hs.lines v).trans ?_
        show _ = (Function.update s.site w .start v).log (kind v) v
        by_cases hvw : v = w
        · rw [hvw, Function.update_self, hw]
          rfl
        · rw [Function.update_of_ne hvw]
      · intro v hk hv
        have hvw : v ≠ w := by
          rintro rfl
          simp [goto] at hv
        refine hs.passed v hk ?_
        simpa [goto, hvw] using hv
      · intro hm
        exact hs.mainPassed (by simpa using hm)
  | own c =>
      cases c with
      | announce =>
          simp only [Latch.mainStep, htodo]
          refine { hs with along := halong.own, lines := fun v => ?_, mainPassed := fun hm => ?_,
                           behind := hs.behind_append fun l hl hbehind => ?_ }
          · rw [← hs.lines v]
            simp [Line.of]
          · exact hs.mainPassed (by simpa using hm)
          · obtain rfl : l = .mainWaiting := by simpa using hl
            exact absurd hbehind id
      | wait =>
          have hzero : s.counter = 0 := by simpa [enabled, htodo, mainReady] using ha
          simp only [Latch.mainStep, htodo]
          exact { hs with along := halong.own, mainPassed := fun _ => hzero }
      | finish =>
          have hzero : s.counter = 0 := hs.mainPassed (wait_mem halong.program)
          simp only [Latch.mainStep, htodo]
          refine { hs with along := halong.own, lines := fun v => ?_, mainPassed := fun _ => hzero,
                           behind := hs.behind_append fun _ _ _ => hzero }
          rw [← hs.lines v]
          simp [Line.of]
  | join w =>
      have hdone : s.site w = .done := by simpa [enabled, htodo, mainReady] using ha
      simp only [Latch.mainStep, htodo]
      exact { hs with along := halong.join hdone
                      mainPassed := fun hm => hs.mainPassed (by simpa using hm) }

theorem reachable_held (hr : (machine kind).Reachable s) : ∃ past, Held kind past s := by
  refine hr.invariant (P := fun s => ∃ past, Held kind past s) ⟨[], ?_⟩ ?_
  · exact
      { along := Crew.Along.init fun w => ⟨rfl, by simp [machine]⟩
        counter := by simp [machine, tally_const, Site.due]
        on := fun _ => trivial
        lines := fun _ => rfl
        passed := fun _ _ hv => by simp [machine] at hv
        mainPassed := fun hm => by simp at hm
        behind := fun before l after hcout => by simp [machine] at hcout }
  · intro s a _ ⟨past, hs⟩ ha
    cases a with
    | main =>
        cases htodo : s.todo with
        | nil => simp [machine, enabled, htodo, mainReady] at ha
        | cons x rest => exact ⟨past ++ [x], hs.mainStep htodo ha⟩
    | worker w => exact ⟨past, hs.workerStep ha⟩

/-! ### What stands behind the latch -/

/--
**The latch.**  Its counter is the number of the threads that have not counted down, so that nobody
counts below zero.  And what `main` or a waiting thread prints behind the latch stands behind
every line that a thread prints before it counts down.
-/
theorem latch_lines (hr : (machine kind).Reachable s) :
    (∀ w, s.site w = .count → 0 < s.counter) ∧
    ∀ before l after, s.cout = before ++ l :: after →
      l = .mainFinished ∨ (∃ v, kind v = .waits ∧ l = .finished v) →
        ∀ w, .starting w ∈ before ∧ (kind w = .counts → .decrementing w ∈ before) := by
  obtain ⟨past, hs⟩ := reachable_held hr
  refine ⟨fun w hw => ?_, fun before l after hcout hl w => ?_⟩
  · have hle := le_tally Site.due s.site w
    rw [hw, ← hs.counter] at hle
    exact hle
  · have hbehind : l.Behind kind := by
      rcases hl with rfl | ⟨v, hv, rfl⟩
      · exact trivial
      · exact hv
    have hall := hs.behind before l after hcout hbehind w
    refine ⟨hall _ ?_, fun hw => hall _ ?_⟩
    · cases kind w <;> simp [Kind.intro]
    · simp [hw, Kind.intro]

attribute [local instance] neZeroTwo

/-- The array of the source. -/
def threads : Fin 2 → Kind
  | 0 => .counts
  | 1 => .waits

/-- The thread that waits is there first, and is let through last. -/
def latchRun : List (Action 2) :=
  [.main, .main, .worker 1, .worker 1, .main, .worker 0, .worker 0, .worker 0, .worker 0, .main,
    .main, .worker 0, .worker 1, .worker 1, .main, .main]

example : ((machine threads).after (machine threads).init latchRun).cout =
    [.starting 1, .mainWaiting, .starting 0, .decrementing 0, .mainFinished, .finished 0,
      .finished 1] := by decide

theorem latch_lines_last : .decrementing 0 ∈
    ([.starting 1, .mainWaiting, .starting 0, .decrementing 0] : List (Line 2)) :=
  ((latch_lines (s := (machine threads).after (machine threads).init latchRun)
    (Machine.reachable_after (by decide))).2 _ .mainFinished [.finished 0, .finished 1]
      (by decide) (Or.inl rfl) 0).2 rfl

end Latch

end LinuxSystems
