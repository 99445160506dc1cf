/-
What the threads print, and how they come to their ends.

A step brings its thread on in its iteration, and the notification at the end of an
iteration puts another thread back to its `wait` at most, which is less than the
iteration was worth.  Only to wake up for no reason costs nothing.  Each iteration
prints one number, the drift as it is when the number is read.
-/
import LinuxSystems.AtomicFlags.Drift
import LinuxSystems.Machine.Endless

namespace LinuxSystems.AtomicFlags

variable {limit : Nat} {s : AtomicFlags} {r u : Role} {x : Site} {a : Action}

/-! ### What is left to do -/

/-- How far a thread is from the end of its iteration. -/
def Site.left : Site → Nat
  | .test => 8
  | .wait => 7
  | .waiting => 6
  | .flip => 5
  | .update => 4
  | .report => 3
  | .notify => 2
  | .returned => 0

/-- What a thread has left. -/
def roleLeft (limit : Nat) (s : AtomicFlags) (r : Role) : Nat :=
  8 * (limit - s.i r) + (s.site r).left

def left (limit : Nat) (s : AtomicFlags) : Nat :=
  s.roleLeft limit .increment + s.roleLeft limit .decrement

theorem left_eq (limit : Nat) (s : AtomicFlags) (r : Role) :
    s.left limit = s.roleLeft limit r + s.roleLeft limit r.other := by
  cases r
  · rfl
  · exact Nat.add_comm ..

/-- A step of `r` to another place, within its iteration. -/
theorem left_goto {s' : AtomicFlags} (hsite : s'.site = Function.update s.site r x)
    (hi : s'.i = s.i) (hx : x.left < (s.site r).left) : s'.left limit < s.left limit := by
  rw [left_eq limit s' r, left_eq limit s r]
  unfold roleLeft
  rw [hsite, hi, Function.update_self, Function.update_of_ne r.other_ne]
  omega

/-- Who is woken is one step back. -/
theorem wakeOther_left (s : AtomicFlags) (r : Role) :
    (s.wakeOther r).site r = s.site r ∧
      ((s.wakeOther r).site r.other).left ≤ (s.site r.other).left + 1 := by
  unfold wakeOther
  split
  case isTrue hasleep =>
    refine ⟨Function.update_of_ne r.other_ne.symm .., ?_⟩
    rw [goto_site, hasleep]
    exact le_rfl
  case isFalse => exact ⟨rfl, Nat.le_succ _⟩

theorem wakeOther_i (s : AtomicFlags) (r : Role) : (s.wakeOther r).i = s.i := by
  unfold wakeOther
  split <;> rfl

theorem left_notify (hlt : s.i r < limit) (hat : s.site r = .notify) :
    AtomicFlags.left limit { (s.wakeOther r).goto r .test with
      i := Function.update s.i r (s.i r + 1) } < s.left limit := by
  have hother := (wakeOther_left s r).2
  rw [left_eq limit _ r, left_eq limit s r]
  simp only [roleLeft, goto, Function.update_self, Function.update_of_ne r.other_ne, hat]
  rw [show Site.test.left = 8 from rfl, show Site.notify.left = 2 from rfl]
  omega

/-- **Every step of a thread leaves less.** -/
theorem left_run (h : Flipping limit s) (ha : s.enabled (.run r)) :
    (s.runStep limit r).left limit < s.left limit := by
  have hawake : (s.site r).isAwake := ha
  have hknows := (h.stands r).knows
  unfold runStep
  cases hat : s.site r with
  | waiting | returned =>
      rw [hat] at hawake
      exact absurd hawake id
  | test =>
      by_cases hlt : s.i r < limit
      · simp only [hlt, if_true]
        exact left_goto (x := .wait) rfl rfl (by rw [hat]; decide)
      · simp only [hlt, if_false]
        exact left_goto (x := .returned) rfl rfl (by rw [hat]; decide)
  | wait =>
      by_cases hflag : s.condFlag = r.flag
      · simp only [hflag, if_true]
        exact left_goto (x := .waiting) rfl rfl (by rw [hat]; decide)
      · simp only [hflag, if_false]
        exact left_goto (x := .flip) rfl rfl (by rw [hat]; decide)
  | flip => exact left_goto (x := .update) rfl rfl (by rw [hat]; decide)
  | update => exact left_goto (x := .report) rfl rfl (by rw [hat]; decide)
  | report => exact left_goto (x := .notify) rfl rfl (by rw [hat]; decide)
  | notify =>
      rw [hat] at hknows
      exact left_notify hknows hat

def Action.isSpurious : Action → Prop
  | .spurious _ => True
  | .run _ => False

/-- **Only wakeups can go on for ever.** -/
theorem forever_spurious {run : ℕ → Action} (h : (machine limit).Endless run) :
    Machine.Forever run Action.isSpurious := by
  refine h.forever (μ := AtomicFlags.left limit) ?_
  intro s a hs ha hno
  cases a with
  | spurious r => exact absurd trivial hno
  | run r => exact left_run (flipping hs) ha

/-! ### What is printed -/

def Line.isValue : Line → Bool
  | .value _ => true
  | .finished _ => false

/-- The numbers printed in this iteration. -/
def Site.values : Site → Nat
  | .notify => 1
  | .test | .wait | .waiting | .flip | .update | .report | .returned => 0

/-- The last lines printed. -/
def Site.finished : Site → Nat
  | .returned => 1
  | .test | .wait | .waiting | .flip | .update | .report | .notify => 0

/-- The numbers that a thread has printed. -/
def shown (s : AtomicFlags) (r : Role) : Nat := s.i r + (s.site r).values

/-- The numbers are those that `shared_resource` can have, one for each iteration; a thread prints
its last line when it returns. -/
structure Printed (s : AtomicFlags) : Prop where
  inRange : ∀ v, .value v ∈ s.output → ∃ n : Int, -2 ≤ n ∧ n ≤ 1 ∧ v = BitVec.ofInt 16 n
  values : s.output.countP Line.isValue = s.shown .increment + s.shown .decrement
  finished : ∀ r, s.output.count (.finished r) = (s.site r).finished

namespace Printed

/-- A step of `r` that prints nothing. -/
theorem move {s' : AtomicFlags} (h : Printed s) (houtput : s'.output = s.output)
    (hshown : ∀ u, s'.shown u = s.shown u)
    (hfinished : ∀ u, (s'.site u).finished = (s.site u).finished) : Printed s' where
  inRange := by
    rw [houtput]
    exact h.inRange
  values := by
    rw [houtput, hshown, hshown]
    exact h.values
  finished := by
    intro u
    rw [houtput, hfinished]
    exact h.finished u

theorem goto {s' : AtomicFlags} (h : Printed s) (houtput : s'.output = s.output)
    (hsite : s'.site = Function.update s.site r x) (hi : s'.i = s.i)
    (hvalues : x.values = (s.site r).values) (hfinished : x.finished = (s.site r).finished) :
    Printed s' := by
  refine h.move houtput (fun u => ?_) (fun u => ?_)
  · unfold shown
    rw [hsite, hi]
    by_cases hu : u = r
    · rw [hu, Function.update_self, hvalues]
    · rw [Function.update_of_ne hu]
  · rw [hsite]
    by_cases hu : u = r
    · rw [hu, Function.update_self, hfinished]
    · rw [Function.update_of_ne hu]

theorem wakeOther (h : Printed s) (r : Role) : Printed (s.wakeOther r) := by
  unfold AtomicFlags.wakeOther
  split
  case isTrue hasleep =>
    exact h.goto (x := .wait) rfl rfl rfl (by rw [hasleep]; rfl) (by rw [hasleep]; rfl)
  case isFalse => exact h

/-- The iteration is over, and its number has been printed. -/
theorem again (h : Printed s) (hat : s.site r = .notify) :
    Printed { s.goto r .test with i := Function.update s.i r (s.i r + 1) } := by
  refine h.move rfl (fun u => ?_) (fun u => ?_)
  · rcases Role.two.eq_or r u with rfl | rfl
    · simp [shown, AtomicFlags.goto, hat, Site.values]
    · simp [shown, AtomicFlags.goto]
  · rcases Role.two.eq_or r u with rfl | rfl
    · simp [AtomicFlags.goto, hat, Site.finished]
    · simp [AtomicFlags.goto]

/-- A number is printed. -/
theorem report (h : Printed s) (hat : s.site r = .report) {n : Int} (hlow : -2 ≤ n)
    (hhigh : n ≤ 1) (hvalue : s.sharedResource = BitVec.ofInt 16 n) :
    Printed { s.goto r .notify with output := s.output ++ [.value s.sharedResource] } where
  inRange := by
    intro v hv
    rcases List.mem_append.mp hv with hv | hv
    · exact h.inRange v hv
    · obtain rfl : v = s.sharedResource := by simpa using hv
      exact ⟨n, hlow, hhigh, hvalue⟩
  values := by
    have hvalues := h.values
    simp only [List.countP_append, shown] at hvalues ⊢
    cases r <;> simp [AtomicFlags.goto, hvalues, hat, Site.values, Line.isValue] <;> omega
  finished := by
    intro u
    rw [List.count_append, h.finished u]
    rcases Role.two.eq_or r u with rfl | rfl
    · simp [AtomicFlags.goto, hat, Site.finished]
    · simp [AtomicFlags.goto]

/-- The last line is printed. -/
theorem leave (h : Printed s) (hat : s.site r = .test) :
    Printed { s.goto r .returned with output := s.output ++ [.finished r] } where
  inRange := by
    intro v hv
    rcases List.mem_append.mp hv with hv | hv
    · exact h.inRange v hv
    · simp at hv
  values := by
    have hvalues := h.values
    simp only [List.countP_append, shown] at hvalues ⊢
    cases r <;> simp [AtomicFlags.goto, hvalues, hat, Site.values, Line.isValue]
  finished := by
    intro u
    rw [List.count_append, h.finished u]
    rcases Role.two.eq_or r u with rfl | rfl
    · simp [AtomicFlags.goto, hat, Site.finished]
    · simp [AtomicFlags.goto, r.other_ne.symm]

theorem run (h : Printed s) (hf : Flipping limit s)
    (hvalue : s.sharedResource = BitVec.ofInt 16 s.drift) : Printed (s.runStep limit r) := by
  unfold runStep
  cases hat : s.site r with
  | test =>
      by_cases hlt : s.i r < limit
      · simp only [hlt, if_true]
        exact h.goto (x := .wait) rfl rfl rfl (by rw [hat]; rfl) (by rw [hat]; rfl)
      · simp only [hlt, if_false]
        exact h.leave hat
  | wait =>
      by_cases hflag : s.condFlag = r.flag
      · simp only [hflag, if_true]
        exact h.goto (x := .waiting) rfl rfl rfl (by rw [hat]; rfl) (by rw [hat]; rfl)
      · simp only [hflag, if_false]
        exact h.goto (x := .flip) rfl rfl rfl (by rw [hat]; rfl) (by rw [hat]; rfl)
  | flip => exact h.goto (x := .update) rfl rfl rfl (by rw [hat]; rfl) (by rw [hat]; rfl)
  | update => exact h.goto (x := .report) rfl rfl rfl (by rw [hat]; rfl) (by rw [hat]; rfl)
  | report => exact h.report hat hf.drift_bounds.1 hf.drift_bounds.2 hvalue
  | notify =>
      have hagain := (h.wakeOther r).again ((wakeOther_left s r).1.trans hat)
      rwa [wakeOther_i] at hagain
  | waiting | returned => exact h

end Printed

theorem printed (h : (machine limit).Reachable s) : Printed s := by
  refine h.invariant (P := Printed) ?_ ?_
  · exact ⟨fun v hv => absurd hv List.not_mem_nil, rfl, fun r => rfl⟩
  · intro s a hr hs ha
    cases a with
    | run r => exact hs.run (flipping hr) (value_eq hr)
    | spurious r =>
        have hat : s.site r = .waiting := ha
        exact hs.goto (x := .wait) rfl rfl rfl (by rw [hat]; rfl) (by rw [hat]; rfl)

/--
**The threads print their numbers and end.**  Whatever the limit, only wakeups for no reason can
keep the program going for ever.  Every number printed is the drift of some moment, from -2 to 1;
and when nobody has a next step there is one for each iteration of either thread, and each
thread has printed its last line once.
-/
theorem flags_end (limit : Nat) :
    (∀ run : ℕ → Action, (machine limit).Endless run → Machine.Forever run Action.isSpurious) ∧
    ∀ s, (machine limit).Reachable s →
      (∀ v, .value v ∈ s.output → ∃ n : Int, -2 ≤ n ∧ n ≤ 1 ∧ v = BitVec.ofInt 16 n) ∧
      (s.Settled → s.output.countP Line.isValue = 2 * limit ∧
        ∀ r, s.output.count (.finished r) = 1) := by
  refine ⟨fun run => forever_spurious, fun s hs => ⟨(printed hs).inRange, fun hset => ?_⟩⟩
  have hf := flipping hs
  have hshown : ∀ r, s.shown r = limit := by
    intro r
    have hknows := (hf.stands r).knows
    rw [hf.returned hset r] at hknows
    have hi : s.i r = limit := hknows
    unfold shown
    rw [hf.returned hset r, hi]
    rfl
  refine ⟨?_, fun r => ?_⟩
  · rw [(printed hs).values, hshown, hshown, Nat.two_mul]
  · rw [(printed hs).finished, hf.returned hset r]
    rfl

/-- With one iteration each. -/
def onceRun : List Action :=
  List.replicate 7 (.run .decrement) ++ List.replicate 7 (.run .increment)

theorem flags_end_once :
    ((machine 1).after (machine 1).init onceRun).output.countP Line.isValue = 2 :=
  (((flags_end 1).2 _ (Machine.reachable_after (by decide +kernel))).2 fun r => by
    cases r <;> decide +kernel).1

end LinuxSystems.AtomicFlags
