/-
The guards of `Chapter 5/raii.cpp`.

A `file_guard` holds the descriptor that `open` returned, or -1 once it was moved from, and
closes what it holds when it is destroyed.  `open` returns a descriptor that is not open,
so a number may come back after it was closed.

The move assignment takes the descriptor of the other guard and marks that one, but it
does not close what the guard held before.  Onto a guard that holds a file, this one
included, it loses a descriptor, and nobody closes that any more.
-/
import LinuxSystems.Machine.Ownership
import LinuxSystems.Machine.Simulation

namespace LinuxSystems

/-- The guards, and the descriptors of the process. -/
structure FileGuards (ι : Type*) where
  /-- The member `fd` of a guard, where there is one. -/
  fd : ι → Option Int
  /-- The descriptors that are open. -/
  table : List Int
  /-- What was opened for a guard, in order. -/
  opened : List Int
  /-- What `close` was called with. -/
  closed : List Int

namespace FileGuards

variable {ι : Type*} [DecidableEq ι]

inductive Action (ι : Type*) where
  /-- `open` returns `fd`. -/
  | construct (v : ι) (fd : Int)
  | moveConstruct (v other : ι)
  | moveAssign (v other : ι)
  | destroy (v : ι)

def enabled (s : FileGuards ι) : Action ι → Prop
  | .construct v fd => s.fd v = none ∧ (fd = -1 ∨ 0 ≤ fd ∧ fd ∉ s.table)
  | .moveConstruct v other => s.fd v = none ∧ s.fd other ≠ none
  | .moveAssign v other => s.fd v ≠ none ∧ s.fd other ≠ none
  | .destroy v => s.fd v ≠ none

instance (s : FileGuards ι) : ∀ a, Decidable (s.enabled a)
  | .construct _ _ => inferInstanceAs (Decidable (_ ∧ (_ ∨ _ ∧ _)))
  | .moveConstruct _ _ | .moveAssign _ _ => inferInstanceAs (Decidable (_ ∧ _))
  | .destroy _ => inferInstanceAs (Decidable (_ ≠ _))

/-- The guard `v` gets `fd`, or comes to its end. -/
def setFd (s : FileGuards ι) (v : ι) (fd : Option Int) : FileGuards ι :=
  { s with fd := Function.update s.fd v fd }

/-- `fd = move(other.fd)` and `other.fd = -1`, one after the other. -/
def take (s : FileGuards ι) (v other : ι) : FileGuards ι :=
  (s.setFd v (s.fd other)).setFd other (some (-1))

def close (s : FileGuards ι) (fd : Int) : FileGuards ι :=
  { s with table := s.table.erase fd, closed := s.closed ++ [fd] }

def step (s : FileGuards ι) : Action ι → FileGuards ι
  | .construct v fd =>
      -- the constructor throws, and there is no guard
      if fd = -1 then s
      else { s.setFd v (some fd) with table := fd :: s.table, opened := s.opened ++ [fd] }
  | .moveConstruct v other | .moveAssign v other => s.take v other
  | .destroy v =>
      match s.fd v with
      | some fd => (if fd ≠ -1 then s.close fd else s).setFd v none
      | none => s

/-- No guard, and nothing opened for one. -/
def machine (ι : Type*) [DecidableEq ι] : Machine (FileGuards ι) (Action ι) where
  init := ⟨fun _ => none, [], [], []⟩
  enabled := enabled
  next := step

instance (s : FileGuards ι) (a : Action ι) : Decidable ((machine ι).enabled s a) :=
  inferInstanceAs (Decidable (s.enabled a))

/-! ### What is wanted of the guards -/

/-- What the destructor of a guard with this `fd` closes. -/
def descriptor (fd : Int) : Option Int := if fd = -1 then none else some fd

def Holds (s : FileGuards ι) (v : ι) (fd : Int) : Prop := s.fd v = some fd ∧ fd ≠ -1

/-- Every descriptor is closed once. -/
structure ClosesOnce (s : FileGuards ι) : Prop where
  unique : ∀ v w fd, s.Holds v fd → s.Holds w fd → v = w
  /-- Nothing is closed more often than it was opened. -/
  closed : ∀ fd, s.closed.count fd ≤ s.opened.count fd
  held : ∀ fd ∈ s.table, ∃ v, s.Holds v fd
  settled : (∀ v, s.fd v = none) → ∀ fd, s.closed.count fd = s.opened.count fd

/-- A move assignment is onto a guard that holds nothing. -/
def AssignsEmpty (s : FileGuards ι) : Action ι → Prop
  | .moveAssign v _ => s.fd v = some (-1)
  | _ => True

instance (s : FileGuards ι) : ∀ a, Decidable (AssignsEmpty s a)
  | .moveAssign v _ => inferInstanceAs (Decidable (s.fd v = some (-1)))
  | .construct _ _ | .moveConstruct _ _ | .destroy _ => isTrue trivial

/-! ### The guards as owners -/

def held (s : FileGuards ι) (v : ι) : Option Int := (s.fd v).bind descriptor

/-- Who owns which descriptor. -/
def ownership (s : FileGuards ι) : Ownership ι Int := ⟨s.held, s.table, s.opened, s.closed⟩

/-- What an operation does with the descriptors. -/
def owns : Action ι → List (Ownership.Action ι Int)
  | .construct v fd => if fd = -1 then [] else [.acquire v fd]
  | .moveConstruct v other => [.move v other]
  | .moveAssign v other => if v = other then [.drop v] else [.move v other]
  | .destroy v => [.release v]

variable {s : FileGuards ι} {a : Action ι} {v other : ι} {fd : Int}

omit [DecidableEq ι] in
theorem held_eq_some : s.held v = some fd ↔ s.Holds v fd := by
  unfold held Holds descriptor
  cases hv : s.fd v with
  | none => simp
  | some x =>
      by_cases hx : x = -1
      · subst hx
        simp [eq_comm]
      · simp only [Option.bind_some, if_neg hx, Option.some.injEq]
        exact ⟨fun h => ⟨h, h ▸ hx⟩, fun h => h.1⟩

omit [DecidableEq ι] in
theorem held_eq_none (hv : s.fd v ≠ none) : s.held v = none ↔ s.fd v = some (-1) := by
  obtain ⟨fd, hfd⟩ := Option.ne_none_iff_exists'.mp hv
  simp [held, hfd, descriptor]

theorem held_setFd (s : FileGuards ι) (v : ι) (x : Option Int) :
    (s.setFd v x).held = Function.update s.held v (x.bind descriptor) :=
  Function.comp_update (fun y : Option Int => y.bind descriptor) s.fd v x

theorem held_take (s : FileGuards ι) (v other : ι) :
    (s.take v other).held =
      Function.update (Function.update s.held v (s.held other)) other none := by
  rw [take, held_setFd, held_setFd]
  rfl

/-- A guard that is moved onto itself loses what it held. -/
theorem held_take_self (s : FileGuards ι) (v : ι) :
    (s.take v v).held = Function.update s.held v none := by
  rw [held_take, Function.update_idem]

theorem ownership_destroy (ha : s.fd v ≠ none) :
    s.ownership.step (.release v) = (s.step (.destroy v)).ownership := by
  obtain ⟨fd, hv⟩ := Option.ne_none_iff_exists'.mp ha
  have hheld : s.held v = descriptor fd := by rw [held, hv, Option.bind_some]
  by_cases hfd : fd = -1
  · have hstep : s.step (.destroy v) = s.setFd v none := by simp [step, hv, hfd]
    rw [descriptor, if_pos hfd] at hheld
    simp only [hstep, Ownership.step, ownership, held_setFd, hheld, Option.toList_none,
      List.append_nil, Option.bind_none]
    rfl
  · have hstep : s.step (.destroy v) = (s.close fd).setFd v none := by simp [step, hv, hfd]
    rw [descriptor, if_neg hfd] at hheld
    simp only [hstep, Ownership.step, ownership, held_setFd, hheld, Option.toList_some,
      Option.bind_none]
    rfl

/-- **Every operation on guards is one on owners.** -/
theorem expands : Machine.Expands (machine ι) (Ownership.machine ι Int) owns ownership := by
  refine ⟨rfl, ?_, ?_⟩
  · intro s a ha
    cases a with
    | construct v fd =>
        by_cases hfd : fd = -1
        · simp [owns, hfd]
        · simp only [owns, if_neg hfd]
          exact ⟨(ha.2.resolve_left hfd).2, trivial⟩
    | moveConstruct v other =>
        refine ⟨?_, trivial⟩
        rintro rfl
        exact ha.2 ha.1
    | moveAssign v other =>
        by_cases hne : v = other
        · simp only [owns, if_pos hne]
          exact ⟨trivial, trivial⟩
        · simp only [owns, if_neg hne]
          exact ⟨hne, trivial⟩
    | destroy v => exact ⟨trivial, trivial⟩
  · intro s a ha
    cases a with
    | construct v fd =>
        by_cases hfd : fd = -1
        · simp [owns, machine, step, hfd]
        · have hheld := held_setFd s v (some fd)
          simp only [Option.bind_some, descriptor, if_neg hfd] at hheld
          simp only [owns, if_neg hfd, machine, step]
          exact congrArg (Ownership.mk · _ _ _) hheld.symm
    | moveConstruct v other => exact congrArg (Ownership.mk · _ _ _) (held_take s v other).symm
    | moveAssign v other =>
        by_cases hne : v = other
        · subst hne
          simp only [owns, if_true]
          exact congrArg (Ownership.mk · _ _ _) (held_take_self s v).symm
        · simp only [owns, if_neg hne]
          exact congrArg (Ownership.mk · _ _ _) (held_take s v other).symm
    | destroy v => exact ownership_destroy ha

/-- An operation leaves nothing without a guard exactly where it does not assign to a guard
that holds something. -/
theorem assignsEmpty_iff (ha : (machine ι).enabled s a) :
    AssignsEmpty s a ↔
      ((Ownership.machine ι Int).restrict Ownership.Tight).Legal s.ownership (owns a) := by
  have hlegal := expands.legal ha
  cases a with
  | construct v fd =>
      refine iff_of_true trivial ?_
      by_cases hfd : fd = -1
      · simp [owns, hfd]
      · simp only [owns, if_neg hfd] at hlegal ⊢
        have hheld : s.held v = none := by rw [held, ha.1, Option.bind_none]
        exact ⟨⟨hlegal.1, hheld⟩, trivial⟩
  | moveConstruct v other =>
      have hheld : s.held v = none := by rw [held, ha.1, Option.bind_none]
      exact iff_of_true trivial ⟨⟨hlegal.1, hheld⟩, trivial⟩
  | moveAssign v other =>
      rw [AssignsEmpty, ← held_eq_none ha.1]
      by_cases hne : v = other
      · simp only [owns, if_pos hne]
        exact ⟨fun hheld => ⟨⟨trivial, hheld⟩, trivial⟩, fun hleg => hleg.1.2⟩
      · simp only [owns, if_neg hne]
        exact ⟨fun hheld => ⟨⟨hne, hheld⟩, trivial⟩, fun hleg => hleg.1.2⟩
  | destroy v => exact iff_of_true trivial ⟨⟨trivial, trivial⟩, trivial⟩

/-! ### Every descriptor is closed once -/

omit [DecidableEq ι] in
theorem closesOnce_iff (h : Ownership.Owned s.ownership) :
    ClosesOnce s ↔ Ownership.Kept s.ownership := by
  constructor
  · intro hs fd hfd
    exact (hs.held fd hfd).imp fun v hv => held_eq_some.mpr hv
  · intro hkept
    refine ⟨?_, ?_, ?_, ?_⟩
    · intro v w fd hv hw
      exact h.unique v w fd (held_eq_some.mpr hv) (held_eq_some.mpr hw)
    · intro fd
      have hbalance : s.opened.count fd = s.closed.count fd + s.table.count fd := h.balance fd
      omega
    · intro fd hfd
      exact (hkept fd hfd).imp fun v hv => held_eq_some.mp hv
    · intro hnone
      exact (h.kept_iff_released fun v => by simp [ownership, held, hnone v]).mp hkept

/--
**Every descriptor is closed once exactly where no guard that holds one is assigned to.**
After a run of any operations on any guards, no two hold the same descriptor, none was
closed twice and every open one is held, so that all are closed when no guard is left: if and
only if each move assignment of the run was onto a guard without a descriptor.
-/
theorem guards_close_once (tr : List (Action ι)) (hl : (machine ι).Legal (machine ι).init tr) :
    ClosesOnce ((machine ι).after (machine ι).init tr) ↔
      ((machine ι).restrict AssignsEmpty).Legal (machine ι).init tr := by
  obtain ⟨hlegal, hafter⟩ := expands.run hl
  rw [expands.restrict_iff assignsEmpty_iff hl, ← Ownership.kept_iff hlegal, hafter]
  exact closesOnce_iff (Ownership.reachable_owned (expands.reachable (Machine.reachable_after hl)))

/-- A file that goes from guard to guard and back, and another one under its number. -/
theorem guards_close_once_back :
    ClosesOnce ((machine (Fin 2)).after (machine (Fin 2)).init
      [.construct 0 3, .moveConstruct 1 0, .moveAssign 0 1, .destroy 1, .construct 1 (-1),
        .destroy 0, .construct 0 3, .destroy 0]) :=
  (guards_close_once _ (by decide +kernel)).mpr (by decide +kernel)

/-- The file of a guard that is assigned to is not closed. -/
theorem guard_leaks : ¬ ∀ tr, (machine (Fin 2)).Legal (machine (Fin 2)).init tr →
    ClosesOnce ((machine (Fin 2)).after (machine (Fin 2)).init tr) := by
  intro hall
  have hclosed := (hall [.construct 0 3, .construct 1 4, .moveAssign 0 1, .destroy 0, .destroy 1]
    (by decide +kernel)).settled (by decide +kernel) 3
  revert hclosed
  decide +kernel

end FileGuards

end LinuxSystems
