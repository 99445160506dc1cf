/-
Calling the generators of `Chapter 10/coroutine_socket.cpp`.

The body of a coroutine yields some values and returns.  It is suspended at its start, at
every yield, and at its end.  A call of a `Generator` resumes the coroutine that it holds,
and returns the value that it stopped at, or nothing if it stopped at its end.

The call does not look where the coroutine is before it resumes it, nor whether there is
one.  To resume a coroutine at its end is undefined, and so is to resume no coroutine at
all: with the moves, which leave a generator without one, either can happen.
-/
import LinuxSystems.Ownership.Generator
import LinuxSystems.Machine.Names

namespace LinuxSystems

namespace Enumeration

/-- Where a coroutine is suspended. -/
inductive Point where
  | initial
  | yielded
  | final
  deriving DecidableEq

/-- A coroutine and its promise. -/
structure Coroutine (T : Type*) where
  /-- What the body yields before it returns. -/
  values : List T
  point : Point
  /-- How many values it has yielded. -/
  count : Nat
  currValue : Option T

/-- What a call of a generator comes to. -/
inductive Answer (T : Type*) where
  | returned (value : Option T)
  | undefined
  deriving DecidableEq

namespace Coroutine

variable {T : Type*}

/-- Suspended at the start. -/
def start (values : List T) : Coroutine T := ⟨values, .initial, 0, none⟩

def done (c : Coroutine T) : Bool := c.point == .final

/-- The body goes on to its next yield, or to its end. -/
def resume (c : Coroutine T) : Coroutine T :=
  match c.values[c.count]? with
  | some v => { c with point := .yielded, count := c.count + 1, currValue := some v }
  | none => { c with point := .final }

/-- What `operator()` returns after it has resumed the coroutine. -/
def answer (c : Coroutine T) : Answer T :=
  if c.done then .returned none
  else match c.currValue with
    | some v => .returned (some v)
    | none => .undefined

end Coroutine

end Enumeration

open Enumeration

/-- Generators, and what their coroutines are doing. -/
structure Enumeration (ι H T : Type*) where
  generators : Generators ι H
  coroutine : H → Coroutine T
  /-- The answers of the calls that were made on the frame. -/
  answers : H → List (Answer T)
  /-- The answers of the calls of generators that hold no frame. -/
  emptyAnswers : List (Answer T)

namespace Enumeration

variable {ι H T : Type*} [DecidableEq ι] [DecidableEq H]

inductive Action (ι H T : Type*) where
  /-- A coroutine that yields `values` is called, with its frame at `h`. -/
  | create (v : ι) (h : H) (values : List T)
  | moveConstruct (v other : ι)
  | moveAssign (v other : ι)
  | destruct (v : ι)
  /-- `operator()` of `v`. -/
  | call (v : ι)

/-- What the generators see of an operation. -/
def Action.toGenerator : Action ι H T → Option (Generators.Action ι H)
  | .create v h _ => some (.create v h)
  | .moveConstruct v other => some (.moveConstruct v other)
  | .moveAssign v other => some (.moveAssign v other)
  | .destruct v => some (.destruct v)
  | .call _ => none

def enabled (s : Enumeration ι H T) : Action ι H T → Prop
  | .create v h _ => s.generators.enabled (.create v h)
  | .moveConstruct v other => s.generators.enabled (.moveConstruct v other)
  | .moveAssign v other => s.generators.enabled (.moveAssign v other)
  | .destruct v => s.generators.enabled (.destruct v)
  | .call v => s.generators.cRoutine v ≠ none

instance (s : Enumeration ι H T) : ∀ a, Decidable (s.enabled a)
  | .create v h _ => inferInstanceAs (Decidable (s.generators.enabled (.create v h)))
  | .moveConstruct v other => inferInstanceAs (Decidable (s.generators.enabled (.moveConstruct v other)))
  | .moveAssign v other => inferInstanceAs (Decidable (s.generators.enabled (.moveAssign v other)))
  | .destruct v => inferInstanceAs (Decidable (s.generators.enabled (.destruct v)))
  | .call _ => inferInstanceAs (Decidable (_ ≠ _))

/-- `c_routine.resume()` and the return, with the frame at `h`: defined where the frame exists and
the coroutine is not at its end. -/
def callFrame (s : Enumeration ι H T) (h : H) : Enumeration ι H T :=
  if h ∈ s.generators.frames ∧ (s.coroutine h).done = false then
    { s with
      coroutine := Function.update s.coroutine h (s.coroutine h).resume
      answers := Function.update s.answers h (s.answers h ++ [(s.coroutine h).resume.answer]) }
  else { s with answers := Function.update s.answers h (s.answers h ++ [.undefined]) }

/-- `operator()`. -/
def call (s : Enumeration ι H T) (v : ι) : Enumeration ι H T :=
  match s.generators.cRoutine v with
  | some (some h) => s.callFrame h
  | some none => { s with emptyAnswers := s.emptyAnswers ++ [.undefined] }
  | none => s

def step (s : Enumeration ι H T) : Action ι H T → Enumeration ι H T
  | .create v h values =>
      { s with
        generators := s.generators.step (.create v h)
        coroutine := Function.update s.coroutine h (.start values)
        answers := Function.update s.answers h [] }
  | .moveConstruct v other =>
      { s with generators := s.generators.step (.moveConstruct v other) }
  | .moveAssign v other => { s with generators := s.generators.step (.moveAssign v other) }
  | .destruct v => { s with generators := s.generators.step (.destruct v) }
  | .call v => s.call v

/-- No generator and no frame. -/
def machine (ι H T : Type*) [DecidableEq ι] [DecidableEq H] :
    Machine (Enumeration ι H T) (Action ι H T) where
  init := ⟨(Generators.machine ι H).init, fun _ => .start [], fun _ => [], []⟩
  enabled := enabled
  next := step

instance (s : Enumeration ι H T) (a : Action ι H T) : Decidable ((machine ι H T).enabled s a) :=
  inferInstanceAs (Decidable (s.enabled a))

/-! ### What is wanted of the calls -/

/-- The answers are the values in order, and nothing after the last. -/
def Lists (values : List T) (answers : List (Answer T)) : Prop :=
  ∀ k, k < answers.length → answers[k]? = some (.returned values[k]?)

/-- The calls on a frame list the values of its coroutine, and those of a generator without one
return nothing. -/
structure Enumerates (s : Enumeration ι H T) : Prop where
  answers : ∀ h, Lists (s.coroutine h).values (s.answers h)
  emptyAnswers : ∀ x ∈ s.emptyAnswers, x = .returned none

/-- A generator that is called holds a coroutine that is not at its end. -/
def Callable (s : Enumeration ι H T) : Action ι H T → Prop
  | .call v => ∃ h ∈ (s.generators.cRoutine v).join, (s.coroutine h).done = false
  | .create _ _ _ | .moveConstruct _ _ | .moveAssign _ _ | .destruct _ => True

instance (s : Enumeration ι H T) : ∀ a, Decidable (Callable s a)
  | .call v => inferInstanceAs (Decidable (∃ h ∈ (s.generators.cRoutine v).join, _))
  | .create _ _ _ | .moveConstruct _ _ | .moveAssign _ _ | .destruct _ => isTrue trivial

variable {s : Enumeration ι H T} {a : Action ι H T} {v : ι} {h : H}

/-! ### The generators behind -/

/-- The calls leave the generators as they are. -/
theorem simulates : Machine.Simulates (machine ι H T) (Generators.machine ι H) Action.toGenerator
    fun s t => s.generators = t := by
  refine ⟨rfl, ?_, ?_⟩
  · intro s t a b hab hst ha
    subst hst
    cases a with
    | call v => exact nomatch hab
    | create v h values | moveConstruct v other | moveAssign v other | destruct v =>
        injection hab with hab
        subst hab
        exact ⟨ha, rfl⟩
  · intro s t a hab hst ha
    subst hst
    cases a with
    | call v =>
        show (s.call v).generators = _
        unfold call
        split
        · unfold callFrame
          split <;> rfl
        · rfl
        · rfl
    | create v h values | moveConstruct v other | moveAssign v other | destruct v =>
        exact nomatch hab

/-- A frame that a generator holds exists. -/
theorem frame_exists (hr : (machine ι H T).Reachable s)
    (hv : s.generators.cRoutine v = some (some h)) : h ∈ s.generators.frames := by
  have howned := Ownership.reachable_owned (Generators.expands.reachable (simulates.component hr))
  exact howned.live v h (Generators.held_eq_some.mpr hv)

/-! ### Resuming a coroutine -/

omit [DecidableEq ι] [DecidableEq H] in
@[simp] theorem Coroutine.resume_values (c : Coroutine T) : c.resume.values = c.values := by
  unfold resume
  split <;> rfl

omit [DecidableEq ι] [DecidableEq H] in
/-- What a resumed coroutine answers is the next value, or nothing after the last. -/
theorem Coroutine.resume_answer (c : Coroutine T) :
    c.resume.answer = .returned c.values[c.count]? := by
  unfold resume answer
  cases c.values[c.count]? with
  | none => rfl
  | some v => rfl

omit [DecidableEq ι] [DecidableEq H] in
theorem Coroutine.resume_count {c : Coroutine T} (hdone : c.resume.done = false) :
    c.resume.count = c.count + 1 := by
  unfold resume at hdone ⊢
  cases hv : c.values[c.count]? with
  | none =>
      rw [hv] at hdone
      exact Bool.noConfusion hdone
  | some v => rfl

/-! ### What a call finds -/

/-- A coroutine that is not at its end has been called once for each value it has yielded. -/
def Counted (s : Enumeration ι H T) : Prop :=
  ∀ h, (s.coroutine h).done = false → (s.answers h).length = (s.coroutine h).count

/-- A call of a generator with a frame. -/
theorem call_eq (hr : (machine ι H T).Reachable s)
    (hv : s.generators.cRoutine v = some (some h)) :
    s.call v = if (s.coroutine h).done = false then
      { s with
        coroutine := Function.update s.coroutine h (s.coroutine h).resume
        answers := Function.update s.answers h (s.answers h ++ [(s.coroutine h).resume.answer]) }
      else { s with answers := Function.update s.answers h (s.answers h ++ [.undefined]) } := by
  unfold call callFrame
  rw [hv]
  simp only [frame_exists hr hv, true_and]

theorem Counted.step (h : Counted s) (hr : (machine ι H T).Reachable s) (ha : s.enabled a) :
    Counted (s.step a) := by
  cases a with
  | create v h' values =>
      intro g hdone
      by_cases hg : g = h'
      · subst hg
        simp [Enumeration.step, Coroutine.start]
      · simp only [Enumeration.step, Function.update_of_ne hg] at hdone ⊢
        exact h g hdone
  | moveConstruct v other | moveAssign v other | destruct v => exact h
  | call v =>
      show Counted (s.call v)
      cases hv : s.generators.cRoutine v with
      | none => exact absurd hv ha
      | some x =>
          cases x with
          | none =>
              unfold call
              rw [hv]
              exact h
          | some h' =>
              rw [call_eq hr hv]
              split
              case isTrue hrun =>
                intro g hdone
                by_cases hg : g = h'
                · subst hg
                  simp only [Function.update_self] at hdone ⊢
                  rw [List.length_append, Coroutine.resume_count hdone, h g hrun]
                  rfl
                · simp only [Function.update_of_ne hg] at hdone ⊢
                  exact h g hdone
              case isFalse hend =>
                intro g hdone
                have hg : g ≠ h' := by
                  intro hg
                  subst hg
                  exact hend hdone
                simp only [Function.update_of_ne hg]
                exact h g hdone

theorem counted (hr : (machine ι H T).Reachable s) : Counted s := by
  refine hr.invariant (P := Counted) (fun _ _ => rfl) ?_
  exact fun s a hr hs ha => hs.step hr ha

/-! ### The calls of a run -/

omit [DecidableEq ι] [DecidableEq H] in
theorem lists_snoc {values : List T} {l : List (Answer T)} {x : Answer T} :
    Lists values (l ++ [x]) ↔ Lists values l ∧ x = .returned values[l.length]? := by
  constructor
  · intro hl
    refine ⟨fun k hk => ?_, ?_⟩
    · have hk' := hl k (by simp; omega)
      rwa [List.getElem?_append_left hk] at hk'
    · have hlast := hl l.length (by simp)
      rw [List.getElem?_concat_length] at hlast
      exact Option.some.inj hlast
  · intro ⟨hl, hx⟩ k hk
    by_cases hlt : k < l.length
    · rw [List.getElem?_append_left hlt]
      exact hl k hlt
    · obtain rfl : k = l.length := by
        rw [List.length_append, List.length_singleton] at hk
        omega
      rw [List.getElem?_concat_length, hx]

omit [DecidableEq ι] in
/-- One more answer of the frame `h`, whose coroutine keeps its values. -/
theorem enumerates_answer (henum : Enumerates s) {c : H → Coroutine T}
    (hc : ∀ g, (c g).values = (s.coroutine g).values) (x : Answer T) :
    Enumerates { s with
      coroutine := c
      answers := Function.update s.answers h (s.answers h ++ [x]) } ↔
      x = .returned (s.coroutine h).values[(s.answers h).length]? := by
  constructor
  · intro hnext
    have hlast := hnext.answers h
    simp only [Function.update_self, hc] at hlast
    exact (lists_snoc.mp hlast).2
  · intro hx
    refine ⟨fun g => ?_, henum.emptyAnswers⟩
    show Lists (c g).values (Function.update s.answers h _ g)
    rw [hc]
    by_cases hg : g = h
    · subst hg
      rw [Function.update_self]
      exact lists_snoc.mpr ⟨henum.answers g, hx⟩
    · rw [Function.update_of_ne hg]
      exact henum.answers g

/-- **A call does what is wanted exactly where there is a coroutine to go on.** -/
theorem enumerates_call (hr : (machine ι H T).Reachable s) (ha : s.generators.cRoutine v ≠ none)
    (henum : Enumerates s) : Enumerates (s.call v) ↔ Callable s (.call v) := by
  cases hv : s.generators.cRoutine v with
  | none => exact absurd hv ha
  | some x =>
      cases x with
      | none =>
          have hnot : ¬ Callable s (.call v) := by
            intro ⟨h, hh, _⟩
            rw [hv] at hh
            exact nomatch hh
          refine ⟨fun hnext => ?_, fun hcall => absurd hcall hnot⟩
          unfold call at hnext
          rw [hv] at hnext
          exact nomatch hnext.emptyAnswers .undefined (by simp)
      | some h =>
          have hcallable : Callable s (.call v) ↔ (s.coroutine h).done = false := by
            show (∃ g ∈ (s.generators.cRoutine v).join, (s.coroutine g).done = false) ↔ _
            rw [hv]
            exact ⟨fun ⟨g, hg, hdone⟩ => Option.some.inj hg ▸ hdone, fun hdone => ⟨h, rfl, hdone⟩⟩
          rw [call_eq hr hv, hcallable]
          split
          case isTrue hrun =>
            refine iff_of_true ((enumerates_answer henum ?_ _).mpr ?_) hrun
            · intro g
              by_cases hg : g = h
              · rw [hg, Function.update_self, Coroutine.resume_values]
              · rw [Function.update_of_ne hg]
            · rw [Coroutine.resume_answer, counted hr h hrun]
          case isFalse hend =>
            refine iff_of_false (fun hnext => ?_) hend
            exact nomatch (enumerates_answer henum (fun _ => rfl) _).mp hnext

theorem enumerates_step (hr : (machine ι H T).Reachable s) (ha : s.enabled a)
    (henum : Enumerates s) : Enumerates (s.step a) ↔ Callable s a := by
  cases a with
  | call v => exact enumerates_call hr ha henum
  | moveConstruct v other | moveAssign v other | destruct v =>
      exact ⟨fun _ => trivial, fun _ => ⟨henum.answers, henum.emptyAnswers⟩⟩
  | create v h values =>
      refine ⟨fun _ => trivial, fun _ => ⟨fun g => ?_, henum.emptyAnswers⟩⟩
      by_cases hg : g = h
      · subst hg
        simp [Enumeration.step, Lists]
      · simp only [Enumeration.step, Function.update_of_ne hg]
        exact henum.answers g

/--
**When the generators enumerate.**  All along a run of calls, moves, and generators that come and
go, the calls on each frame list what its coroutine yields, exactly when every generator that
is called holds a coroutine that is not at its end: so not one call more than the first that
returns nothing, and none of a generator that was moved from.
-/
theorem generators_enumerate {tr : List (Action ι H T)}
    (hl : (machine ι H T).Legal (machine ι H T).init tr) :
    (∀ pre, pre <+: tr → Enumerates ((machine ι H T).after (machine ι H T).init pre)) ↔
      ((machine ι H T).restrict Callable).Legal (machine ι H T).init tr := by
  refine Machine.always_iff (P := Enumerates) ⟨?_, fun _ hx => absurd hx List.not_mem_nil⟩ ?_ hl
  · exact fun _ _ hk => absurd hk (Nat.not_lt_zero _)
  · exact fun s a hr ha henum => enumerates_step hr ha henum

attribute [local instance] neZeroTwo

/-- A coroutine of two values is called to its end, on the way through two generators. -/
def wholeRun : List (Action (Fin 2) Nat Nat) :=
  [.create 0 7 [3, 4], .call 0, .moveConstruct 1 0, .call 1, .call 1, .destruct 0, .destruct 1]

theorem generators_enumerate_whole :
    Enumerates ((machine (Fin 2) Nat Nat).after (machine (Fin 2) Nat Nat).init wholeRun) :=
  (generators_enumerate (by decide +kernel)).mpr (by decide +kernel) wholeRun List.prefix_rfl

/-- One call more than the values and the end. -/
def overRun : List (Action (Fin 2) Nat Nat) := [.create 0 7 [3], .call 0, .call 0, .call 0]

/-- A call of a generator that was moved from. -/
def movedRun : List (Action (Fin 2) Nat Nat) := [.create 0 7 [3], .moveConstruct 1 0, .call 0]

/-- Either is undefined. -/
theorem generators_overrun :
    ((machine (Fin 2) Nat Nat).Legal (machine (Fin 2) Nat Nat).init overRun ∧
      ((machine (Fin 2) Nat Nat).after (machine (Fin 2) Nat Nat).init overRun).answers 7 =
        [.returned (some 3), .returned none, .undefined] ∧
      ¬ Enumerates ((machine (Fin 2) Nat Nat).after (machine (Fin 2) Nat Nat).init overRun)) ∧
    (machine (Fin 2) Nat Nat).Legal (machine (Fin 2) Nat Nat).init movedRun ∧
      ((machine (Fin 2) Nat Nat).after (machine (Fin 2) Nat Nat).init movedRun).emptyAnswers =
        [.undefined] ∧
      ¬ Enumerates ((machine (Fin 2) Nat Nat).after (machine (Fin 2) Nat Nat).init movedRun) := by
  refine ⟨⟨by decide +kernel, rfl, fun henum => ?_⟩, by decide +kernel, rfl, fun henum => ?_⟩
  · exact absurd (henum.answers 7 2 (by decide +kernel)) (by decide +kernel)
  · exact absurd (henum.emptyAnswers .undefined (by decide +kernel)) (by decide +kernel)

end Enumeration

end LinuxSystems
