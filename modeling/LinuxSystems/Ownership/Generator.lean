/-
The generators of `Chapter 10/coroutine_socket.cpp`.

A call of a coroutine makes a frame, which is suspended at once, and a `Generator` that
holds the handle of it.  The coroutine suspends at its end too, so its frame goes away only
when somebody destroys it.  The destructor does, and so does the move assignment with the
frame that the generator held before; a generator that was moved from holds nothing, and
one that is assigned to itself is left alone.

So nothing is ever lost, and each frame is destroyed by the one generator that holds it.
-/
import LinuxSystems.Machine.Ownership
import LinuxSystems.Machine.Simulation

namespace LinuxSystems

/-- The generators, and the frames of their coroutines. -/
structure Generators (ι H : Type*) where
  /-- The member `c_routine` of a generator, where there is one. -/
  cRoutine : ι → Option (Option H)
  /-- The frames that exist. -/
  frames : List H
  /-- The frames that were made, in order. -/
  created : List H
  /-- What `destroy` was called on. -/
  destroyed : List H

namespace Generators

variable {ι H : Type*} [DecidableEq ι] [DecidableEq H]

inductive Action (ι H : Type*) where
  /-- A coroutine is called, with its frame at `h`. -/
  | create (v : ι) (h : H)
  | moveConstruct (v other : ι)
  | moveAssign (v other : ι)
  | destruct (v : ι)

def enabled (s : Generators ι H) : Action ι H → Prop
  | .create v h => s.cRoutine v = none ∧ h ∉ s.frames
  | .moveConstruct v other => s.cRoutine v = none ∧ s.cRoutine other ≠ none
  | .moveAssign v other => s.cRoutine v ≠ none ∧ s.cRoutine other ≠ none
  | .destruct v => s.cRoutine v ≠ none

instance (s : Generators ι H) : ∀ a, Decidable (s.enabled a)
  | .create _ _ | .moveConstruct _ _ | .moveAssign _ _ => inferInstanceAs (Decidable (_ ∧ _))
  | .destruct _ => inferInstanceAs (Decidable (_ ≠ _))

/-- The generator `v` gets a handle, or comes to its end. -/
def setRoutine (s : Generators ι H) (v : ι) (x : Option (Option H)) : Generators ι H :=
  { s with cRoutine := Function.update s.cRoutine v x }

/-- `c_routine.destroy()`, if the generator has a handle. -/
def destroy (s : Generators ι H) (v : ι) : Generators ι H :=
  match s.cRoutine v with
  | some (some h) => { s with frames := s.frames.erase h, destroyed := s.destroyed ++ [h] }
  | some none | none => s

/-- The handle of `other`, and then `other.c_routine = {}`. -/
def take (s : Generators ι H) (v other : ι) : Generators ι H :=
  (s.setRoutine v (s.cRoutine other)).setRoutine other (some none)

def step (s : Generators ι H) : Action ι H → Generators ι H
  | .create v h =>
      { s.setRoutine v (some (some h)) with frames := h :: s.frames, created := s.created ++ [h] }
  | .moveConstruct v other => s.take v other
  | .moveAssign v other => if v = other then s else (s.destroy v).take v other
  | .destruct v => (s.destroy v).setRoutine v none

/-- No generator and no frame. -/
def machine (ι H : Type*) [DecidableEq ι] [DecidableEq H] :
    Machine (Generators ι H) (Action ι H) where
  init := ⟨fun _ => none, [], [], []⟩
  enabled := enabled
  next := step

instance (s : Generators ι H) (a : Action ι H) : Decidable ((machine ι H).enabled s a) :=
  inferInstanceAs (Decidable (s.enabled a))

/-! ### What is wanted of the generators -/

/-- Every frame is owned by one generator. -/
structure OwnsFrames (s : Generators ι H) : Prop where
  distinct : ∀ v w h, s.cRoutine v = some (some h) → s.cRoutine w = some (some h) → v = w
  existing : ∀ v h, s.cRoutine v = some (some h) → h ∈ s.frames
  held : ∀ h ∈ s.frames, ∃ v, s.cRoutine v = some (some h)
  /-- A frame exists exactly where it was made once more than it was destroyed. -/
  count : ∀ h, s.created.count h = s.destroyed.count h + if h ∈ s.frames then 1 else 0
  settled : (∀ v, s.cRoutine v = none) → ∀ h, s.destroyed.count h = s.created.count h

/-! ### The generators as owners -/

def held (s : Generators ι H) (v : ι) : Option H := (s.cRoutine v).join

/-- Who owns which frame. -/
def ownership (s : Generators ι H) : Ownership ι H :=
  ⟨s.held, s.frames, s.created, s.destroyed⟩

/-- What an operation does with the frames. -/
def owns : Action ι H → List (Ownership.Action ι H)
  | .create v h => [.acquire v h]
  | .moveConstruct v other => [.move v other]
  | .moveAssign v other => if v = other then [] else [.release v, .move v other]
  | .destruct v => [.release v]

variable {s : Generators ι H} {a : Action ι H} {v other : ι} {h : H}

omit [DecidableEq ι] [DecidableEq H] in
theorem held_eq_some : s.held v = some h ↔ s.cRoutine v = some (some h) := Option.join_eq_some_iff

omit [DecidableEq ι] [DecidableEq H] in
/-- Where there is no generator, nothing is held. -/
theorem held_of_gone (hv : s.cRoutine v = none) : s.held v = none := by
  rw [held, hv]
  rfl

omit [DecidableEq H] in
theorem held_setRoutine (s : Generators ι H) (v : ι) (x : Option (Option H)) :
    (s.setRoutine v x).held = Function.update s.held v x.join :=
  Function.comp_update Option.join s.cRoutine v x

omit [DecidableEq H] in
theorem held_take (s : Generators ι H) (v other : ι) :
    (s.take v other).held =
      Function.update (Function.update s.held v (s.held other)) other none := by
  rw [take, held_setRoutine, held_setRoutine]
  rfl

omit [DecidableEq ι] in
theorem destroy_eq (s : Generators ι H) (v : ι) : s.destroy v =
    { s with
      frames := match s.held v with
        | some h => s.frames.erase h
        | none => s.frames
      destroyed := s.destroyed ++ (s.held v).toList } := by
  unfold destroy held
  cases hv : s.cRoutine v with
  | none => simp
  | some x =>
      cases x with
      | none => simp
      | some h => simp

/-- The destructor releases what the generator holds. -/
theorem ownership_destruct (s : Generators ι H) (v : ι) :
    s.ownership.step (.release v) = ((s.destroy v).setRoutine v none).ownership := by
  have hheld := held_setRoutine (s.destroy v) v none
  rw [destroy_eq] at hheld ⊢
  exact congrArg (Ownership.mk · _ _ _) hheld.symm

/-- So does the move assignment, and then takes what the other one holds. -/
theorem ownership_moveAssign (s : Generators ι H) (hne : v ≠ other) :
    (s.ownership.step (.release v)).step (.move v other) =
      ((s.destroy v).take v other).ownership := by
  have hheld := held_take (s.destroy v) v other
  rw [destroy_eq] at hheld ⊢
  refine Eq.trans ?_ (congrArg (Ownership.mk · _ _ _) hheld.symm)
  refine congrArg (Ownership.mk · _ _ _) ?_
  -- the handle of `v` is gone before that of `other` comes
  show Function.update (Function.update (Function.update s.held v none) v
    (Function.update s.held v none other)) other none = _
  rw [Function.update_idem, Function.update_of_ne (Ne.symm hne)]
  rfl

/-- **Every operation on generators is one on owners, or two.** -/
theorem expands : Machine.Expands (machine ι H) (Ownership.machine ι H) owns ownership := by
  refine ⟨rfl, ?_, ?_⟩
  · intro s a ha
    cases a with
    | create v h => exact ⟨ha.2, trivial⟩
    | moveConstruct v other =>
        refine ⟨?_, trivial⟩
        rintro rfl
        exact ha.2 ha.1
    | moveAssign v other =>
        by_cases hne : v = other
        · simp [owns, hne]
        · simp only [owns, if_neg hne]
          exact ⟨trivial, hne, trivial⟩
    | destruct v => exact ⟨trivial, trivial⟩
  · intro s a ha
    cases a with
    | create v h =>
        exact congrArg (Ownership.mk · _ _ _) (held_setRoutine s v (some (some h))).symm
    | moveConstruct v other => exact congrArg (Ownership.mk · _ _ _) (held_take s v other).symm
    | moveAssign v other =>
        by_cases hne : v = other
        · simp [owns, machine, step, hne]
        · simp only [owns, if_neg hne, machine, step]
          exact ownership_moveAssign s hne
    | destruct v => exact ownership_destruct s v

/-- No operation makes a generator lose its frame. -/
theorem owns_tight (ha : (machine ι H).enabled s a) :
    ((Ownership.machine ι H).restrict Ownership.Tight).Legal s.ownership (owns a) := by
  have hlegal := expands.legal ha
  cases a with
  | create v h => exact ⟨⟨hlegal.1, held_of_gone ha.1⟩, trivial⟩
  | moveConstruct v other => exact ⟨⟨hlegal.1, held_of_gone ha.1⟩, trivial⟩
  | destruct v => exact ⟨⟨trivial, trivial⟩, trivial⟩
  | moveAssign v other =>
      by_cases hne : v = other
      · simp [owns, hne]
      · simp only [owns, if_neg hne]
        -- what the generator held was released before
        have hnone : (s.ownership.step (.release v)).held v = none := Function.update_self ..
        exact ⟨⟨trivial, trivial⟩, ⟨hne, hnone⟩, trivial⟩

/-! ### Every frame is destroyed once -/

theorem reachable_kept (hr : (machine ι H).Reachable s) : Ownership.Kept s.ownership := by
  have htight : Machine.Expands (machine ι H) ((Ownership.machine ι H).restrict Ownership.Tight)
      owns ownership := ⟨rfl, owns_tight, expands.after⟩
  exact Ownership.reachable_kept (htight.reachable hr)

/--
**Every frame is owned by one generator.**  After a run of any operations on any
generators, two that hold a frame hold different ones, what they hold exists, and every frame
that exists is held; so each is destroyed as often as it was made when no generator is left.
-/
theorem generators_own_frames (tr : List (Action ι H))
    (hl : (machine ι H).Legal (machine ι H).init tr) :
    OwnsFrames ((machine ι H).after (machine ι H).init tr) := by
  have hr := Machine.reachable_after hl
  have howned := Ownership.reachable_owned (expands.reachable hr)
  have hkept := reachable_kept hr
  refine ⟨?_, ?_, ?_, ?_, ?_⟩
  · intro v w h hv hw
    exact howned.unique v w h (held_eq_some.mpr hv) (held_eq_some.mpr hw)
  · intro v h hv
    exact howned.live v h (held_eq_some.mpr hv)
  · intro h hh
    exact (hkept h hh).imp fun v hv => held_eq_some.mp hv
  · intro h
    have hbalance := howned.balance h
    rw [howned.nodup.count] at hbalance
    exact hbalance
  · intro hnone
    exact (howned.kept_iff_released fun v => held_of_gone (hnone v)).mp hkept

/-- A generator goes round, over itself and over another one. -/
theorem generators_own_frames_round :
    OwnsFrames ((machine (Fin 3) Nat).after (machine (Fin 3) Nat).init
      [.create 0 7, .create 1 8, .moveConstruct 2 0, .moveAssign 2 2, .moveAssign 1 2,
        .moveAssign 0 1, .destruct 1, .destruct 2, .create 1 8, .destruct 0, .destruct 1]) :=
  generators_own_frames _ (by decide +kernel)

end Generators

end LinuxSystems
