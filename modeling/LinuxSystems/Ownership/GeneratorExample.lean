/-
The generator of `Chapter 10/generator_example.cpp`.

A call of a coroutine makes a frame, which is suspended at once, and a `Generator` that
holds the handle of it.  The destructor destroys the frame.  The class says nothing about
copies, so the compiler provides them, and there are no moves: to initialise a `Generator` from
another one, or to assign to it, copies the handle and does nothing else.

Two that hold the same handle both destroy its frame, and what one held before it is assigned
to nobody destroys.  `next()` looks at nothing before it resumes: a frame that went with another
`Generator` is resumed as well.
-/
import LinuxSystems.Machine.Sharing

namespace LinuxSystems

namespace GeneratorExample

/-- A coroutine and its promise. -/
structure Frame where
  /-- What the body yields, without end: a promise without `return_void` allows nothing else. -/
  yields : Nat → UInt32
  /-- How many values it has yielded. -/
  count : Nat
  /-- Not set before the first yield. -/
  currValue : Option UInt32

/-- Suspended at the start. -/
def Frame.start (yields : Nat → UInt32) : Frame := ⟨yields, 0, none⟩

/-- The body goes on to its next yield. -/
def Frame.resume (f : Frame) : Frame :=
  { f with count := f.count + 1, currValue := some (f.yields f.count) }

/-- The body of `exCoroutine`. -/
def exCoroutine (idx : Nat) : UInt32 := UInt32.ofNat idx

end GeneratorExample

open GeneratorExample

/-- The generators, and the frames of their coroutines. -/
structure GeneratorExample (ι H : Type*) where
  /-- The member `crtHndl` of a generator, where there is one. -/
  crtHndl : ι → Option (Option H)
  /-- The frames that exist. -/
  frames : List H
  /-- What is in a frame, while it exists. -/
  frame : H → Frame
  /-- The frames that were made, in order. -/
  created : List H
  /-- What `destroy` was called on. -/
  destroyed : List H
  /-- What the calls of `next` returned: nothing where the frame they resumed was destroyed. -/
  returned : List (Option Int32)

namespace GeneratorExample

variable {ι H : Type*} [DecidableEq ι] [DecidableEq H]

inductive Action (ι H : Type*) where
  /-- A coroutine that yields `yields` is called, with its frame at `h`. -/
  | create (v : ι) (h : H) (yields : Nat → UInt32)
  | copyConstruct (v other : ι)
  | copyAssign (v other : ι)
  | next (v : ι)
  | destruct (v : ι)

def enabled (s : GeneratorExample ι H) : Action ι H → Prop
  | .create v h _ => s.crtHndl v = none ∧ h ∉ s.frames
  | .copyConstruct v other => s.crtHndl v = none ∧ s.crtHndl other ≠ none
  | .copyAssign v other => s.crtHndl v ≠ none ∧ s.crtHndl other ≠ none
  | .next v | .destruct v => s.crtHndl v ≠ none

instance (s : GeneratorExample ι H) : ∀ a, Decidable (s.enabled a)
  | .create _ _ _ | .copyConstruct _ _ | .copyAssign _ _ => inferInstanceAs (Decidable (_ ∧ _))
  | .next _ | .destruct _ => inferInstanceAs (Decidable (_ ≠ _))

/-- The generator `v` gets a handle, or comes to its end. -/
def setHndl (s : GeneratorExample ι H) (v : ι) (x : Option (Option H)) : GeneratorExample ι H :=
  { s with crtHndl := Function.update s.crtHndl v x }

/-- `crtHndl.resume()` and the return, with the frame at `h`: defined where the frame exists. -/
def resume (s : GeneratorExample ι H) (h : H) : GeneratorExample ι H :=
  if h ∈ s.frames then
    { s with
      frame := Function.update s.frame h (s.frame h).resume
      returned := s.returned ++ [(s.frame h).resume.currValue.map UInt32.toInt32] }
  else { s with returned := s.returned ++ [none] }

def next (s : GeneratorExample ι H) (v : ι) : GeneratorExample ι H :=
  match s.crtHndl v with
  | some (some h) => s.resume h
  | some none => { s with returned := s.returned ++ [none] }
  | none => s

/-- `crtHndl.destroy()`, if the generator has a handle. -/
def destroy (s : GeneratorExample ι H) (v : ι) : GeneratorExample ι H :=
  match s.crtHndl v with
  | some (some h) => { s with frames := s.frames.erase h, destroyed := s.destroyed ++ [h] }
  | some none | none => s

def step (s : GeneratorExample ι H) : Action ι H → GeneratorExample ι H
  | .create v h yields =>
      { s.setHndl v (some (some h)) with
        frames := h :: s.frames
        frame := Function.update s.frame h (Frame.start yields)
        created := s.created ++ [h] }
  | .copyConstruct v other | .copyAssign v other => s.setHndl v (s.crtHndl other)
  | .next v => s.next v
  | .destruct v => (s.destroy v).setHndl v none

/-- No generator and no frame. -/
def machine (ι H : Type*) [DecidableEq ι] [DecidableEq H] :
    Machine (GeneratorExample ι H) (Action ι H) where
  init := ⟨fun _ => none, [], fun _ => Frame.start exCoroutine, [], [], []⟩
  enabled := enabled
  next := step

instance (s : GeneratorExample ι H) (a : Action ι H) : Decidable ((machine ι H).enabled s a) :=
  inferInstanceAs (Decidable (s.enabled a))

/-! ### What is wanted of the generators -/

/-- Every frame is destroyed once. -/
structure DestroysOnce (s : GeneratorExample ι H) : Prop where
  /-- Nothing is destroyed more often than it was made. -/
  destroyed : ∀ h, s.destroyed.count h ≤ s.created.count h
  /-- No call of `next` resumed a frame that was destroyed. -/
  resumed : none ∉ s.returned
  settled : (∀ v, s.crtHndl v = none) → ∀ h, s.destroyed.count h = s.created.count h

/-- No generator is copied, unless onto itself. -/
def Alone : Action ι H → Prop
  | .copyConstruct _ _ => False
  | .copyAssign v other => v = other
  | .create _ _ _ | .next _ | .destruct _ => True

instance : ∀ a : Action ι H, Decidable (Alone a)
  | .copyConstruct _ _ => isFalse not_false
  | .copyAssign v other => inferInstanceAs (Decidable (v = other))
  | .create _ _ _ | .next _ | .destruct _ => isTrue trivial

/-! ### The generators as owners that share -/

def held (s : GeneratorExample ι H) (v : ι) : Option H := (s.crtHndl v).join

/-- Who owns which frame. -/
def ownership (s : GeneratorExample ι H) : Ownership ι H :=
  ⟨s.held, s.frames, s.created, s.destroyed⟩

/-- What an operation does with the frames. -/
def shares : Action ι H → Option (Sharing.Action ι H)
  | .create v h _ => some (.acquire v h)
  | .copyConstruct v other | .copyAssign v other => some (.copy v other)
  | .next _ => none
  | .destruct v => some (.release v)

/-- Every generator has a handle. -/
def Handled (s : GeneratorExample ι H) : Prop := ∀ v, s.crtHndl v ≠ some none

variable {s : GeneratorExample ι H} {a : Action ι H} {tr : List (Action ι H)} {v other : ι} {h : H}

omit [DecidableEq ι] [DecidableEq H] in
theorem held_eq_some : s.held v = some h ↔ s.crtHndl v = some (some h) := Option.join_eq_some_iff

omit [DecidableEq ι] [DecidableEq H] in
/-- Where there is no generator, nothing is held. -/
theorem held_of_gone (hv : s.crtHndl v = none) : s.held v = none := by
  rw [held, hv]
  rfl

omit [DecidableEq ι] [DecidableEq H] in
theorem Handled.exists_held (hs : Handled s) (hv : s.crtHndl v ≠ none) :
    ∃ h, s.crtHndl v = some (some h) := by
  cases hx : s.crtHndl v with
  | none => exact absurd hx hv
  | some x =>
      cases x with
      | none => exact absurd hx (hs v)
      | some h => exact ⟨h, rfl⟩

omit [DecidableEq ι] [DecidableEq H] in
theorem Handled.held_ne_none (hs : Handled s) (hv : s.crtHndl v ≠ none) : s.held v ≠ none := by
  obtain ⟨h, hh⟩ := hs.exists_held hv
  rw [held_eq_some.mpr hh]
  exact Option.some_ne_none h

omit [DecidableEq H] in
theorem Handled.setHndl (hs : Handled s) {x : Option (Option H)} (hx : x ≠ some none) :
    Handled (s.setHndl v x) := by
  intro u
  show Function.update s.crtHndl v x u ≠ some none
  by_cases huv : u = v
  · subst huv
    rwa [Function.update_self]
  · rw [Function.update_of_ne huv]
    exact hs u

omit [DecidableEq H] in
theorem held_setHndl (s : GeneratorExample ι H) (v : ι) (x : Option (Option H)) :
    (s.setHndl v x).held = Function.update s.held v x.join :=
  Function.comp_update Option.join s.crtHndl v x

omit [DecidableEq ι] in
/-- Calling `next` changes no generator, and not who owns what. -/
theorem next_rest (s : GeneratorExample ι H) (v : ι) :
    ∃ frame returned, s.next v = { s with frame := frame, returned := returned } := by
  unfold next resume
  cases s.crtHndl v with
  | none => exact ⟨s.frame, s.returned, rfl⟩
  | some x =>
      cases x with
      | none => exact ⟨s.frame, _, rfl⟩
      | some h =>
          by_cases hh : h ∈ s.frames
          · simp only [if_pos hh]
            exact ⟨_, _, rfl⟩
          · simp only [if_neg hh]
            exact ⟨s.frame, _, rfl⟩

omit [DecidableEq ι] in
theorem destroy_eq (hv : s.crtHndl v = some (some h)) :
    s.destroy v = { s with frames := s.frames.erase h, destroyed := s.destroyed ++ [h] } := by
  unfold destroy
  rw [hv]

/-- **Every operation on generators but `next` is one on owners that share.** -/
theorem simulates : Machine.Simulates (machine ι H) (Sharing.machine ι H) shares
    fun s t => Handled s ∧ s.ownership = t := by
  refine ⟨⟨fun v => by simp [machine], rfl⟩, ?_, ?_⟩
  · intro s t a b hb hrel ha
    obtain ⟨hs, rfl⟩ := hrel
    have hcopy : ∀ v other, Handled (s.setHndl v (s.crtHndl other)) ∧
        (s.setHndl v (s.crtHndl other)).ownership = Sharing.step s.ownership (.copy v other) := by
      intro v other
      exact ⟨hs.setHndl (hs other), congrArg (Ownership.mk · _ _ _) (held_setHndl s v _)⟩
    cases a with
    | create v h yields =>
        obtain rfl := Option.some.inj hb
        refine ⟨⟨held_of_gone ha.1, ha.2⟩, hs.setHndl (v := v) (by simp), ?_⟩
        exact congrArg (Ownership.mk · _ _ _) (held_setHndl s v (some (some h)))
    | copyConstruct v other =>
        obtain rfl := Option.some.inj hb
        exact ⟨hs.held_ne_none ha.2, hcopy v other⟩
    | copyAssign v other =>
        obtain rfl := Option.some.inj hb
        exact ⟨hs.held_ne_none ha.2, hcopy v other⟩
    | next v => cases hb
    | destruct v =>
        obtain rfl := Option.some.inj hb
        obtain ⟨h, hv⟩ := hs.exists_held ha
        have hheld := held_eq_some.mpr hv
        refine ⟨hs.held_ne_none ha, ?_, ?_⟩
        · show Handled ((s.destroy v).setHndl v none)
          rw [destroy_eq hv]
          exact Handled.setHndl (v := v) hs (by simp)
        · show ((s.destroy v).setHndl v none).ownership = s.ownership.step (.release v)
          rw [destroy_eq hv]
          simp only [ownership, Ownership.step, held_setHndl, hheld, Option.toList_some]
          rfl
  · intro s t a hb hrel ha
    obtain ⟨hs, rfl⟩ := hrel
    cases a with
    | next v =>
        obtain ⟨frame, returned, hnext⟩ := next_rest s v
        show Handled (s.next v) ∧ (s.next v).ownership = s.ownership
        rw [hnext]
        exact ⟨hs, rfl⟩
    | create v h yields | copyConstruct v other | copyAssign v other | destruct v => cases hb

/-! ### Every frame is destroyed once -/

omit [DecidableEq ι] [DecidableEq H] in
/-- A generator cannot be constructed from itself. -/
theorem alone_iff_sole (ha : s.enabled a) : Alone a ↔ ∀ b ∈ shares a, Sharing.Sole b := by
  cases a with
  | copyConstruct v other =>
      refine iff_of_false not_false ?_
      intro hsole
      obtain rfl : v = other := hsole _ rfl
      exact ha.2 ha.1
  | copyAssign v other =>
      constructor
      · intro hself b hb
        obtain rfl := Option.some.inj hb
        exact hself
      · exact fun hsole => hsole _ rfl
  | create v h yields | destruct v =>
      refine iff_of_true trivial ?_
      intro b hb
      obtain rfl := Option.some.inj hb
      trivial
  | next v => exact iff_of_true trivial nofun

theorem forall_alone_iff (hl : (machine ι H).Legal (machine ι H).init tr) :
    (∀ a ∈ tr, Alone a) ↔ ∀ b ∈ tr.filterMap shares, Sharing.Sole b :=
  Machine.forall_label_iff alone_iff_sole hl

/-- Where no generator is copied, every frame that exists has one owner. -/
theorem owned_kept (hl : (machine ι H).Legal (machine ι H).init tr) (halone : ∀ a ∈ tr, Alone a) :
    Ownership.Owned ((machine ι H).after (machine ι H).init tr).ownership ∧
      Ownership.Kept ((machine ι H).after (machine ι H).init tr).ownership := by
  obtain ⟨hn, -, hafter⟩ := simulates.run hl
  rw [hafter]
  exact Sharing.owned_kept (Sharing.reachable_sole hn ((forall_alone_iff hl).mp halone))

/-- Then a frame that is resumed exists. -/
theorem none_not_returned (hl : (machine ι H).Legal (machine ι H).init tr) :
    (∀ a ∈ tr, Alone a) → none ∉ ((machine ι H).after (machine ι H).init tr).returned := by
  refine Machine.run_invariant (P := fun tr s => (∀ a ∈ tr, Alone a) → none ∉ s.returned)
    (fun _ => List.not_mem_nil) ?_ hl
  intro tr a hl hnone ha halone
  rw [List.forall_mem_append] at halone
  have hs := hnone halone.1
  obtain ⟨howned, -⟩ := owned_kept hl halone.1
  obtain ⟨-, hhandled, -⟩ := simulates.run hl
  generalize (machine ι H).after (machine ι H).init tr = s at *
  cases a with
  | create v h yields | copyConstruct v other | copyAssign v other => exact hs
  | destruct v =>
      obtain ⟨h, hv⟩ := hhandled.exists_held ha
      show none ∉ ((s.destroy v).setHndl v none).returned
      rw [destroy_eq hv]
      exact hs
  | next v =>
      obtain ⟨h, hv⟩ := hhandled.exists_held ha
      have hlive : h ∈ s.frames := howned.live v h (held_eq_some.mpr hv)
      show none ∉ (s.next v).returned
      simp only [next, hv, resume, if_pos hlive]
      simpa [Frame.resume] using hs

theorem destroysOnce_of_alone (hl : (machine ι H).Legal (machine ι H).init tr)
    (halone : ∀ a ∈ tr, Alone a) : DestroysOnce ((machine ι H).after (machine ι H).init tr) := by
  obtain ⟨howned, hkept⟩ := owned_kept hl halone
  refine ⟨?_, none_not_returned hl halone, ?_⟩
  · intro h
    have hbalance := howned.balance h
    exact hbalance ▸ Nat.le_add_right _ _
  · intro hgone
    exact (howned.kept_iff_released fun v => held_of_gone (hgone v)).mp hkept

/--
**Every frame is destroyed once exactly where no generator is copied.**  All along a run whose
copies are all of a generator to itself, no frame is destroyed twice, none is resumed after it
was destroyed, and all were destroyed when no generator is left.  A run that leaves no
generator and makes any other copy is not so.
-/
theorem frames_destroyed_once (tr : List (Action ι H))
    (hl : (machine ι H).Legal (machine ι H).init tr) :
    ((∀ a ∈ tr, Alone a) →
      ∀ pre, pre <+: tr → DestroysOnce ((machine ι H).after (machine ι H).init pre)) ∧
    ((∀ v, ((machine ι H).after (machine ι H).init tr).crtHndl v = none) →
      ((∀ pre, pre <+: tr → DestroysOnce ((machine ι H).after (machine ι H).init pre)) ↔
        ∀ a ∈ tr, Alone a)) := by
  have hall : (∀ a ∈ tr, Alone a) →
      ∀ pre, pre <+: tr → DestroysOnce ((machine ι H).after (machine ι H).init pre) := by
    intro halone pre hpre
    have hpart := Machine.legal_of_prefix hpre hl
    exact destroysOnce_of_alone hpart fun a ha => halone a (hpre.subset ha)
  refine ⟨hall, fun hgone => ⟨fun honce => ?_, hall⟩⟩
  have hsettled := (honce tr List.prefix_rfl).settled hgone
  obtain ⟨hn, -, hafter⟩ := simulates.run hl
  refine (forall_alone_iff hl).mpr ((Sharing.released_once_iff hn ?_).mp ?_)
  · intro v
    rw [← hafter]
    exact held_of_gone (hgone v)
  · rw [← hafter]
    exact hsettled

/-- A generator that is assigned to itself, and another coroutine at the same place; and two of
which one is assigned to the other. -/
theorem frames_destroyed_once_again :
    (∀ pre, pre <+: [.create 0 7 exCoroutine, .next 0, .copyAssign 0 0, .next 0, .destruct 0,
        .create 1 7 exCoroutine, .next 1, .destruct 1] →
      DestroysOnce ((machine (Fin 2) Nat).after (machine (Fin 2) Nat).init pre)) ∧
    ¬ ∀ pre, pre <+: [.create 0 7 exCoroutine, .create 1 8 exCoroutine, .copyAssign 0 1,
        .destruct 1, .destruct 0] →
      DestroysOnce ((machine (Fin 2) Nat).after (machine (Fin 2) Nat).init pre) := by
  refine ⟨(frames_destroyed_once _ (by decide +kernel)).1 (by decide), fun honce => ?_⟩
  have halone := ((frames_destroyed_once _ (by decide +kernel)).2 (by decide +kernel)).mp honce
  revert halone
  decide

/-- A frame that two generators hold is destroyed twice. -/
theorem frames_destroyed_twice : ¬ ∀ tr, (machine (Fin 2) Nat).Legal (machine (Fin 2) Nat).init tr →
    DestroysOnce ((machine (Fin 2) Nat).after (machine (Fin 2) Nat).init tr) := by
  intro hall
  have hdestroyed := (hall [.create 0 7 exCoroutine, .create 1 8 exCoroutine, .copyAssign 0 1,
    .destruct 1, .next 0, .destruct 0] (by decide +kernel)).destroyed 8
  revert hdestroyed
  decide +kernel

end GeneratorExample

end LinuxSystems
