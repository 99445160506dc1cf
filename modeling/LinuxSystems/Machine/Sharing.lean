/-
Handles that are copied.

Variables hold handles of resources as owners do, and each releases what it holds.  But what
one holds may also be copied to another one, which then holds it too, and no longer what it held
before.

Only a variable that is copied to itself does no harm.  A copy to an empty variable makes one
holder more than there are resources, so that in the end something is released once too
often.  A copy over what a variable alone held leaves a live handle that nobody will ever
hold again.  Neither is made good by anything that is done later, which is why a run that leaves
nothing held has released everything once exactly where it made no such copy.
-/
import LinuxSystems.Machine.Ownership
import LinuxSystems.Machine.Simulation
import Mathlib.Data.Finset.Card
import Mathlib.Data.List.Perm.Basic

namespace LinuxSystems

namespace Sharing

variable {V H : Type*} [DecidableEq V] [DecidableEq H]

inductive Action (V H : Type*) where
  | acquire (v : V) (h : H)
  /-- What `w` holds is held by `v` too. -/
  | copy (v w : V)
  | release (v : V)

def enabled (s : Ownership V H) : Action V H → Prop
  | .acquire v h => s.held v = none ∧ h ∉ s.live
  | .copy _ w => s.held w ≠ none
  | .release v => s.held v ≠ none

def step (s : Ownership V H) : Action V H → Ownership V H
  | .acquire v h => s.step (.acquire v h)
  | .copy v w => { s with held := Function.update s.held v (s.held w) }
  | .release v => s.step (.release v)

/-- Nothing is held. -/
def machine (V H : Type*) [DecidableEq V] [DecidableEq H] : Machine (Ownership V H) (Action V H) where
  init := ⟨fun _ => none, [], [], []⟩
  enabled := enabled
  next := step

/-- Nothing is copied to another variable. -/
def Sole : Action V H → Prop
  | .copy v w => v = w
  | .acquire _ _ | .release _ => True

variable {s : Ownership V H} {a : Action V H} {tr : List (Action V H)} {u v w : V} {g h : H}

theorem held_copy : (step s (.copy v w)).held u = some g ↔
    (u = v ∧ s.held w = some g) ∨ (u ≠ v ∧ s.held u = some g) := by
  show Function.update s.held v (s.held w) u = some g ↔ _
  by_cases huv : u = v
  · subst huv
    simp
  · simp [huv]

/-! ### Without copies -/

/-- What owners see of an action that copies nothing to another variable. -/
def owns : Action V H → Option (Ownership.Action V H)
  | .acquire v h => some (.acquire v h)
  | .copy _ _ => none
  | .release v => some (.release v)

theorem simulates : Machine.Simulates ((machine V H).restrict fun _ => Sole)
    ((Ownership.machine V H).restrict Ownership.Tight) owns fun s t => s = t := by
  refine ⟨rfl, ?_, ?_⟩
  · intro s t a b hb hst hen
    subst hst
    have ha := hen.1
    cases a with
    | acquire v h =>
        obtain rfl := Option.some.inj hb
        exact ⟨⟨ha.2, ha.1⟩, rfl⟩
    | copy v w => exact nomatch hb
    | release v =>
        obtain rfl := Option.some.inj hb
        exact ⟨⟨trivial, trivial⟩, rfl⟩
  · intro s t a hb hst hen
    subst hst
    cases a with
    | acquire v h => exact nomatch hb
    | release v => exact nomatch hb
    | copy v w =>
        obtain rfl : v = w := hen.2
        exact congrArg (Ownership.mk · _ _ _) (Function.update_eq_self v s.held)

/-- Where nothing is copied to another variable, everything is as with owners. -/
theorem owned_kept (hr : ((machine V H).restrict fun _ => Sole).Reachable s) :
    Ownership.Owned s ∧ Ownership.Kept s := by
  obtain ⟨t, ht, rfl⟩ := simulates.reachable hr
  exact ⟨Ownership.reachable_owned ht.of_restrict, Ownership.reachable_kept ht⟩

theorem reachable_sole (hl : (machine V H).Legal (machine V H).init tr) (hsole : ∀ a ∈ tr, Sole a) :
    ((machine V H).restrict fun _ => Sole).Reachable ((machine V H).after (machine V H).init tr) :=
  ⟨tr, Machine.restrict_legal_of_forall (fun _ _ ha => ha) hl hsole, rfl⟩

/-! ### Too many holders -/

omit [DecidableEq H] in
/-- A variable that gets something is one more that holds something. -/
theorem mem_insert_iff {f : V → Option H} {vs : Finset V} {x : Option H}
    (hvs : ∀ u, u ∈ vs ↔ f u ≠ none) (hx : x ≠ none) (u : V) :
    u ∈ insert v vs ↔ Function.update f v x u ≠ none := by
  by_cases huv : u = v
  · subst huv
    simpa using hx
  · simp [huv, hvs]

/-- There are `n` holders more than handles that were acquired and are still to be released. -/
def Surplus (s : Ownership V H) (n : Nat) : Prop :=
  ∃ vs : Finset V, (∀ v, v ∈ vs ↔ s.held v ≠ none) ∧
    s.acquired.length + n ≤ vs.card + s.released.length

/-- A surplus is never made up for. -/
theorem Surplus.step {n : Nat} (hs : Surplus s n) (ha : enabled s a) : Surplus (step s a) n := by
  obtain ⟨vs, hvs, hcard⟩ := hs
  cases a with
  | acquire v h =>
      have hv : v ∉ vs := fun hmem => (hvs v).mp hmem ha.1
      refine ⟨insert v vs, mem_insert_iff hvs (Option.some_ne_none h), ?_⟩
      rw [Finset.card_insert_of_notMem hv]
      show (s.acquired ++ [h]).length + n ≤ _ + s.released.length
      rw [List.length_append, List.length_singleton]
      omega
  | copy v w =>
      have hle : vs.card ≤ (insert v vs).card := Finset.card_le_card (Finset.subset_insert v vs)
      refine ⟨insert v vs, mem_insert_iff hvs ha, ?_⟩
      show s.acquired.length + n ≤ _ + s.released.length
      omega
  | release v =>
      obtain ⟨h, hv⟩ := Option.ne_none_iff_exists'.mp ha
      have hmem : v ∈ vs := (hvs v).mpr ha
      have hpos : 0 < vs.card := Finset.card_pos.mpr ⟨v, hmem⟩
      refine ⟨vs.erase v, ?_, ?_⟩
      · intro u
        by_cases huv : u = v
        · simp [huv, Sharing.step, Ownership.step]
        · simp [huv, hvs, Sharing.step, Ownership.step]
      · rw [Finset.card_erase_of_mem hmem]
        show s.acquired.length + n ≤ _ + (s.released ++ (s.held v).toList).length
        rw [hv, Option.toList_some, List.length_append, List.length_singleton]
        omega

theorem surplus_zero (hr : (machine V H).Reachable s) : Surplus s 0 := by
  refine hr.invariant (P := (Surplus · 0)) ⟨∅, ?_, Nat.le_refl _⟩ ?_
  · exact fun v => iff_of_false (Finset.notMem_empty v) (fun hv => hv rfl)
  · exact fun s a _ hs ha => hs.step ha

/-- A copy to an empty variable makes one more. -/
theorem Surplus.copy {n : Nat} (hs : Surplus s n) (hv : s.held v = none) (hw : s.held w ≠ none) :
    Surplus (Sharing.step s (.copy v w)) (n + 1) := by
  obtain ⟨vs, hvs, hcard⟩ := hs
  have hmem : v ∉ vs := fun hmem => (hvs v).mp hmem hv
  refine ⟨insert v vs, mem_insert_iff hvs hw, ?_⟩
  rw [Finset.card_insert_of_notMem hmem]
  show s.acquired.length + (n + 1) ≤ _ + s.released.length
  omega

/-! ### Handles that nobody holds -/

/-- The handle is live, and nobody can release it any more. -/
structure Lost (s : Ownership V H) (h : H) : Prop where
  live : h ∈ s.live
  unheld : ∀ v, s.held v ≠ some h
  unreleased : s.acquired.count h = s.released.count h + 1

/-- What is lost once stays lost. -/
theorem Lost.step (hs : Lost s h) (ha : enabled s a) : Lost (step s a) h := by
  cases a with
  | acquire v g =>
      have hgh : g ≠ h := by
        rintro rfl
        exact ha.2 hs.live
      refine ⟨List.mem_cons_of_mem g hs.live, ?_, ?_⟩
      · intro u hu
        rcases Ownership.held_acquire.mp hu with ⟨-, rfl⟩ | ⟨-, hu⟩
        · exact hgh rfl
        · exact hs.unheld u hu
      · show (s.acquired ++ [g]).count h = s.released.count h + 1
        rw [List.count_append, List.count_singleton, if_neg (by simpa using hgh), hs.unreleased]
  | copy v w =>
      refine ⟨hs.live, ?_, hs.unreleased⟩
      intro u hu
      rcases held_copy.mp hu with ⟨-, hw⟩ | ⟨-, hu⟩
      · exact hs.unheld w hw
      · exact hs.unheld u hu
  | release v =>
      obtain ⟨g, hv⟩ := Option.ne_none_iff_exists'.mp ha
      have hgh : g ≠ h := by
        rintro rfl
        exact hs.unheld v hv
      refine ⟨?_, ?_, ?_⟩
      · simp only [Sharing.step, Ownership.step, hv]
        exact (List.mem_erase_of_ne (Ne.symm hgh)).mpr hs.live
      · intro u hu
        exact hs.unheld u (Ownership.held_release.mp hu).2
      · show s.acquired.count h = (s.released ++ (s.held v).toList).count h + 1
        rw [hv, Option.toList_some, List.count_append, List.count_singleton,
          if_neg (by simpa using hgh), hs.unreleased]

/-- A copy over what a variable alone held loses it. -/
theorem lost_copy (hs : Ownership.Owned s) (hne : v ≠ w) (hv : s.held v = some h) :
    Lost (step s (.copy v w)) h := by
  have hlive := hs.live v h hv
  refine ⟨hlive, ?_, ?_⟩
  · intro u hu
    rcases held_copy.mp hu with ⟨-, hw⟩ | ⟨huv, hu⟩
    · exact hne (hs.unique v w h hv hw)
    · exact huv (hs.unique u v h hu hv)
  · have hbalance := hs.balance h
    rw [List.count_eq_one_of_mem hs.nodup hlive] at hbalance
    exact hbalance

/-! ### What is released once -/

/-- There are too many holders, or a handle that nobody holds. -/
def Spoilt (s : Ownership V H) : Prop := Surplus s 1 ∨ ∃ h, Lost s h

theorem Spoilt.step (hs : Spoilt s) (ha : enabled s a) : Spoilt (step s a) := by
  rcases hs with hsurplus | ⟨h, hlost⟩
  · exact Or.inl (hsurplus.step ha)
  · exact Or.inr ⟨h, hlost.step ha⟩

theorem spoilt_copy (hr : ((machine V H).restrict fun _ => Sole).Reachable s) (hne : v ≠ w)
    (hw : s.held w ≠ none) : Spoilt (step s (.copy v w)) := by
  cases hv : s.held v with
  | none => exact Or.inl ((surplus_zero hr.of_restrict).copy hv hw)
  | some h => exact Or.inr ⟨h, lost_copy (owned_kept hr).1 hne hv⟩

/-- **The first copy to another variable spoils everything after it.** -/
theorem sole_or_spoilt (hl : (machine V H).Legal (machine V H).init tr) :
    (∀ a ∈ tr, Sole a) ∨ Spoilt ((machine V H).after (machine V H).init tr) := by
  refine Machine.run_invariant (P := fun tr s => (∀ a ∈ tr, Sole a) ∨ Spoilt s)
    (Or.inl fun a ha => absurd ha List.not_mem_nil) ?_ hl
  intro tr a hl hP ha
  rcases hP with hsole | hspoilt
  · have hnext : Sole a → ∀ b ∈ tr ++ [a], Sole b := fun hsole' =>
      List.forall_mem_append.mpr ⟨hsole, List.forall_mem_singleton.mpr hsole'⟩
    cases a with
    | copy v w =>
        by_cases hvw : v = w
        · exact Or.inl (hnext hvw)
        · exact Or.inr (spoilt_copy (reachable_sole hl hsole) hvw ha)
    | acquire v h | release v => exact Or.inl (hnext trivial)
  · exact Or.inr (hspoilt.step ha)

omit [DecidableEq V] in
/-- Where nothing is held any more, something was released too often, or not at all. -/
theorem Spoilt.not_released (hs : Spoilt s) (hnone : ∀ v, s.held v = none) :
    ¬ ∀ h, s.released.count h = s.acquired.count h := by
  intro hall
  rcases hs with ⟨vs, hvs, hcard⟩ | ⟨h, hlost⟩
  · have hempty : vs = ∅ := Finset.eq_empty_of_forall_notMem fun v hv => (hvs v).mp hv (hnone v)
    have hlength : s.released.length = s.acquired.length :=
      (List.perm_iff_count.mpr hall).length_eq
    rw [hempty, Finset.card_empty] at hcard
    omega
  · have hsame := hall h
    have hless := hlost.unreleased
    omega

/-- **Everything is released once exactly where nothing was copied to another variable.** -/
theorem released_once_iff (hl : (machine V H).Legal (machine V H).init tr)
    (hnone : ∀ v, ((machine V H).after (machine V H).init tr).held v = none) :
    (∀ h, ((machine V H).after (machine V H).init tr).released.count h =
      ((machine V H).after (machine V H).init tr).acquired.count h) ↔ ∀ a ∈ tr, Sole a := by
  constructor
  · intro hall
    refine (sole_or_spoilt hl).resolve_right ?_
    intro hspoilt
    exact hspoilt.not_released hnone hall
  · intro hsole
    obtain ⟨howned, hkept⟩ := owned_kept (reachable_sole hl hsole)
    exact (howned.kept_iff_released hnone).mp hkept

end Sharing

end LinuxSystems
