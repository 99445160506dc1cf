/-
Who owns what.

Variables hold handles of resources.  A handle is acquired into a variable, moved to
another one, and released by the variable that holds it.  A variable may also lose its
handle without releasing it: when it is dropped, or when something else is put into it.

A handle that is released may be acquired again, so histories count.  Two facts hold
whatever is done: no two variables hold the same handle, and a handle is released only
while it is live.  That every live handle is still held by somebody is decided by whether
a variable is ever made to lose one, and what is lost once stays lost.
-/
import LinuxSystems.Machine.Run
import Mathlib.Data.List.Basic
import Mathlib.Logic.Function.Basic

namespace LinuxSystems

structure Ownership (V H : Type*) where
  held : V → Option H
  /-- Acquired and not released. -/
  live : List H
  acquired : List H
  released : List H

namespace Ownership

variable {V H : Type*} [DecidableEq V] [DecidableEq H]

inductive Action (V H : Type*) where
  | acquire (v : V) (h : H)
  /-- What `w` holds goes to `v`. -/
  | move (v w : V)
  | release (v : V)
  | drop (v : V)

def enabled (s : Ownership V H) : Action V H → Prop
  | .acquire _ h => h ∉ s.live
  | .move v w => v ≠ w
  | .release _ | .drop _ => True

def step (s : Ownership V H) : Action V H → Ownership V H
  | .acquire v h =>
      { s with
        held := Function.update s.held v (some h)
        live := h :: s.live
        acquired := s.acquired ++ [h] }
  | .move v w => { s with held := Function.update (Function.update s.held v (s.held w)) w none }
  | .release v =>
      { s with
        held := Function.update s.held v none
        live := match s.held v with
          | some h => s.live.erase h
          | none => s.live
        released := s.released ++ (s.held v).toList }
  | .drop v => { s with held := Function.update s.held v none }

/-- Nothing is held. -/
def machine (V H : Type*) [DecidableEq V] [DecidableEq H] : Machine (Ownership V H) (Action V H) where
  init := ⟨fun _ => none, [], [], []⟩
  enabled := enabled
  next := step

/-- The variable that gets a handle, or nothing, has none to lose. -/
def Tight (s : Ownership V H) : Action V H → Prop
  | .acquire v _ | .move v _ | .drop v => s.held v = none
  | .release _ => True

/-- What holds whatever is done. -/
structure Owned (s : Ownership V H) : Prop where
  unique : ∀ v w h, s.held v = some h → s.held w = some h → v = w
  live : ∀ v h, s.held v = some h → h ∈ s.live
  nodup : s.live.Nodup
  balance : ∀ h, s.acquired.count h = s.released.count h + s.live.count h

/-- Every live handle is held. -/
def Kept (s : Ownership V H) : Prop := ∀ h ∈ s.live, ∃ v, s.held v = some h

variable {s : Ownership V H} {a : Action V H} {u v w : V} {g h : H}

/-! ### Who holds what after a step -/

omit [DecidableEq H] in
theorem update_none_eq_some {f : V → Option H} :
    Function.update f v none u = some g ↔ u ≠ v ∧ f u = some g := by
  by_cases huv : u = v
  · simp [huv]
  · simp [huv]

theorem held_acquire : (s.step (.acquire v h)).held u = some g ↔
    (u = v ∧ g = h) ∨ (u ≠ v ∧ s.held u = some g) := by
  by_cases huv : u = v
  · subst huv
    simp [step, eq_comm]
  · simp [step, huv]

theorem held_move (hne : v ≠ w) : (s.step (.move v w)).held u = some g ↔
    (u = v ∧ s.held w = some g) ∨ (u ≠ v ∧ u ≠ w ∧ s.held u = some g) := by
  show Function.update (Function.update s.held v (s.held w)) w none u = some g ↔ _
  rw [update_none_eq_some]
  by_cases huv : u = v
  · subst huv
    simp [hne]
  · simp [huv]

theorem held_release : (s.step (.release v)).held u = some g ↔ u ≠ v ∧ s.held u = some g :=
  update_none_eq_some

theorem held_drop : (s.step (.drop v)).held u = some g ↔ u ≠ v ∧ s.held u = some g :=
  update_none_eq_some

/-! ### What holds whatever is done -/

theorem Owned.release (hs : Owned s) : Owned (s.step (.release v)) := by
  have hunique : ∀ u w g, (s.step (.release v)).held u = some g →
      (s.step (.release v)).held w = some g → u = w := by
    intro u w g hu hw
    exact hs.unique u w g (held_release.mp hu).2 (held_release.mp hw).2
  cases hv : s.held v with
  | none =>
      refine ⟨hunique, ?_, ?_, ?_⟩
      · intro u g hu
        simp only [step, hv]
        exact hs.live u g (held_release.mp hu).2
      · simpa [step, hv] using hs.nodup
      · simpa [step, hv] using hs.balance
  | some h =>
      have hlive := hs.live v h hv
      refine ⟨hunique, ?_, ?_, ?_⟩
      · intro u g hu
        obtain ⟨huv, hu⟩ := held_release.mp hu
        have hgh : g ≠ h := by
          rintro rfl
          exact huv (hs.unique u v g hu hv)
        simp only [step, hv]
        exact (List.mem_erase_of_ne hgh).mpr (hs.live u g hu)
      · simp only [step, hv]
        exact hs.nodup.erase h
      · intro g
        have hbalance := hs.balance g
        simp only [step, hv, Option.toList_some, List.count_append]
        by_cases hgh : g = h
        · subst hgh
          have hpos := List.count_pos_iff.mpr hlive
          rw [List.count_erase_self, List.count_singleton_self]
          omega
        · rw [List.count_erase_of_ne hgh, List.count_singleton, if_neg (by simpa using Ne.symm hgh)]
          omega

theorem Owned.step (hs : Owned s) (ha : s.enabled a) : Owned (s.step a) := by
  cases a with
  | acquire v h =>
      have hfresh : h ∉ s.live := ha
      refine ⟨?_, ?_, List.nodup_cons.mpr ⟨hfresh, hs.nodup⟩, ?_⟩
      · intro u w g hu hw
        rcases held_acquire.mp hu with ⟨huv, hgh⟩ | ⟨-, hu'⟩
        · rcases held_acquire.mp hw with ⟨hwv, -⟩ | ⟨-, hw'⟩
          · rw [huv, hwv]
          · exact absurd (hs.live w h (hgh ▸ hw')) hfresh
        · rcases held_acquire.mp hw with ⟨-, hgh⟩ | ⟨-, hw'⟩
          · exact absurd (hs.live u h (hgh ▸ hu')) hfresh
          · exact hs.unique u w g hu' hw'
      · intro u g hu
        rcases held_acquire.mp hu with ⟨-, rfl⟩ | ⟨-, hu⟩
        · exact List.mem_cons_self
        · exact List.mem_cons_of_mem h (hs.live u g hu)
      · intro g
        have hbalance := hs.balance g
        simp only [Ownership.step, List.count_append, List.count_cons, List.count_nil]
        omega
  | move v w =>
      refine ⟨?_, ?_, hs.nodup, hs.balance⟩
      · intro u u' g hu hu'
        rcases (held_move ha).mp hu with ⟨huv, hw⟩ | ⟨-, huw, hold⟩
        · rcases (held_move ha).mp hu' with ⟨huv', -⟩ | ⟨-, huw', hold'⟩
          · rw [huv, huv']
          · exact absurd (hs.unique u' w g hold' hw) huw'
        · rcases (held_move ha).mp hu' with ⟨-, hw⟩ | ⟨-, -, hold'⟩
          · exact absurd (hs.unique u w g hold hw) huw
          · exact hs.unique u u' g hold hold'
      · intro u g hu
        rcases (held_move ha).mp hu with ⟨-, hu⟩ | ⟨-, -, hu⟩
        · exact hs.live w g hu
        · exact hs.live u g hu
  | release v => exact hs.release
  | drop v =>
      refine ⟨?_, ?_, hs.nodup, hs.balance⟩
      · intro u w g hu hw
        exact hs.unique u w g (held_drop.mp hu).2 (held_drop.mp hw).2
      · intro u g hu
        exact hs.live u g (held_drop.mp hu).2

theorem reachable_owned (hr : (machine V H).Reachable s) : Owned s := by
  refine hr.invariant (P := Owned) ?_ ?_
  · exact ⟨nofun, nofun, List.nodup_nil, fun _ => rfl⟩
  · exact fun s a _ hs ha => hs.step ha

/-! ### Whether everything live is held -/

omit [DecidableEq V] in
/-- Where everything live is held by others, a variable holds nothing. -/
theorem Owned.held_eq_none (hs : Owned s)
    (hold : ∀ g ∈ s.live, ∃ u, u ≠ v ∧ s.held u = some g) : s.held v = none := by
  by_contra hv
  obtain ⟨g, hg⟩ := Option.ne_none_iff_exists'.mp hv
  obtain ⟨u, huv, hu⟩ := hold g (hs.live v g hg)
  exact huv (hs.unique u v g hu hg)

omit [DecidableEq V] [DecidableEq H] in
theorem ne_of_held (hv : s.held v = none) (hu : s.held u = some g) : u ≠ v := by
  rintro rfl
  exact absurd (hu.symm.trans hv) (by simp)

/-- A variable that releases what it holds loses nothing. -/
theorem kept_release (hs : Owned s) : Kept (s.step (.release v)) ↔ Kept s := by
  cases hv : s.held v with
  | none =>
      simp only [Kept, step, hv]
      refine forall₂_congr fun g _ => exists_congr fun u => ?_
      rw [update_none_eq_some]
      exact ⟨fun hu => hu.2, fun hu => ⟨ne_of_held hv hu, hu⟩⟩
  | some h =>
      simp only [Kept, step, hv, update_none_eq_some]
      constructor
      · intro hkept g hg
        by_cases hgh : g = h
        · exact ⟨v, hgh ▸ hv⟩
        · exact (hkept g ((List.mem_erase_of_ne hgh).mpr hg)).imp fun u hu => hu.2
      · intro hkept g hg
        obtain ⟨hgh, hg⟩ := hs.nodup.mem_erase_iff.mp hg
        obtain ⟨u, hu⟩ := hkept g hg
        refine ⟨u, ?_, hu⟩
        intro huv
        rw [huv, hv] at hu
        exact hgh (Option.some.inj hu).symm

/-- **A step loses nothing exactly where the variable it writes is empty.** -/
theorem kept_step (hs : Owned s) (ha : s.enabled a) :
    Kept (s.step a) ↔ Kept s ∧ Tight s a := by
  -- what the variable that is written does not hold is what the others hold
  have split : ∀ {v}, Kept s ∧ s.held v = none ↔
      ∀ g ∈ s.live, ∃ u, u ≠ v ∧ s.held u = some g := by
    intro v
    constructor
    · rintro ⟨hkept, hv⟩ g hg
      exact (hkept g hg).imp fun u hu => ⟨ne_of_held hv hu, hu⟩
    · intro hold
      exact ⟨fun g hg => (hold g hg).imp fun u hu => hu.2, hs.held_eq_none hold⟩
  cases a with
  | acquire v h =>
      have hfresh : h ∉ s.live := ha
      refine Iff.trans ?_ split.symm
      constructor
      · intro hkept g hg
        obtain ⟨u, hu⟩ := hkept g (List.mem_cons_of_mem h hg)
        rcases held_acquire.mp hu with ⟨-, rfl⟩ | hu
        · exact absurd hg hfresh
        · exact ⟨u, hu⟩
      · intro hold g hg
        rcases List.mem_cons.mp hg with rfl | hg
        · exact ⟨v, held_acquire.mpr (Or.inl ⟨rfl, rfl⟩)⟩
        · exact (hold g hg).imp fun u hu => held_acquire.mpr (Or.inr hu)
  | move v w =>
      refine Iff.trans (forall₂_congr fun g _ => ?_) split.symm
      constructor
      · rintro ⟨u, hu⟩
        rcases (held_move ha).mp hu with ⟨-, hw⟩ | ⟨huv, -, hu⟩
        · exact ⟨w, Ne.symm ha, hw⟩
        · exact ⟨u, huv, hu⟩
      · rintro ⟨u, huv, hu⟩
        by_cases huw : u = w
        · exact ⟨v, (held_move ha).mpr (Or.inl ⟨rfl, huw ▸ hu⟩)⟩
        · exact ⟨u, (held_move ha).mpr (Or.inr ⟨huv, huw, hu⟩)⟩
  | drop v =>
      refine Iff.trans (forall₂_congr fun g _ => ?_) split.symm
      exact exists_congr fun u => held_drop
  | release v => exact (kept_release hs).trans (and_iff_left trivial).symm

/-- **Everything live is held exactly as long as nothing is lost.** -/
theorem kept_iff {tr : List (Action V H)} (hl : (machine V H).Legal (machine V H).init tr) :
    Kept ((machine V H).after (machine V H).init tr) ↔
      ((machine V H).restrict Tight).Legal (machine V H).init tr := by
  refine (Machine.restrict_legal_iff (P := Kept) (by simp [Kept, machine]) ?_ hl).symm
  intro s a hr ha
  exact kept_step (reachable_owned hr) ha

theorem reachable_kept (hr : ((machine V H).restrict Tight).Reachable s) : Kept s := by
  obtain ⟨tr, hl, rfl⟩ := hr
  exact (kept_iff (Machine.restrict_legal hl)).mpr hl

omit [DecidableEq V] in
/-- Once nothing is held, nothing live is lost exactly where everything acquired was
released. -/
theorem Owned.kept_iff_released (hs : Owned s) (hnone : ∀ v, s.held v = none) :
    Kept s ↔ ∀ h, s.released.count h = s.acquired.count h := by
  constructor
  · intro hkept h
    have hdead : h ∉ s.live := by
      intro hh
      obtain ⟨v, hv⟩ := hkept h hh
      exact absurd ((hnone v).symm.trans hv) (by simp)
    have hbalance := hs.balance h
    rw [List.count_eq_zero.mpr hdead] at hbalance
    exact hbalance.symm
  · intro hall h hh
    have hbalance := hs.balance h
    have hpos := List.count_pos_iff.mpr hh
    have hsame := hall h
    omega

end Ownership

end LinuxSystems
