/-
Updates without protection.

Each of some threads loads a value once, adds something of its own to what it loaded, and
stores the sum.  A store overwrites whatever was stored since the load, so in the end the
value is the first one with the updates of only some of the threads: those behind the value
that the last thread to store had loaded, and its own.  Nothing but the last update is safe,
and any others may be lost.
-/
import LinuxSystems.Machine.Simulation
import Mathlib.Algebra.BigOperators.Group.Finset.Basic
import Mathlib.Data.Fintype.Basic

namespace LinuxSystems

/-- Where a thread stands with its update. -/
inductive LostUpdate.Site (M : Type*) where
  | start
  /-- It has loaded the value, and not stored. -/
  | loaded (v : M)
  | stored
  deriving DecidableEq

open LostUpdate

structure LostUpdate (ι M : Type*) where
  value : M
  site : ι → Site M

namespace LostUpdate

variable {ι M : Type*}

inductive Action (ι : Type*) where
  | load (t : ι)
  | store (t : ι)

def enabled (s : LostUpdate ι M) : Action ι → Prop
  | .load t => s.site t = .start
  | .store t => ∃ v, s.site t = .loaded v

variable [DecidableEq ι] [AddCommMonoid M]

/-- `add t` is what the thread `t` adds. -/
def step (add : ι → M) (s : LostUpdate ι M) : Action ι → LostUpdate ι M
  | .load t => { s with site := Function.update s.site t (.loaded s.value) }
  | .store t => match s.site t with
    | .loaded v => { value := v + add t, site := Function.update s.site t .stored }
    | .start | .stored => s

def machine (add : ι → M) (first : M) : Machine (LostUpdate ι M) (Action ι) where
  init := ⟨first, fun _ => .start⟩
  enabled := enabled
  next := step add

variable {add : ι → M} {first v : M} {s : LostUpdate ι M} {t : ι}

theorem step_store (hv : s.site t = .loaded v) :
    step add s (.store t) = ⟨v + add t, Function.update s.site t .stored⟩ := by
  unfold step
  simp only [hv]

/-! ### Nothing but updates of those who stored -/

/-- The value is the first one with the updates of some who have stored. -/
def Behind (add : ι → M) (first : M) (s : LostUpdate ι M) (S : Finset ι) (v : M) : Prop :=
  v = first + ∑ t ∈ S, add t ∧ ∀ t ∈ S, s.site t = .stored

/-- Some updates are behind the value, and behind what was loaded. -/
structure Chained (add : ι → M) (first : M) (s : LostUpdate ι M) : Prop where
  value : ∃ S, Behind add first s S s.value ∧ ((∃ t, s.site t = .stored) → S.Nonempty)
  loaded : ∀ t v, s.site t = .loaded v → ∃ S, Behind add first s S v

omit [DecidableEq ι] in
/-- Those who have stored stay so. -/
theorem Behind.mono {S : Finset ι} (h : Behind add first s S v) {s' : LostUpdate ι M}
    (hkeep : ∀ u, s.site u = .stored → s'.site u = .stored) : Behind add first s' S v :=
  ⟨h.1, fun t ht => hkeep t (h.2 t ht)⟩

theorem Chained.load (h : Chained add first s) (ht : s.site t = .start) :
    Chained add first (step add s (.load t)) := by
  have hkeep : ∀ u, s.site u = .stored → (step add s (.load t)).site u = .stored := by
    intro u hu
    have hut : u ≠ t := by
      intro hut
      rw [hut, ht] at hu
      exact nomatch hu
    exact (Function.update_of_ne hut ..).trans hu
  have hback : ∀ u, u ≠ t → (step add s (.load t)).site u = s.site u :=
    fun u hut => Function.update_of_ne hut ..
  have hself : (step add s (.load t)).site t = .loaded s.value := Function.update_self ..
  obtain ⟨S, hS, hne⟩ := h.value
  refine ⟨⟨S, hS.mono hkeep, fun ⟨u, hu⟩ => hne ⟨u, ?_⟩⟩, fun u v hu => ?_⟩
  · by_cases hut : u = t
    · rw [hut, hself] at hu
      exact nomatch hu
    · rwa [hback u hut] at hu
  · by_cases hut : u = t
    · rw [hut, hself] at hu
      exact ⟨S, Site.loaded.inj hu ▸ hS.mono hkeep⟩
    · rw [hback u hut] at hu
      obtain ⟨S', hS'⟩ := h.loaded u v hu
      exact ⟨S', hS'.mono hkeep⟩

theorem Chained.store (h : Chained add first s) (hv : s.site t = .loaded v) :
    Chained add first (step add s (.store t)) := by
  rw [step_store hv]
  have hkeep : ∀ u, s.site u = .stored → Function.update s.site t Site.stored u = .stored := by
    intro u hu
    by_cases hut : u = t
    · rw [hut, Function.update_self]
    · exact (Function.update_of_ne hut ..).trans hu
  obtain ⟨S, hsum, hS⟩ := h.loaded t v hv
  -- `t` itself is not behind what it loaded
  have hnot : t ∉ S := by
    intro ht
    have hstored := hS t ht
    rw [hv] at hstored
    exact nomatch hstored
  refine ⟨⟨insert t S, ⟨?_, fun u hu => ?_⟩, fun _ => Finset.insert_nonempty t S⟩,
    fun u w hu => ?_⟩
  · show v + add t = _
    rw [Finset.sum_insert hnot, hsum, add_comm (add t), add_assoc]
  · rcases Finset.mem_insert.mp hu with rfl | hu
    · exact Function.update_self ..
    · exact hkeep u (hS u hu)
  · have hut : u ≠ t := by
      intro hut
      have hstored : Function.update s.site t Site.stored u = .loaded w := hu
      rw [hut, Function.update_self] at hstored
      exact nomatch hstored
    have hold : s.site u = .loaded w := (Function.update_of_ne hut ..).symm.trans hu
    obtain ⟨S', hS'⟩ := h.loaded u w hold
    exact ⟨S', hS'.mono hkeep⟩

theorem chained (h : (machine add first).Reachable s) : Chained add first s := by
  refine h.invariant (P := Chained add first) ?_ ?_
  · refine ⟨⟨∅, ⟨?_, fun t ht => absurd ht (Finset.notMem_empty t)⟩, fun ⟨t, ht⟩ => ?_⟩, ?_⟩
    · exact (add_zero first).symm
    · exact nomatch ht
    · intro t v hv
      exact nomatch hv
  · intro s a _ hs ha
    cases a with
    | load t => exact hs.load ha
    | store t =>
        obtain ⟨v, hv⟩ := ha
        exact hs.store hv

/-- **What comes out.**  When all have stored, the value has the updates of some of them, and
of one at least. -/
theorem outcome [Nonempty ι] (h : (machine add first).Reachable s)
    (hall : ∀ t, s.site t = .stored) :
    ∃ S : Finset ι, S.Nonempty ∧ s.value = first + ∑ t ∈ S, add t := by
  obtain ⟨S, hS, hne⟩ := (chained h).value
  exact ⟨S, hne ⟨Classical.arbitrary ι, hall _⟩, hS.1⟩

/-! ### Any of them can be lost -/

/-- The threads one after another. -/
def inTurn (l : List ι) : List (Action ι) := l.flatMap fun t => [.load t, .store t]

/-- One after another loses nothing. -/
theorem inTurn_run (add : ι → M) (first : M) {l : List ι} (hnodup : l.Nodup) :
    ∀ {s : LostUpdate ι M}, (∀ t ∈ l, s.site t = .start) →
      (machine add first).Legal s (inTurn l) ∧
      ((machine add first).after s (inTurn l)).value = s.value + (l.map add).sum ∧
      ∀ u, ((machine add first).after s (inTurn l)).site u =
        if u ∈ l then .stored else s.site u := by
  induction l with
  | nil =>
      intro s _
      refine ⟨trivial, (add_zero s.value).symm, fun u => ?_⟩
      rw [if_neg List.not_mem_nil]
      rfl
  | cons t l ih =>
      intro s hstart
      obtain ⟨htl, hnodup⟩ := List.nodup_cons.mp hnodup
      have hloaded : (step add s (.load t)).site t = .loaded s.value := Function.update_self ..
      have hboth : step add (step add s (.load t)) (.store t) =
          ⟨s.value + add t, Function.update s.site t .stored⟩ := by
        rw [step_store hloaded]
        exact congrArg _ (Function.update_idem ..)
      have hrest : ∀ u ∈ l, (Function.update s.site t Site.stored) u = .start := by
        intro u hu
        have hut : u ≠ t := fun hut => htl (hut ▸ hu)
        rw [Function.update_of_ne hut]
        exact hstart u (List.mem_cons_of_mem t hu)
      obtain ⟨hl, hvalue, hsite⟩ := ih hnodup
        (s := ⟨s.value + add t, Function.update s.site t .stored⟩) hrest
      have hafter : (machine add first).after s (inTurn (t :: l)) =
          (machine add first).after ⟨s.value + add t, Function.update s.site t .stored⟩
            (inTurn l) := congrArg (fun x => (machine add first).after x (inTurn l)) hboth
      refine ⟨⟨hstart t List.mem_cons_self, ⟨_, hloaded⟩, ?_⟩, ?_, fun u => ?_⟩
      · show (machine add first).Legal (step add (step add s (.load t)) (.store t)) (inTurn l)
        rw [hboth]
        exact hl
      · rw [hafter, hvalue, List.map_cons, List.sum_cons, add_assoc]
      · rw [hafter, hsite u]
        by_cases hut : u = t
        · subst hut
          simp [htl]
        · simp [hut]

/-- The thread `t` loads before the others, and stores after those of `lost`. -/
def losing (t : ι) (lost rest : List ι) : List (Action ι) :=
  [.load t] ++ inTurn lost ++ [.store t] ++ inTurn rest

/-- What was stored between the load and the store of `t` is lost. -/
theorem losing_run (add : ι → M) (first : M) {lost rest : List ι} (hlost : lost.Nodup) (hrest : rest.Nodup)
    (ht : t ∉ lost) (ht' : t ∉ rest) (hdisjoint : ∀ u ∈ rest, u ∉ lost) :
    (machine add first).Legal (machine add first).init (losing t lost rest) ∧
      ((machine add first).after (machine add first).init (losing t lost rest)).value =
        first + add t + (rest.map add).sum ∧
      ∀ u, u = t ∨ u ∈ lost ∨ u ∈ rest →
        ((machine add first).after (machine add first).init (losing t lost rest)).site u =
          .stored := by
  have hstart : ∀ u, u ≠ t → (step add (machine add first).init (.load t)).site u = .start :=
    fun u hut => Function.update_of_ne hut ..
  obtain ⟨hl₁, -, hsite₁⟩ := inTurn_run add first hlost
    (s := step add (machine add first).init (.load t))
    fun u hu => hstart u fun hut => ht (hut ▸ hu)
  generalize hs₁ : (machine add first).after (step add (machine add first).init (.load t))
    (inTurn lost) = s₁ at hsite₁
  have hloaded : s₁.site t = .loaded first := by
    rw [hsite₁ t, if_neg ht]
    exact Function.update_self ..
  obtain ⟨hl₂, hvalue₂, hsite₂⟩ := inTurn_run add first hrest
    (s := ⟨first + add t, Function.update s₁.site t .stored⟩) (by
      intro u hu
      have hut : u ≠ t := fun hut => ht' (hut ▸ hu)
      show Function.update s₁.site t Site.stored u = .start
      rw [Function.update_of_ne hut, hsite₁ u, if_neg (hdisjoint u hu)]
      exact hstart u hut)
  have hstored : (machine add first).next s₁ (.store t) =
      ⟨first + add t, Function.update s₁.site t .stored⟩ := step_store hloaded
  have hbefore : (machine add first).after (machine add first).init ([.load t] ++ inTurn lost) =
      s₁ := hs₁
  have hstores : (machine add first).after (machine add first).init
      ([.load t] ++ inTurn lost ++ [.store t]) =
      ⟨first + add t, Function.update s₁.site t .stored⟩ := by
    rw [Machine.after_snoc, hbefore, hstored]
  have hl : (machine add first).Legal (machine add first).init (losing t lost rest) := by
    unfold losing
    rw [Machine.legal_append, hstores, Machine.legal_snoc, hbefore]
    exact ⟨⟨⟨rfl, hl₁⟩, ⟨first, hloaded⟩⟩, hl₂⟩
  have hafter : (machine add first).after (machine add first).init (losing t lost rest) =
      (machine add first).after ⟨first + add t, Function.update s₁.site t .stored⟩
        (inTurn rest) := by
    unfold losing
    rw [Machine.after_append, hstores]
  rw [hafter]
  refine ⟨hl, hvalue₂, fun u hu => ?_⟩
  rw [hsite₂ u]
  by_cases hur : u ∈ rest
  · rw [if_pos hur]
  · rw [if_neg hur]
    show Function.update s₁.site t Site.stored u = .stored
    by_cases hut : u = t
    · rw [hut, Function.update_self]
    · have hul : u ∈ lost := (hu.resolve_left hut).resolve_right hur
      rw [Function.update_of_ne hut, hsite₁ u, if_pos hul]

/-- **Every such value comes out.**  The others are lost between a load and its store. -/
theorem realized [Fintype ι] (add : ι → M) (first : M) {S : Finset ι} (hS : S.Nonempty) :
    ∃ s, (machine add first).Reachable s ∧ (∀ t, s.site t = .stored) ∧
      s.value = first + ∑ t ∈ S, add t := by
  obtain ⟨t, ht⟩ := hS
  obtain ⟨hl, hvalue, hstored⟩ := losing_run add first (t := t)
    (Finset.univ \ S).nodup_toList (S.erase t).nodup_toList (by simp [ht]) (by simp)
    (by
      intro u hu
      have huS : u ∈ S := Finset.mem_of_mem_erase (Finset.mem_toList.mp hu)
      simp [huS])
  refine ⟨_, Machine.reachable_after hl, fun u => hstored u ?_, ?_⟩
  · by_cases hut : u = t
    · exact Or.inl hut
    · refine Or.inr ?_
      by_cases huS : u ∈ S
      · exact Or.inr (Finset.mem_toList.mpr (Finset.mem_erase.mpr ⟨hut, huS⟩))
      · exact Or.inl (Finset.mem_toList.mpr (by simp [huS]))
  · rw [hvalue, Finset.sum_map_toList, ← Finset.add_sum_erase S add ht, add_assoc]

end LostUpdate

end LinuxSystems
