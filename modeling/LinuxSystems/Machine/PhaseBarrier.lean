/-
A cyclic barrier with a completion.

A fixed number of participants meet at the barrier again and again.  Each says that
it has arrived and is held until the phase it arrived in is over; the last one to
arrive starts the completion of the phase, and when the completion is done the next
phase begins and everybody who waits for the old one may go.  Whoever is slow to
leave still waits for a phase that is over.

The barrier itself only counts arrivals.  That the count is right, and that the
participants stay together, is `Sound`: one who is outside has been round as often
as there are completed phases, and one who is inside waits for the current phase or
for the one just over.
-/
import LinuxSystems.Machine.Simulation
import Mathlib.Data.Fintype.Card

namespace LinuxSystems

/-- `rounds` is a history: how often each participant has been let go. -/
structure PhaseBarrier (ι : Type*) where
  /-- How many phases are over. -/
  phase : Nat
  /-- How many participants have arrived in the current phase. -/
  arrived : Nat
  /-- The phase whose end a participant waits for. -/
  token : ι → Option Nat
  completing : Bool
  rounds : ι → Nat

namespace PhaseBarrier

variable {ι : Type*}

inductive Action (ι : Type*) where
  | arrive (t : ι)
  /-- The completion returns. -/
  | complete
  | release (t : ι)
  deriving DecidableEq

def enabled (s : PhaseBarrier ι) : Action ι → Prop
  | .arrive t => s.token t = none
  | .complete => s.completing = true
  | .release t => ∃ p ∈ s.token t, p < s.phase

instance (s : PhaseBarrier ι) : ∀ a, Decidable (s.enabled a)
  | .arrive t => inferInstanceAs (Decidable (s.token t = none))
  | .complete => inferInstanceAs (Decidable (s.completing = true))
  | .release t => inferInstanceAs (Decidable (∃ p ∈ s.token t, p < s.phase))

variable [DecidableEq ι] [Fintype ι]

def next (s : PhaseBarrier ι) : Action ι → PhaseBarrier ι
  | .arrive t =>
      { s with arrived := s.arrived + 1
               token := Function.update s.token t (some s.phase)
               completing := decide (s.arrived + 1 = Fintype.card ι) }
  | .complete => { s with phase := s.phase + 1, arrived := 0, completing := false }
  | .release t =>
      { s with token := Function.update s.token t none
               rounds := Function.update s.rounds t (s.rounds t + 1) }

/-- A barrier for the participants `ι`, nobody of whom has arrived. -/
def start (ι : Type*) : PhaseBarrier ι := ⟨0, 0, fun _ => none, false, fun _ => 0⟩

def machine (ι : Type*) [DecidableEq ι] [Fintype ι] : Machine (PhaseBarrier ι) (Action ι) where
  init := start ι
  enabled := enabled
  next := next

/-- Those who have arrived in the current phase. -/
def waiting (s : PhaseBarrier ι) : Finset ι := {t | s.token t = some s.phase}

omit [DecidableEq ι] in
theorem mem_waiting {s : PhaseBarrier ι} {t : ι} : t ∈ s.waiting ↔ s.token t = some s.phase := by
  simp [waiting]

/-! ### What a step does to those who wait -/

theorem waiting_arrive (s : PhaseBarrier ι) (t : ι) :
    (s.next (.arrive t)).waiting = insert t s.waiting := by
  ext u
  rw [mem_waiting, Finset.mem_insert, mem_waiting]
  show Function.update s.token t (some s.phase) u = some s.phase ↔ _
  by_cases h : u = t
  · simp [h]
  · simp [h]

/-- Who is let go did not wait for the current phase. -/
theorem waiting_release {s : PhaseBarrier ι} {t : ι} (h : s.enabled (.release t)) :
    (s.next (.release t)).waiting = s.waiting := by
  obtain ⟨p, hp, hlt⟩ := h
  have hp' : s.token t = some p := hp
  ext u
  rw [mem_waiting, mem_waiting]
  show Function.update s.token t none u = some s.phase ↔ _
  by_cases h : u = t
  · subst h
    rw [Function.update_self, hp', Option.some.injEq]
    constructor
    · intro hc
      simp at hc
    · omega
  · rw [Function.update_of_ne h]

/-! ### What always holds -/

/-- The count is the number of those who wait, and everybody has been round as often as
everybody else, or one time more. -/
structure Sound (s : PhaseBarrier ι) : Prop where
  outside : ∀ t, s.token t = none → s.rounds t = s.phase
  inside : ∀ t p, s.token t = some p → s.rounds t = p ∧ (p = s.phase ∨ p + 1 = s.phase)
  counted : s.arrived = s.waiting.card
  full : s.completing = true ↔ s.arrived = Fintype.card ι

namespace Sound

variable {s : PhaseBarrier ι}

omit [DecidableEq ι] in
/-- While the completion runs everybody waits for the current phase. -/
theorem token_of_completing (h : Sound s) (hc : s.completing = true) (t : ι) :
    s.token t = some s.phase := by
  have hcard : s.waiting.card = Fintype.card ι := by
    rw [← h.counted]
    exact h.full.mp hc
  have hall : s.waiting = Finset.univ := Finset.card_eq_iff_eq_univ _ |>.mp hcard
  exact mem_waiting.mp (hall ▸ Finset.mem_univ t)

omit [DecidableEq ι] in
/-- While it does not run somebody is still to arrive. -/
theorem exists_token_ne (h : Sound s) (hc : s.completing = false) :
    ∃ t, s.token t ≠ some s.phase := by
  by_contra hall
  simp only [not_exists, not_not] at hall
  have huniv : s.waiting = Finset.univ := by
    ext t
    simp [mem_waiting, hall t]
  have hfull : s.completing = true := h.full.mpr (by rw [h.counted, huniv, Finset.card_univ])
  rw [hc] at hfull
  exact absurd hfull (by simp)

omit [DecidableEq ι] in
theorem rounds_eq (h : Sound s) (t : ι) : s.rounds t = s.phase ∨ s.rounds t + 1 = s.phase := by
  cases ht : s.token t with
  | none => exact Or.inl (h.outside t ht)
  | some p =>
      obtain ⟨hr, hp⟩ := h.inside t p ht
      rwa [hr]

omit [DecidableEq ι] in
/-- **Lockstep.**  The rounds of two participants differ by at most one. -/
theorem rounds_le (h : Sound s) (t u : ι) : s.rounds t ≤ s.rounds u + 1 := by
  have ht := h.rounds_eq t
  have hu := h.rounds_eq u
  omega

theorem arrive (h : Sound s) {t : ι} (ht : s.token t = none) : Sound (s.next (.arrive t)) where
  outside := by
    intro u hu
    have hne : u ≠ t := by
      rintro rfl
      simp [next] at hu
    exact h.outside u (by simpa [next, hne] using hu)
  inside := by
    intro u p hu
    by_cases hut : u = t
    · subst hut
      have hp : s.phase = p := by simpa [next] using hu
      exact ⟨hp ▸ h.outside u ht, Or.inl hp.symm⟩
    · exact h.inside u p (by simpa [next, hut] using hu)
  counted := by
    have hnot : t ∉ s.waiting := fun hc => by
      rw [mem_waiting, ht] at hc
      simp at hc
    rw [waiting_arrive, Finset.card_insert_of_notMem hnot, ← h.counted]
    rfl
  full := by simp [next]

theorem complete [Nonempty ι] (h : Sound s) (hc : s.completing = true) :
    Sound (s.next .complete) where
  outside := by
    intro t ht
    rw [show (s.next .complete).token t = s.token t from rfl, h.token_of_completing hc t] at ht
    simp at ht
  inside := by
    intro t p ht
    have hp : s.phase = p :=
      Option.some.inj ((h.token_of_completing hc t).symm.trans ht)
    subst hp
    exact ⟨(h.inside t _ ht).1, Or.inr rfl⟩
  counted := by
    have hnone : (s.next .complete).waiting = ∅ := by
      ext t
      rw [mem_waiting]
      show s.token t = some (s.phase + 1) ↔ _
      rw [h.token_of_completing hc t]
      simp
    rw [hnone, Finset.card_empty]
    rfl
  full := by
    have hpos : 0 < Fintype.card ι := Fintype.card_pos
    show false = true ↔ 0 = Fintype.card ι
    constructor
    · simp
    · omega

theorem release (h : Sound s) {t : ι} (ht : s.enabled (.release t)) :
    Sound (s.next (.release t)) where
  outside := by
    intro u hu
    by_cases hut : u = t
    · subst hut
      obtain ⟨p, hp, hlt⟩ := ht
      obtain ⟨hr, hph⟩ := h.inside u p hp
      show Function.update s.rounds u (s.rounds u + 1) u = s.phase
      rw [Function.update_self]
      omega
    · simpa [next, hut] using h.outside u (by simpa [next, hut] using hu)
  inside := by
    intro u p hu
    have hne : u ≠ t := by
      rintro rfl
      simp [next] at hu
    simpa [next, hne] using h.inside u p (by simpa [next, hne] using hu)
  counted := by
    rw [waiting_release ht, ← h.counted]
    rfl
  full := h.full

end Sound

/-- **The count is right in every reachable state**, whatever the participants do. -/
theorem reachable_sound [Nonempty ι] {s : PhaseBarrier ι} (hs : (machine ι).Reachable s) :
    Sound s := by
  refine hs.invariant (P := Sound) ?_ ?_
  · refine ⟨fun _ _ => rfl, fun t p ht => ?_, ?_, ?_⟩
    · simp [machine, start] at ht
    · simp [machine, start, waiting]
    · have hpos : 0 < Fintype.card ι := Fintype.card_pos
      simp only [machine, start]
      constructor
      · simp
      · omega
  · intro s a _ h ha
    cases a with
    | arrive t => exact h.arrive ha
    | complete => exact h.complete ha
    | release t => exact h.release ha

end PhaseBarrier

end LinuxSystems
