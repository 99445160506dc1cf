/-
The sensor threads go round together and all come to an end.

The stop flag is set inside the completion of the `K`-th phase, when every thread is
inside the barrier.  Before that phase is over every test of the flag reads false,
and after it every test reads true; so either all threads go another round or none
does, and nobody is left at the barrier for one that has gone.

`Fits` is what is known of a thread at each place in its loop.  Its facts about the
barrier are those of `PhaseBarrier`, which the program runs as a component.
-/
import LinuxSystems.Sensors.Model
import Mathlib.Algebra.Field.Rat

namespace LinuxSystems.Sensors

variable {N : Nat} {F : Type*} {K : Nat} {s : Sensors N F}

/-! ### A thread at each place in its loop -/

/-- What is known of a thread, from where it stands. -/
def Fits (K : Nat) (s : Sensors N F) (t : Fin N) : Prop :=
  match s.worker t with
  | .absent => s.spawned ≤ t ∧ s.measurementBarrier.token t = none ∧
      s.processed t = s.measurementBarrier.rounds t
  | .starting | .loop => t < s.spawned ∧ s.measurementBarrier.token t = none ∧
      s.processed t = s.measurementBarrier.rounds t
  | .processing _ _ => t < s.spawned ∧ s.measurementBarrier.token t = none ∧
      s.processed t = s.measurementBarrier.rounds t ∧ s.measurementBarrier.phase < K
  | .arriving => t < s.spawned ∧ s.measurementBarrier.token t = none ∧
      s.processed t = s.measurementBarrier.rounds t + 1 ∧ s.measurementBarrier.phase < K
  | .waiting => t < s.spawned ∧ (∃ p < K, s.measurementBarrier.token t = some p) ∧
      s.processed t = s.measurementBarrier.rounds t + 1
  | .returned => t < s.spawned ∧ s.measurementBarrier.token t = none ∧
      s.processed t = s.measurementBarrier.rounds t ∧ s.measurementBarrier.phase = K

/-- The completion runs when the barrier says so, and the flag is set in its `K`-th run. -/
structure Sound (K : Nat) (s : Sensors N F) : Prop where
  fits : ∀ t, Fits K s t
  idle : s.completion.isIdle = !s.measurementBarrier.completing
  timer : s.timer = s.measurementBarrier.phase
  stop : s.stopRequested = true ↔ s.measurementBarrier.phase = K ∨
    (s.measurementBarrier.phase + 1 = K ∧ s.completion.isCount = true)
  last : s.measurementBarrier.phase ≤ K
  main : s.spawned ≤ N ∧ s.joined ≤ N

namespace Sound

/-- Who is inside the barrier stands at `arrive_and_wait`, in one of the first `K` phases. -/
theorem waiting_of_token (h : Sound K s) {t : Fin N} {p : Nat}
    (ht : s.measurementBarrier.token t = some p) :
    s.worker t = .waiting ∧ p < K ∧ t < s.spawned ∧
      s.processed t = s.measurementBarrier.rounds t + 1 := by
  have hfit := h.fits t
  unfold Fits at hfit
  split at hfit <;> simp_all

/-- A thread is at any other place only when it is outside the barrier. -/
theorem token_eq_none (h : Sound K s) {t : Fin N} (ht : s.worker t ≠ .waiting) :
    s.measurementBarrier.token t = none := by
  by_contra hc
  obtain ⟨p, hp⟩ := Option.ne_none_iff_exists'.mp hc
  exact ht (h.waiting_of_token hp).1

/-- The threads that main has not created yet are the ones that have not begun. -/
theorem absent_of_le (h : Sound K s) {t : Fin N} (ht : s.spawned ≤ t) : s.worker t = .absent := by
  have hfit := h.fits t
  cases hw : s.worker t with
  | absent => rfl
  | starting | loop | processing | arriving | waiting | returned =>
      simp only [Fits, hw] at hfit
      omega

end Sound

/-- `Fits` looks at the thread's own part of the state, and at the phase. -/
theorem Fits.congr {s' : Sensors N F} {t : Fin N} (h : Fits K s t)
    (hworker : s'.worker t = s.worker t) (hprocessed : s'.processed t = s.processed t)
    (htoken : s'.measurementBarrier.token t = s.measurementBarrier.token t)
    (hrounds : s'.measurementBarrier.rounds t = s.measurementBarrier.rounds t)
    (hphase : s'.measurementBarrier.phase = s.measurementBarrier.phase)
    (hspawned : s'.spawned = s.spawned) : Fits K s' t := by
  unfold Fits at *
  rw [hworker, hprocessed, htoken, hrounds, hphase, hspawned]
  exact h

namespace Sound

/-- A step of one thread that the barrier takes no part in. -/
theorem move {s' : Sensors N F} {t : Fin N} (h : Sound K s)
    (hbarrier : s'.measurementBarrier = s.measurementBarrier)
    (hcompletion : s'.completion = s.completion) (htimer : s'.timer = s.timer)
    (hstop : s'.stopRequested = s.stopRequested)
    (hmain : s'.spawned = s.spawned ∧ s'.joined = s.joined)
    (hothers : ∀ u, u ≠ t → s'.worker u = s.worker u ∧ s'.processed u = s.processed u)
    (hfits : Fits K s' t) : Sound K s' where
  fits := by
    intro u
    by_cases hu : u = t
    · rw [hu]
      exact hfits
    · obtain ⟨hworker, hprocessed⟩ := hothers u hu
      exact (h.fits u).congr hworker hprocessed (by rw [hbarrier]) (by rw [hbarrier])
        (by rw [hbarrier]) hmain.1
  idle := by rw [hbarrier, hcompletion]; exact h.idle
  timer := by rw [hbarrier, htimer]; exact h.timer
  stop := by rw [hbarrier, hcompletion, hstop]; exact h.stop
  last := by rw [hbarrier]; exact h.last
  main := by rw [hmain.1, hmain.2]; exact h.main

/-- While the completion runs there is a phase to come. -/
theorem phase_lt (h : Sound K s) (hN : 1 ≤ N) (hb : s.measurementBarrier.Sound)
    (hc : s.measurementBarrier.completing = true) : s.measurementBarrier.phase < K :=
  (h.waiting_of_token (hb.token_of_completing hc ⟨0, hN⟩)).2.1

/-- Somebody who is outside the barrier keeps the completion from running. -/
theorem completion_idle (h : Sound K s) (hb : s.measurementBarrier.Sound) {t : Fin N}
    (ht : s.measurementBarrier.token t = none) : s.completion.isIdle = true := by
  rw [h.idle]
  by_contra hc
  have hrun : s.measurementBarrier.completing = true := by simpa using hc
  rw [hb.token_of_completing hrun t] at ht
  exact absurd ht (by simp)

end Sound

variable [Field F] {names : Fin N → String} {d : Nat → Fin N → Fin 10 → F} {a : Action N}

/-! ### The barrier as a component -/

/-- The steps the barrier takes part in. -/
def Action.barrier : Action N → Option (PhaseBarrier.Action (Fin N))
  | .arrive t => some (.arrive t)
  | .release t => some (.release t)
  | .complete => some .complete
  | .emplace | .join | .start _ | .test _ | .read _ | .writeMean _ | .completion => none

/-- What the completion function leaves alone until it returns. -/
theorem completionStep_frame (K : Nat) (d : Nat → Fin N → Fin 10 → F) (s : Sensors N F) :
    (s.completionStep K d).measurementBarrier = s.measurementBarrier ∧
      (s.completionStep K d).worker = s.worker ∧
      (s.completionStep K d).processed = s.processed ∧
      (s.completionStep K d).timer = s.timer ∧
      (s.completionStep K d).spawned = s.spawned ∧
      (s.completionStep K d).joined = s.joined := by
  unfold completionStep
  split <;> try split
  all_goals exact ⟨rfl, rfl, rfl, rfl, rfl, rfl⟩

/-- It goes on, or comes to its last step by looking at the timer. -/
theorem completionStep_stop (hidle : s.completion.isIdle = false)
    (hcount : s.completion.isCount = false) :
    (s.completionStep K d).completion.isIdle = false ∧
      (((s.completionStep K d).completion.isCount = false ∧
          (s.completionStep K d).stopRequested = s.stopRequested) ∨
        ((s.completionStep K d).completion.isCount = true ∧
          (s.completionStep K d).stopRequested =
            (s.stopRequested || decide (K - 1 ≤ s.timer)))) := by
  unfold completionStep
  cases hc : s.completion with
  | idle => simp [hc, Completion.isIdle] at hidle
  | count => simp [hc, Completion.isCount] at hcount
  | stopCheck => exact ⟨rfl, Or.inr ⟨rfl, rfl⟩⟩
  | add i mean => exact ⟨rfl, Or.inl ⟨rfl, rfl⟩⟩
  | report i mean | regenerate i | fill i n =>
      dsimp only
      split <;> exact ⟨rfl, Or.inl ⟨rfl, rfl⟩⟩

theorem step_measurementBarrier (h : a.barrier = none) :
    (step K d s a).measurementBarrier = s.measurementBarrier := by
  cases a with
  | emplace =>
      simp only [step]
      split <;> rfl
  | read t =>
      simp only [step]
      split <;> rfl
  | writeMean t =>
      simp only [step]
      split <;> rfl
  | completion => exact (completionStep_frame K d s).1
  | join | start t | test t => rfl
  | arrive t | release t | complete => simp [Action.barrier] at h

theorem simulatesBarrier (names : Fin N → String) (K : Nat) (d : Nat → Fin N → Fin 10 → F) :
    Machine.Simulates (machine names K d) (PhaseBarrier.machine (Fin N)) Action.barrier
      fun s b => s.measurementBarrier = b where
  init := rfl
  step := by
    rintro s _ a b hb rfl ha
    cases a with
    | arrive t =>
        obtain rfl := Option.some.inj hb
        exact ⟨ha.2, rfl⟩
    | release t =>
        obtain rfl := Option.some.inj hb
        exact ⟨ha.2, rfl⟩
    | complete =>
        obtain rfl := Option.some.inj hb
        exact ⟨ha.1, rfl⟩
    | _ => simp [Action.barrier] at hb
  stutter := by
    rintro s _ a hb rfl ha
    exact step_measurementBarrier hb

theorem barrier_sound (hN : 1 ≤ N) (hs : (machine names K d).Reachable s) :
    s.measurementBarrier.Sound := by
  have : Nonempty (Fin N) := ⟨⟨0, hN⟩⟩
  exact PhaseBarrier.reachable_sound ((simulatesBarrier names K d).component hs)

/-! ### One lemma a step -/

namespace Sound

theorem emplace (h : Sound K s) (ha : s.enabled .emplace) :
    Sound K (step K d s .emplace) := by
  have hlt : s.spawned < N := ha
  simp only [step, dif_pos hlt]
  refine ⟨?_, h.idle, h.timer, h.stop, h.last, hlt, h.main.2⟩
  intro t
  by_cases ht : t = ⟨s.spawned, hlt⟩
  · have hfit := h.fits t
    rw [ht] at hfit ⊢
    simp only [Fits, h.absent_of_le (t := ⟨s.spawned, hlt⟩) (Nat.le_refl _)] at hfit
    simp only [Fits, setWorker, Function.update_self]
    exact ⟨Nat.lt_succ_self _, hfit.2⟩
  · have hne : (t : Nat) ≠ s.spawned := fun hc => ht (Fin.ext hc)
    have hfit := h.fits t
    simp only [Fits, setWorker, Function.update_of_ne ht] at hfit ⊢
    cases hw : s.worker t <;> simp only [hw] at hfit ⊢ <;> exact ⟨by omega, hfit.2⟩

theorem start (h : Sound K s) {t : Fin N} (ha : s.enabled (.start t)) :
    Sound K (step K d s (.start t)) := by
  have hat : s.worker t = .starting := ha
  refine h.move (t := t) rfl rfl rfl rfl ⟨rfl, rfl⟩ ?_ ?_
  · intro u hu
    exact ⟨by simp [step, setWorker, hu], rfl⟩
  · have hfit := h.fits t
    simpa [Fits, hat, step, setWorker] using hfit

theorem test (h : Sound K s) (hb : s.measurementBarrier.Sound) {t : Fin N}
    (ha : s.enabled (.test t)) : Sound K (step K d s (.test t)) := by
  have hat : s.worker t = .loop := ha
  refine h.move (t := t) rfl rfl rfl rfl ⟨rfl, rfl⟩ ?_ ?_
  · intro u hu
    exact ⟨by simp [step, setWorker, hu], rfl⟩
  · have hfit := h.fits t
    simp only [Fits, hat] at hfit
    obtain ⟨hsp, htok, hpr⟩ := hfit
    -- `t` is outside the barrier, so the completion is idle and the flag tells the phase
    have hstop := h.stop
    rw [Completion.isCount_of_isIdle (h.completion_idle hb htok)] at hstop
    simp only [Bool.false_eq_true, and_false, or_false] at hstop
    by_cases hs : s.stopRequested = true
    · simp only [Fits, step, setWorker, Function.update_self, if_pos hs]
      exact ⟨hsp, htok, hpr, hstop.mp hs⟩
    · have hne : s.measurementBarrier.phase ≠ K := fun hc => hs (hstop.mpr hc)
      have hle := h.last
      simp only [Fits, step, setWorker, Function.update_self, if_neg hs]
      exact ⟨hsp, htok, hpr, by omega⟩

theorem read (h : Sound K s) {t : Fin N} (ha : s.enabled (.read t)) :
    Sound K (step K d s (.read t)) := by
  obtain ⟨k, hk, -⟩ := ha
  obtain ⟨sum, hat⟩ := Worker.eq_processing hk
  simp only [step, hat]
  refine h.move (t := t) rfl rfl rfl rfl ⟨rfl, rfl⟩ ?_ ?_
  · intro u hu
    exact ⟨by simp [setWorker, hu], rfl⟩
  · have hfit := h.fits t
    simpa [Fits, hat, setWorker] using hfit

theorem writeMean (h : Sound K s) {t : Fin N} (ha : s.enabled (.writeMean t)) :
    Sound K (step K d s (.writeMean t)) := by
  obtain ⟨k, hk, -⟩ := ha
  obtain ⟨sum, hat⟩ := Worker.eq_processing hk
  simp only [step, hat]
  refine h.move (t := t) rfl rfl rfl rfl ⟨rfl, rfl⟩ ?_ ?_
  · intro u hu
    exact ⟨by simp [setWorker, setRoom, hu], by simp [hu]⟩
  · have hfit := h.fits t
    simpa [Fits, hat, setWorker, setRoom] using hfit

theorem arrive (h : Sound K s) (hb : s.measurementBarrier.Sound) {t : Fin N}
    (ha : s.enabled (.arrive t)) : Sound K (step K d s (.arrive t)) := by
  obtain ⟨hat, htok⟩ := ha
  have hidle := h.completion_idle hb htok
  refine ⟨?_, ?_, h.timer, ?_, h.last, h.main⟩
  · intro u
    by_cases hu : u = t
    · subst hu
      have hfit := h.fits u
      simp only [Fits, hat] at hfit
      obtain ⟨hsp, -, hpr, hlt⟩ := hfit
      simp only [Fits, step, setWorker, Function.update_self]
      exact ⟨hsp, ⟨_, hlt, by simp [PhaseBarrier.next]⟩, hpr⟩
    · refine (h.fits u).congr ?_ rfl ?_ rfl rfl rfl
      · simp [step, setWorker, hu]
      · simp [step, setWorker, PhaseBarrier.next, hu]
  · simp only [step]
    split
    · rename_i hc
      simp [Completion.isIdle, hc]
    · rename_i hc
      simp [hidle, hc]
  · have hcount : (step K d s (.arrive t)).completion.isCount = s.completion.isCount := by
      rw [Completion.isCount_of_isIdle hidle]
      simp only [step]
      split
      · rfl
      · exact Completion.isCount_of_isIdle hidle
    rw [hcount]
    exact h.stop

theorem release (h : Sound K s) {t : Fin N} (ha : s.enabled (.release t)) :
    Sound K (step K d s (.release t)) := by
  obtain ⟨hat, -⟩ := ha
  refine ⟨?_, h.idle, h.timer, h.stop, h.last, h.main⟩
  intro u
  by_cases hu : u = t
  · subst hu
    have hfit := h.fits u
    simp only [Fits, hat] at hfit
    obtain ⟨hsp, -, hpr⟩ := hfit
    simp only [Fits, step, setWorker, Function.update_self]
    exact ⟨hsp, by simp [PhaseBarrier.next], by simp [PhaseBarrier.next, hpr]⟩
  · refine (h.fits u).congr ?_ rfl ?_ ?_ rfl rfl
    · simp [step, setWorker, hu]
    · simp [step, setWorker, PhaseBarrier.next, hu]
    · simp [step, setWorker, PhaseBarrier.next, hu]

theorem completion (h : Sound K s) (hN : 1 ≤ N) (hb : s.measurementBarrier.Sound)
    (ha : s.enabled .completion) : Sound K (step K d s .completion) := by
  obtain ⟨hrun, hcount⟩ := ha
  have hlt := h.phase_lt hN hb hrun
  have hidle : s.completion.isIdle = false := by rw [h.idle, hrun]; rfl
  obtain ⟨hidle', hlast⟩ := completionStep_stop (K := K) (d := d) hidle hcount
  obtain ⟨hbar, hwork, hproc, htim, hspa, hjoi⟩ := completionStep_frame K d s
  show Sound K (s.completionStep K d)
  refine ⟨?_, ?_, by rw [htim, hbar]; exact h.timer, ?_, by rw [hbar]; exact h.last,
    by rw [hspa, hjoi]; exact h.main⟩
  · intro t
    exact (h.fits t).congr (by rw [hwork]) (by rw [hproc]) (by rw [hbar]) (by rw [hbar])
      (by rw [hbar]) hspa
  · rw [hbar, hrun]
    exact hidle'
  · have hstop := h.stop
    rw [hcount] at hstop
    rw [hbar]
    rcases hlast with ⟨hcount', hflag⟩ | ⟨hcount', hflag⟩
    · rw [hcount', hflag]
      exact hstop
    · -- the flag was not set before, and `timer` is the number of phases that are over
      rw [hcount', hflag, Bool.or_eq_true, hstop, decide_eq_true_eq, h.timer]
      simp only [Bool.false_eq_true, and_false, or_false, and_true]
      omega

theorem complete (h : Sound K s) (hN : 1 ≤ N) (hb : s.measurementBarrier.Sound)
    (ha : s.enabled .complete) : Sound K (step K d s .complete) := by
  obtain ⟨hrun, hcount⟩ := ha
  have hlt := h.phase_lt hN hb hrun
  refine ⟨?_, rfl, congrArg (· + 1) h.timer, ?_, hlt, h.main⟩
  · intro t
    obtain ⟨hat, hp, hsp, hpr⟩ := h.waiting_of_token (hb.token_of_completing hrun t)
    show Fits K _ t
    simp only [Fits, step, hat]
    exact ⟨hsp, ⟨_, hp, hb.token_of_completing hrun t⟩, hpr⟩
  · have hstop := h.stop
    rw [hcount] at hstop
    show s.stopRequested = true ↔ _
    rw [hstop]
    constructor
    · rintro (hc | ⟨hc, -⟩)
      · omega
      · exact Or.inl hc
    · rintro (hc | ⟨-, hc⟩)
      · exact Or.inr ⟨hc, rfl⟩
      · simp [step, Completion.isCount] at hc

end Sound

theorem reachable_sound (hN : 1 ≤ N) (hK : 1 ≤ K) (hs : (machine names K d).Reachable s) :
    Sound K s := by
  refine hs.invariant (P := Sound K) ?_ ?_
  · refine ⟨fun t => ?_, rfl, rfl, ?_, Nat.zero_le _, Nat.zero_le _, Nat.zero_le _⟩
    · exact ⟨Nat.zero_le _, rfl, rfl⟩
    · simp only [machine, PhaseBarrier.start, Completion.isCount]
      constructor
      · simp
      · intro hc
        simp at hc
        omega
  · intro s a hs h ha
    have hb := barrier_sound hN hs
    show Sound K (step K d s a)
    cases a with
    | emplace => exact h.emplace ha
    | join =>
        obtain ⟨-, hlt, -⟩ := ha
        exact ⟨h.fits, h.idle, h.timer, h.stop, h.last, h.main.1, hlt⟩
    | start t => exact h.start ha
    | test t => exact h.test hb ha
    | read t => exact h.read ha
    | writeMean t => exact h.writeMean ha
    | arrive t => exact h.arrive hb ha
    | release t => exact h.release ha
    | completion => exact h.completion hN hb ha
    | complete => exact h.complete hN hb ha

/-! ### Lockstep, and no deadlock -/

namespace Sound

omit [Field F] in
/-- Everybody has processed the measurements of the phases that are over, and perhaps those of
the current one. -/
theorem processed_eq (h : Sound K s) (hb : s.measurementBarrier.Sound) (t : Fin N) :
    s.processed t = s.measurementBarrier.phase ∨
      s.processed t = s.measurementBarrier.phase + 1 := by
  cases htok : s.measurementBarrier.token t with
  | none =>
      have hr := hb.outside t htok
      have hfit := h.fits t
      unfold Fits at hfit
      split at hfit <;> simp_all
  | some p =>
      obtain ⟨hr, hp⟩ := hb.inside t p htok
      have hpr := (h.waiting_of_token htok).2.2.2
      omega

omit [Field F] in
/-- Once a thread has left its loop the last phase is over: nobody is inside the barrier
except to leave it, and nobody is on the way to it. -/
theorem of_returned (h : Sound K s) {t : Fin N} (ht : s.worker t = .returned) (u : Fin N) :
    (∀ p, s.measurementBarrier.token u = some p → p < s.measurementBarrier.phase) ∧
      s.worker u ≠ .arriving := by
  have hfit := h.fits t
  simp only [Fits, ht] at hfit
  have hphase := hfit.2.2.2
  refine ⟨fun p hp => ?_, fun hu => ?_⟩
  · rw [hphase]
    exact (h.waiting_of_token hp).2.1
  · have hfit' := h.fits u
    simp only [Fits, hu] at hfit'
    omega

omit [Field F] in
/-- Where no step is possible all threads have returned. -/
theorem returned_of_stuck (h : Sound K s) (hb : s.measurementBarrier.Sound)
    (hstuck : ∀ a, ¬ s.enabled a) (t : Fin N) : s.worker t = .returned := by
  have hrun : s.measurementBarrier.completing = false := by
    by_contra hc
    have hc' : s.measurementBarrier.completing = true := by simpa using hc
    cases hcount : s.completion.isCount with
    | false => exact hstuck .completion ⟨hc', hcount⟩
    | true => exact hstuck .complete ⟨hc', hcount⟩
  have hspawned : s.spawned = N := by
    have hlt : ¬ s.spawned < N := hstuck .emplace
    have hle := h.main.1
    omega
  -- each thread waits for the current phase or has returned
  have hplace : ∀ u, s.measurementBarrier.token u = some s.measurementBarrier.phase ∨
      s.worker u = .returned := by
    intro u
    have hfit := h.fits u
    cases hw : s.worker u with
    | absent =>
        simp only [Fits, hw] at hfit
        omega
    | starting => exact absurd hw (hstuck (.start u))
    | loop => exact absurd hw (hstuck (.test u))
    | processing k sum =>
        have hpos : k ∈ (s.worker u).position := by rw [hw]; rfl
        rcases Nat.lt_or_ge k (s.roomTemperatures u).values.length with hlt | hge
        · exact absurd ⟨k, hpos, hlt⟩ (hstuck (.read u))
        · exact absurd ⟨k, hpos, hge⟩ (hstuck (.writeMean u))
    | arriving =>
        simp only [Fits, hw] at hfit
        exact absurd ⟨hw, hfit.2.1⟩ (hstuck (.arrive u))
    | waiting =>
        simp only [Fits, hw] at hfit
        obtain ⟨-, ⟨p, -, hp⟩, -⟩ := hfit
        have hnot : ¬ p < s.measurementBarrier.phase := fun hc =>
          hstuck (.release u) ⟨hw, p, hp, hc⟩
        have hcases := (hb.inside u p hp).2
        have hpe : p = s.measurementBarrier.phase := by omega
        exact Or.inl (hpe ▸ hp)
    | returned => exact Or.inr rfl
  -- one has returned, or the barrier would be full; so the last phase is over
  obtain ⟨u, hu⟩ := hb.exists_token_ne hrun
  have hret : s.worker u = .returned := (hplace u).resolve_left hu
  refine (hplace t).resolve_left fun hc => ?_
  exact absurd ((h.of_returned hret t).1 _ hc) (Nat.lt_irrefl _)

omit [Field F] in
/-- A thread that has returned has been round `K` times. -/
theorem counts_of_returned (h : Sound K s) (hb : s.measurementBarrier.Sound) {t : Fin N}
    (ht : s.worker t = .returned) :
    s.processed t = K ∧ s.measurementBarrier.rounds t = K ∧ s.timer = K := by
  have hfit := h.fits t
  simp only [Fits, ht] at hfit
  obtain ⟨-, htok, hpr, hphase⟩ := hfit
  have hrounds := hb.outside t htok
  have htimer := h.timer
  omega

end Sound

/-- A thread that has returned stays so: every step of a thread is taken from another place. -/
theorem returned_keep (ha : s.enabled a) {t : Fin N} (ht : s.worker t = .returned)
    (hs : Sound K s) : (step K d s a).worker t = .returned := by
  have hkeep : ∀ {u : Fin N} {w : Worker F} (x : Worker F), s.worker u = w → w ≠ .returned →
      Function.update s.worker u x t = .returned := by
    intro u w x hu hw
    have hne : t ≠ u := by
      rintro rfl
      exact hw (hu.symm.trans ht)
    rw [Function.update_of_ne hne]
    exact ht
  cases a with
  | emplace =>
      have hlt : s.spawned < N := ha
      have hfit := hs.fits t
      simp only [Fits, ht] at hfit
      have hne : t ≠ ⟨s.spawned, hlt⟩ := by
        rintro rfl
        exact absurd hfit.1 (Nat.lt_irrefl _)
      simp only [step, dif_pos hlt, setWorker, Function.update_of_ne hne]
      exact ht
  | join => exact ht
  | start u => exact hkeep _ (show s.worker u = .starting from ha) (by simp)
  | test u => exact hkeep _ (show s.worker u = .loop from ha) (by simp)
  | read u =>
      obtain ⟨k, hk, -⟩ := ha
      obtain ⟨sum, hat⟩ := Worker.eq_processing hk
      simp only [step, hat]
      exact hkeep _ hat (by simp)
  | writeMean u =>
      obtain ⟨k, hk, -⟩ := ha
      obtain ⟨sum, hat⟩ := Worker.eq_processing hk
      simp only [step, hat]
      exact hkeep _ hat (by simp)
  | arrive u => exact hkeep _ ha.1 (by simp)
  | release u => exact hkeep _ ha.1 (by simp)
  | completion =>
      rw [show (step K d s .completion).worker = s.worker from (completionStep_frame K d s).2.1]
      exact ht
  | complete => exact ht

/--
**The sensor threads run in lockstep and all return.**  For any number `N ≥ 1` of rooms and any
threshold `K ≥ 1`: where no step is possible, every thread has returned after `K` calls of
`ProcessMeasurement` and `K` returns from the barrier, the completion has run `K` times
and main has joined all threads; the counts of two threads never differ by more than
one; and once some thread has left its loop nobody waits for a phase that is not over
and nobody ever arrives at the barrier again.
-/
theorem sensors_lockstep (N K : Nat) (hN : 1 ≤ N) (hK : 1 ≤ K) (names : Fin N → String)
    (d : Nat → Fin N → Fin 10 → F) :
    (∀ s, (machine names K d).Reachable s → (machine names K d).Stuck s →
      (∀ t, s.worker t = .returned ∧ s.processed t = K ∧ s.measurementBarrier.rounds t = K) ∧
        s.timer = K ∧ s.joined = N) ∧
    (∀ s, (machine names K d).Reachable s → ∀ t u, s.processed t ≤ s.processed u + 1 ∧
      s.measurementBarrier.rounds t ≤ s.measurementBarrier.rounds u + 1) ∧
    ∀ s, (machine names K d).Reachable s → ∀ t, s.worker t = .returned →
      (∀ u p, s.measurementBarrier.token u = some p → p < s.measurementBarrier.phase) ∧
        ∀ tr, (machine names K d).Legal s tr → ∀ u, .arrive u ∉ tr := by
  refine ⟨?_, ?_, ?_⟩
  · intro s hs hstuck
    have h := reachable_sound hN hK hs
    have hb := barrier_sound hN hs
    have hret := h.returned_of_stuck hb hstuck
    refine ⟨fun t => ?_, (h.counts_of_returned hb (hret ⟨0, hN⟩)).2.2, ?_⟩
    · obtain ⟨hpr, hr, -⟩ := h.counts_of_returned hb (hret t)
      exact ⟨hret t, hpr, hr⟩
    · have hspawned : ¬ s.spawned < N := hstuck .emplace
      have hle := h.main
      by_contra hj
      have hlt : s.joined < N := by omega
      exact hstuck .join ⟨by omega, hlt, hret _⟩
  · intro s hs t u
    have h := reachable_sound hN hK hs
    have hb := barrier_sound hN hs
    have ht := h.processed_eq hb t
    have hu := h.processed_eq hb u
    exact ⟨by omega, hb.rounds_le t u⟩
  · intro s hs t ht
    refine ⟨fun u => ((reachable_sound hN hK hs).of_returned ht u).1, ?_⟩
    intro tr hl u
    induction tr generalizing s with
    | nil => simp
    | cons a tr ih =>
        have h := reachable_sound hN hK hs
        rw [List.mem_cons, not_or]
        refine ⟨?_, ih _ (hs.next hl.1) (returned_keep hl.1 ht h) hl.2⟩
        rintro rfl
        exact (h.of_returned ht u).2 hl.1.1

/-- One room. -/
def kitchen : Fin 1 → String := fun _ => "kitchen"

/-- Measurements that rise by one degree. -/
def rising : Nat → Fin 1 → Fin 10 → ℚ := fun r _ n => ((r + n : Nat) : ℚ)

/-- One room and one round, to the end. -/
def oneRoundRun : List (Action 1) :=
  [.emplace, .start 0, .test 0] ++ List.replicate 10 (.read 0) ++ [.writeMean 0, .arrive 0] ++
    List.replicate 17 .completion ++ [.complete, .release 0, .test 0, .join]

set_option maxRecDepth 4000 in
/-- The kitchen alone, measured once: when no step is possible its thread has been round once. -/
theorem sensors_lockstep_kitchen :
    (((machine kitchen 1 rising).after (machine kitchen 1 rising).init oneRoundRun).worker 0
        = .returned ∧
      ((machine kitchen 1 rising).after (machine kitchen 1 rising).init oneRoundRun).processed 0
        = 1 ∧
      ((machine kitchen 1 rising).after (machine kitchen 1 rising).init
        oneRoundRun).measurementBarrier.rounds 0 = 1) := by
  refine ((sensors_lockstep 1 1 (by decide) (by decide) kitchen rising).1 _
    ⟨oneRoundRun, by decide, rfl⟩ ?_).1 0
  intro a
  cases a with
  | emplace | join | completion | complete => decide
  | start t | test t | read t | writeMean t | arrive t | release t =>
      obtain rfl : t = 0 := Subsingleton.elim _ _
      decide

end LinuxSystems.Sensors
