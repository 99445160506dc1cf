/-
How the sensors come to their end.

Three things are counted: the threads that main has not created and not joined yet, the
steps of the completion in the phases that are not over, and those of the sensors in
their rounds.  Main's steps lower the first and those of the completion the second.
Those of the sensors lower the third; and where the last to arrive starts the
completion, this is a step of the completion too.
-/
import LinuxSystems.Sensors.Means
import LinuxSystems.Machine.Endless

namespace LinuxSystems.Sensors

variable {N : Nat} {F : Type*} {names : Fin N → String} {K : Nat}
  {d : Nat → Fin N → Fin 10 → F} {s : Sensors N F} {a : Action N} {t : Fin N}

/-! ### What is left to do -/

/-- How far a thread is from the end of its round. -/
def Worker.left : Worker F → Nat
  | .absent => 20
  | .starting => 19
  | .arriving => 18
  | .waiting => 17
  | .loop => 16
  | .processing k _ => 15 - k
  | .returned => 0

/-- What a sensor has left. -/
def sensorLeft (K : Nat) (s : Sensors N F) (t : Fin N) : Nat :=
  20 * (K - s.processed t) + (s.worker t).left

/-- How far the completion is from the end of the phase: two steps for each room that it reports,
and twelve for each that it fills anew. -/
def Completion.left : Completion N F → Nat
  | .idle => 14 * N + 4
  | .report i _ => 12 * N + 3 + 2 * (N - i)
  | .add i _ => 12 * N + 2 + 2 * (N - i)
  | .regenerate i => 12 * (N - i) + 2
  | .fill i n => 12 * (N - (i + 1)) + 3 + (10 - n)
  | .stopCheck => 1
  | .count => 0

/-- What the completion has left. -/
def completionLeft (K : Nat) (s : Sensors N F) : Nat :=
  (14 * N + 5) * (K - s.measurementBarrier.phase) + s.completion.left

/-- What main has left. -/
def mainLeft (s : Sensors N F) : Nat := (N - s.spawned) + (N - s.joined)

def ranks (K : Nat) (s : Sensors N F) : Nat × Nat × Nat :=
  (s.mainLeft, s.completionLeft K, ∑ t, s.sensorLeft K t)

variable [Field F]

/-! ### The completion -/

theorem completionStep_left (hidle : s.completion.isIdle = false)
    (hcount : s.completion.isCount = false) :
    (s.completionStep K d).completion.left < s.completion.left := by
  unfold completionStep
  cases hc : s.completion with
  | idle => simp [hc, Completion.isIdle] at hidle
  | count => simp [hc, Completion.isCount] at hcount
  | stopCheck => exact Nat.zero_lt_one
  | report i mean =>
      by_cases hi : i < N
      · simp only [dif_pos hi, Completion.left]
        omega
      · simp only [dif_neg hi, Completion.left]
        omega
  | add i mean =>
      have hi := i.isLt
      simp only [Completion.left]
      omega
  | regenerate i =>
      by_cases hi : i < N
      · simp only [dif_pos hi, Completion.left]
        omega
      · simp only [dif_neg hi, Completion.left]
        omega
  | fill i n =>
      by_cases hn : n < 10
      · simp only [dif_pos hn, Completion.left]
        omega
      · simp only [dif_neg hn, Completion.left]
        omega

/-- The completion goes on, or comes to the end of its phase. -/
theorem completionLeft_step (hN : 1 ≤ N) (h : Sound K s) (hb : s.measurementBarrier.Sound)
    (ha : s.enabled a) (hactor : a = .completion ∨ a = .complete) :
    (step K d s a).mainLeft = s.mainLeft ∧
      (step K d s a).completionLeft K < s.completionLeft K := by
  rcases hactor with rfl | rfl
  · obtain ⟨hrun, hcount⟩ := ha
    have hidle : s.completion.isIdle = false := by
      rw [h.idle, hrun]
      rfl
    obtain ⟨hbar, -, -, -, hspa, hjoi⟩ := completionStep_frame K d s
    have hless := completionStep_left (K := K) (d := d) hidle hcount
    show (s.completionStep K d).mainLeft = _ ∧ (s.completionStep K d).completionLeft K < _
    unfold mainLeft completionLeft
    rw [hbar, hspa, hjoi]
    exact ⟨rfl, Nat.add_lt_add_left hless _⟩
  · obtain ⟨hrun, hcount⟩ := ha
    have hlt := h.phase_lt hN hb hrun
    refine ⟨rfl, ?_⟩
    show (14 * N + 5) * (K - (s.measurementBarrier.phase + 1)) + (14 * N + 4) <
      (14 * N + 5) * (K - s.measurementBarrier.phase) + s.completion.left
    have hphase : K - s.measurementBarrier.phase = K - (s.measurementBarrier.phase + 1) + 1 := by
      omega
    rw [hphase, Nat.mul_succ]
    omega

/-! ### The sensors -/

/-- What a step of the sensor `t` does to what is left. -/
structure Advances (K : Nat) (t : Fin N) (s s' : Sensors N F) : Prop where
  main : s'.mainLeft = s.mainLeft
  completion : s'.completionLeft K ≤ s.completionLeft K
  own : s'.sensorLeft K t < s.sensorLeft K t
  other : ∀ u, u ≠ t → s'.sensorLeft K u = s.sensorLeft K u

omit [Field F] in
/-- A step on to `x`, in the same round. -/
theorem Advances.goto {s' : Sensors N F} {x : Worker F}
    (hworker : s'.worker = Function.update s.worker t x) (hx : x.left < (s.worker t).left)
    (hprocessed : s'.processed = s.processed)
    (hmain : s'.spawned = s.spawned ∧ s'.joined = s.joined)
    (hphase : s'.measurementBarrier.phase = s.measurementBarrier.phase)
    (hcompletion : s'.completion.left ≤ s.completion.left) : Advances K t s s' where
  main := by
    unfold mainLeft
    rw [hmain.1, hmain.2]
  completion := by
    unfold completionLeft
    rw [hphase]
    exact Nat.add_le_add_left hcompletion _
  own := by
    unfold sensorLeft
    rw [hworker, hprocessed, Function.update_self]
    exact Nat.add_lt_add_left hx _
  other := by
    intro u hu
    unfold sensorLeft
    rw [hworker, hprocessed, Function.update_of_ne hu]

/-- The step that ends `ProcessMeasurement` is one round more. -/
theorem advances_writeMean (h : Sound K s) (hb : s.measurementBarrier.Sound)
    (hcurrent : Current names d s) (ha : s.enabled (.writeMean t)) :
    Advances K t s (step K d s (.writeMean t)) := by
  obtain ⟨k, hk, -⟩ := ha
  obtain ⟨sum, hat⟩ := Worker.eq_processing hk
  have hfit := h.fits t
  simp only [Fits, hat] at hfit
  obtain ⟨-, htok, hpr, hphase⟩ := hfit
  have hrounds := hb.outside t htok
  obtain ⟨hle, -⟩ := hcurrent.sum t k sum hat
  simp only [step, hat]
  refine ⟨rfl, le_rfl, ?_, fun u hu => ?_⟩
  · simp only [sensorLeft, setWorker, setRoom, Function.update_self, hat, Worker.left]
    omega
  · simp only [sensorLeft, setWorker, setRoom, Function.update_of_ne hu]

/-- Whose step it is. -/
def Action.sensor : Action N → Option (Fin N)
  | .start t | .test t | .read t | .writeMean t | .arrive t | .release t => some t
  | .emplace | .join | .completion | .complete => none

theorem advances (h : Sound K s) (hb : s.measurementBarrier.Sound)
    (hcurrent : Current names d s) (ha : s.enabled a) (ht : a.sensor = some t) :
    Advances K t s (step K d s a) := by
  cases a with
  | emplace | join | completion | complete => simp [Action.sensor] at ht
  | writeMean u =>
      obtain rfl : u = t := Option.some.inj ht
      exact advances_writeMean h hb hcurrent ha
  | start u =>
      obtain rfl : u = t := Option.some.inj ht
      have hat : s.worker u = .starting := ha
      refine Advances.goto (x := .loop) rfl ?_ rfl ⟨rfl, rfl⟩ rfl le_rfl
      rw [hat]
      simp [Worker.left]
  | test u =>
      obtain rfl : u = t := Option.some.inj ht
      have hat : s.worker u = .loop := ha
      refine Advances.goto rfl ?_ rfl ⟨rfl, rfl⟩ rfl le_rfl
      rw [hat]
      split <;> simp [Worker.left]
  | read u =>
      obtain rfl : u = t := Option.some.inj ht
      obtain ⟨k, hk, hlt⟩ := ha
      obtain ⟨sum, hat⟩ := Worker.eq_processing hk
      have hidle : s.completion.isIdle = true :=
        h.completion_idle hb (h.token_eq_none (by rw [hat]; simp))
      rw [hcurrent.values_of_idle hidle u, generated_length] at hlt
      simp only [step, hat]
      refine Advances.goto rfl ?_ rfl ⟨rfl, rfl⟩ rfl le_rfl
      simp only [hat, Worker.left]
      omega
  | arrive u =>
      obtain rfl : u = t := Option.some.inj ht
      obtain ⟨hat, htok⟩ := ha
      have hidle := Completion.eq_idle (h.completion_idle hb htok)
      refine Advances.goto rfl ?_ rfl ⟨rfl, rfl⟩ rfl ?_
      · rw [hat]
        simp [Worker.left]
      · simp only [step, hidle]
        split
        · simp only [Completion.left]
          omega
        · exact le_rfl
  | release u =>
      obtain rfl : u = t := Option.some.inj ht
      have hat : s.worker u = .waiting := ha.1
      refine Advances.goto (x := .loop) rfl ?_ rfl ⟨rfl, rfl⟩ rfl le_rfl
      rw [hat]
      simp [Worker.left]

/-! ### That every run comes to an end -/

theorem descends (hN : 1 ≤ N) (hK : 1 ≤ K) :
    (machine names K d).Descends (InvImage Machine.Descent (ranks K)) := by
  intro s a hs ha
  have h := reachable_sound hN hK hs
  have hb := barrier_sound hN hs
  show Machine.Descent (ranks K (step K d s a)) (ranks K s)
  unfold ranks
  rw [Machine.descent_iff]
  cases hsensor : a.sensor with
  | some t =>
      have hgo := advances h hb (reachable_current hN hK hs) ha hsensor
      have hsum : ∑ u, (step K d s a).sensorLeft K u < ∑ u, s.sensorLeft K u := by
        refine Finset.sum_lt_sum (fun u _ => ?_) ⟨t, Finset.mem_univ t, hgo.own⟩
        by_cases hu : u = t
        · rw [hu]
          exact hgo.own.le
        · exact (hgo.other u hu).le
      refine Or.inr ⟨hgo.main, ?_⟩
      rcases hgo.completion.lt_or_eq with hless | heq
      · exact Or.inl hless
      · exact Or.inr ⟨heq, hsum⟩
  | none =>
      cases a with
      | start t | test t | read t | writeMean t | arrive t | release t =>
          simp [Action.sensor] at hsensor
      | emplace =>
          have hlt : s.spawned < N := ha
          left
          simp only [step, dif_pos hlt, mainLeft, setWorker]
          omega
      | join =>
          obtain ⟨-, hlt, -⟩ := ha
          left
          simp only [step, mainLeft]
          omega
      | completion =>
          obtain ⟨hmain, hless⟩ := completionLeft_step (a := .completion) (d := d) hN h hb ha
            (Or.inl rfl)
          exact Or.inr ⟨hmain, Or.inl hless⟩
      | complete =>
          obtain ⟨hmain, hless⟩ := completionLeft_step (a := .complete) (d := d) hN h hb ha
            (Or.inr rfl)
          exact Or.inr ⟨hmain, Or.inl hless⟩

/--
**The sensors come to their end.**  For any number `N ≥ 1` of rooms and any threshold `K ≥ 1`
there is no endless run; and where no step is possible the reports of the `K` phases have been
printed, one after the other and nothing else, and main has joined all threads.
-/
theorem sensors_end (hN : 1 ≤ N) (hK : 1 ≤ K) (names : Fin N → String)
    (d : Nat → Fin N → Fin 10 → F) :
    (∀ run : ℕ → Action N, ¬ (machine names K d).Endless run) ∧
    ∀ s, (machine names K d).Reachable s → (machine names K d).Stuck s →
      s.printed = (List.range K).flatMap (report names d) ∧ s.joined = N := by
  refine ⟨fun run => (descends hN hK).not_endless (InvImage.wf _ Machine.descent_wf), ?_⟩
  intro s hs hstuck
  have h := reachable_sound hN hK hs
  have hb := barrier_sound hN hs
  have hret := h.returned_of_stuck hb hstuck
  -- one that has returned says that the last phase is over
  have hphase : s.measurementBarrier.phase = K := by
    rw [← h.timer]
    exact (h.counts_of_returned hb (hret ⟨0, hN⟩)).2.2
  have hidle : s.completion = .idle := by
    refine Completion.eq_idle (h.completion_idle hb (t := ⟨0, hN⟩) (h.token_eq_none ?_))
    rw [hret ⟨0, hN⟩]
    simp
  refine ⟨?_, ?_⟩
  · rw [(reachable_current hN hK hs).printed, hphase, hidle]
    exact List.append_nil _
  · have hspawned : ¬ s.spawned < N := hstuck .emplace
    have hle := h.main
    by_contra hj
    have hlt : s.joined < N := by omega
    exact hstuck .join ⟨by omega, hlt, hret _⟩

set_option maxRecDepth 4000 in
theorem sensors_end_kitchen :
    ((machine kitchen 1 rising).after (machine kitchen 1 rising).init oneRoundRun).printed =
      (List.range 1).flatMap (report kitchen rising) := by
  refine ((sensors_end (by decide) (by decide) kitchen rising).2 _
    ⟨oneRoundRun, by decide, rfl⟩ ?_).1
  intro a
  cases a with
  | emplace | join | completion | complete => decide
  | start t | test t | read t | writeMean t | arrive t | release t =>
      obtain rfl : t = 0 := Subsingleton.elim _ _
      decide

end LinuxSystems.Sensors
