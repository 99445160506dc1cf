/-
Every reported mean is the mean of the current round's measurements.

The lists and the means of the rooms are shared without a lock.  While the
completion runs, all threads are inside the barrier, so it reads means that nobody
writes and rewrites lists that nobody reads; while it does not run, the lists are
those of the current generation and each thread touches its own room only.
`Current` says what every list holds at each place in the completion, whose mean is
up to date, and what has been printed.
-/
import LinuxSystems.Sensors.Lockstep
import Mathlib.Algebra.BigOperators.Group.List.Basic
import Mathlib.Data.List.GetD

namespace LinuxSystems.Sensors

variable {N : Nat} {F : Type*} [Field F] {names : Fin N → String} {K : Nat}
  {d : Nat → Fin N → Fin 10 → F} {s : Sensors N F} {a : Action N}

/-! ### What is to be reported -/

/-- The mean of a list of measurements. -/
def meanOf (values : List F) : F := values.sum / values.length

omit [Field F] in
/-- The list that the `r`-th generation makes for room `t`. -/
def generated (d : Nat → Fin N → Fin 10 → F) (r : Nat) (t : Fin N) : List F := List.ofFn (d r t)

/-- The means of the `r`-th generation, room by room. -/
def means (d : Nat → Fin N → Fin 10 → F) (r : Nat) : List F :=
  List.ofFn fun t => meanOf (generated d r t)

/-- The lines to be printed in phase `r`: every room with the mean of its own list, and the mean
of these means. -/
def report (names : Fin N → String) (d : Nat → Fin N → Fin 10 → F) (r : Nat) : List (Line F) :=
  List.ofFn (fun t => .room (names t) (meanOf (generated d r t))) ++ [.home ((means d r).sum / N)]

omit [Field F] in
@[simp] theorem generated_length (r : Nat) (t : Fin N) : (generated d r t).length = 10 :=
  List.length_ofFn

@[simp] theorem means_length (r : Nat) : (means d r).length = N := by
  simp [means]

@[simp] theorem report_length (r : Nat) : (report names d r).length = N + 1 := by
  simp [report]

omit [Field F] in
theorem ofFn_take_succ {n : Nat} (f : Fin n → F) (i : Fin n) :
    (List.ofFn f).take (i + 1) = (List.ofFn f).take i ++ [f i] := by
  rw [List.take_succ_eq_append_getElem (by simp)]
  simp

/-- The lines up to room `i`, and the line of room `i`. -/
theorem report_take_succ (r : Nat) (i : Fin N) :
    (report names d r).take (i + 1) =
      (report names d r).take i ++ [.room (names i) (meanOf (generated d r i))] := by
  rw [List.take_succ_eq_append_getElem (by rw [report_length]; omega)]
  simp [report]

/-- All the rooms, and the line of the home. -/
theorem report_take_home (r : Nat) :
    (report names d r).take (N + 1) =
      (report names d r).take N ++ [.home ((means d r).sum / N)] := by
  rw [List.take_of_length_le (by simp)]
  simp [report]

theorem means_take_succ (r : Nat) (i : Fin N) :
    ((means d r).take (i + 1)).sum = ((means d r).take i).sum + meanOf (generated d r i) := by
  rw [List.sum_take_succ _ _ (by simp)]
  simp [means]

/-! ### `GetTemperatures` without interruption -/

omit [Field F] in
theorem foldl_emplaceBack (f : Fin 10 → F) (l : List (Fin 10)) (temp : Temperature F) :
    l.foldl (fun temp n => temp.emplaceBack (f n)) temp =
      { temp with values := temp.values ++ l.map f } := by
  induction l generalizing temp with
  | nil => simp
  | cons n l ih =>
      rw [List.foldl_cons, ih]
      simp [Temperature.emplaceBack]

omit [Field F] in
/-- It leaves ten new values and nothing of what was there. -/
theorem getTemperatures_eq (f : Fin 10 → F) (temp : Temperature F) :
    getTemperatures f temp = { temp with values := List.ofFn f } := by
  unfold getTemperatures
  rw [foldl_emplaceBack, List.ofFn_eq_map]
  rfl

/-! ### What the rooms hold -/

/-- What the list of room `t` holds in phase `r`, from where the completion stands. -/
def Completion.holds (d : Nat → Fin N → Fin 10 → F) (r : Nat) (t : Fin N) :
    Completion N F → List F
  | .idle | .report _ _ | .add _ _ => generated d r t
  | .regenerate i => if t < i then generated d (r + 1) t else generated d r t
  | .fill i n =>
      if t < i then generated d (r + 1) t
      else if t = i then (generated d (r + 1) t).take n
      else generated d r t
  | .stopCheck | .count => generated d (r + 1) t

/-- How many lines of its phase it has printed. -/
def Completion.lines : Completion N F → Nat
  | .idle => 0
  | .report i _ => i
  | .add i _ => i + 1
  | .regenerate _ | .fill _ _ | .stopCheck | .count => N + 1

/-- It counts no further than its loops go, and adds up the means it has printed. -/
def Completion.inStep (d : Nat → Fin N → Fin 10 → F) (r : Nat) : Completion N F → Prop
  | .report i mean => i ≤ N ∧ mean = ((means d r).take i).sum
  | .add i mean => mean = ((means d r).take i).sum
  | .regenerate i => i ≤ N
  | .fill _ n => n ≤ 10
  | .idle | .stopCheck | .count => True

/-- The lists and sums are those of the current phase, and so is every mean that has been
written in it. -/
structure Current (names : Fin N → String) (d : Nat → Fin N → Fin 10 → F) (s : Sensors N F) :
    Prop where
  name : ∀ t, (s.roomTemperatures t).name = names t
  values : ∀ t, (s.roomTemperatures t).values =
    s.completion.holds d s.measurementBarrier.phase t
  sum : ∀ t k sum, s.worker t = .processing k sum →
    k ≤ 10 ∧ sum = ((generated d s.measurementBarrier.phase t).take k).sum
  mean : ∀ t, s.worker t = .arriving ∨
      s.measurementBarrier.token t = some s.measurementBarrier.phase →
    (s.roomTemperatures t).mean = meanOf (generated d s.measurementBarrier.phase t)
  inStep : s.completion.inStep d s.measurementBarrier.phase
  printed : s.printed = (List.range s.measurementBarrier.phase).flatMap (report names d) ++
    (report names d s.measurementBarrier.phase).take s.completion.lines

namespace Current

/-- One thread goes to a place that is not after `ProcessMeasurement`. -/
theorem goto (h : Current names d s) (t : Fin N) {x : Worker F}
    (hsum : ∀ k sum, x = .processing k sum →
      k ≤ 10 ∧ sum = ((generated d s.measurementBarrier.phase t).take k).sum)
    (hx : x ≠ .arriving) : Current names d (s.setWorker t x) where
  name := h.name
  values := h.values
  sum := by
    intro u k sum hu
    by_cases hut : u = t
    · subst hut
      exact hsum k sum (by simpa [setWorker] using hu)
    · exact h.sum u k sum (by simpa [setWorker, hut] using hu)
  mean := by
    rintro u (hu | hu)
    · by_cases hut : u = t
      · subst hut
        exact absurd (by simpa [setWorker] using hu) hx
      · exact h.mean u (Or.inl (by simpa [setWorker, hut] using hu))
    · exact h.mean u (Or.inr hu)
  inStep := h.inStep
  printed := h.printed

theorem emplace (h : Current names d s) (ha : s.enabled .emplace) :
    Current names d (step K d s .emplace) := by
  have hlt : s.spawned < N := ha
  simp only [step, dif_pos hlt]
  have hgo := h.goto ⟨s.spawned, hlt⟩ (x := .starting) (by simp) (by simp)
  exact ⟨hgo.name, hgo.values, hgo.sum, hgo.mean, hgo.inStep, hgo.printed⟩

theorem test (h : Current names d s) {t : Fin N} : Current names d (step K d s (.test t)) := by
  by_cases hstop : s.stopRequested = true
  · simp only [step, if_pos hstop]
    exact h.goto t (by simp) (by simp)
  · simp only [step, if_neg hstop]
    refine h.goto t ?_ (by simp)
    intro k sum hk
    obtain ⟨rfl, rfl⟩ : 0 = k ∧ 0 = sum := by simpa using hk
    simp

/-- While a thread is outside the barrier, its list is the one of the current generation. -/
theorem values_of_idle (h : Current names d s) (hidle : s.completion.isIdle = true) (t : Fin N) :
    (s.roomTemperatures t).values = generated d s.measurementBarrier.phase t := by
  rw [h.values t, Completion.eq_idle hidle]
  rfl

theorem read (h : Current names d s) (hidle : s.completion.isIdle = true) {t : Fin N}
    (ha : s.enabled (.read t)) : Current names d (step K d s (.read t)) := by
  obtain ⟨k, hk, hlt⟩ := ha
  obtain ⟨sum, hat⟩ := Worker.eq_processing hk
  have hvalues := h.values_of_idle hidle t
  rw [hvalues, generated_length] at hlt
  simp only [step, hat]
  refine h.goto t ?_ (by simp)
  intro k' sum' hk'
  obtain ⟨rfl, rfl⟩ : k + 1 = k' ∧ sum + (s.roomTemperatures t).values.getD k 0 = sum' := by
    simpa using hk'
  obtain ⟨-, hsum⟩ := h.sum t k sum hat
  have hlen : k < (generated d s.measurementBarrier.phase t).length := by
    rwa [generated_length]
  refine ⟨hlt, ?_⟩
  rw [hvalues, hsum, List.getD_eq_getElem _ _ hlen]
  exact (List.sum_take_succ _ _ hlen).symm

theorem writeMean (h : Current names d s) (hidle : s.completion.isIdle = true) {t : Fin N}
    (ha : s.enabled (.writeMean t)) : Current names d (step K d s (.writeMean t)) := by
  obtain ⟨k, hk, hge⟩ := ha
  obtain ⟨sum, hat⟩ := Worker.eq_processing hk
  have hvalues := h.values_of_idle hidle t
  obtain ⟨hle, hsum⟩ := h.sum t k sum hat
  rw [hvalues, generated_length] at hge
  -- all ten values have been added
  rw [List.take_of_length_le (by rwa [generated_length])] at hsum
  simp only [step, hat]
  refine ⟨?_, ?_, ?_, ?_, h.inStep, h.printed⟩
  · intro u
    by_cases hut : u = t
    · subst hut
      simpa [setWorker, setRoom] using h.name u
    · simpa [setWorker, setRoom, hut] using h.name u
  · intro u
    by_cases hut : u = t
    · subst hut
      simpa [setWorker, setRoom] using h.values u
    · simpa [setWorker, setRoom, hut] using h.values u
  · intro u k' sum' hu
    by_cases hut : u = t
    · subst hut
      simp [setWorker] at hu
    · exact h.sum u k' sum' (by simpa [setWorker, setRoom, hut] using hu)
  · intro u hu
    by_cases hut : u = t
    · subst hut
      simp [setWorker, setRoom, hsum, hvalues, meanOf]
    · have hu' := h.mean u (by simpa [setWorker, setRoom, hut] using hu)
      simpa [setWorker, setRoom, hut] using hu'

theorem arrive (h : Current names d s) (hidle : s.completion.isIdle = true) {t : Fin N}
    (ha : s.enabled (.arrive t)) : Current names d (step K d s (.arrive t)) := by
  obtain ⟨hat, -⟩ := ha
  -- the completion starts or stays idle: the rooms are the same to both
  have hc : (step K d s (.arrive t)).completion = .report 0 0 ∨
      (step K d s (.arrive t)).completion = .idle := by
    simp only [step]
    split
    · exact Or.inl rfl
    · exact Or.inr (Completion.eq_idle hidle)
  refine ⟨h.name, ?_, ?_, ?_, ?_, ?_⟩
  · intro u
    have hvalues := h.values_of_idle hidle u
    rcases hc with hc | hc <;> (rw [hc]; exact hvalues)
  · intro u k sum hu
    by_cases hut : u = t
    · subst hut
      simp [step, setWorker] at hu
    · exact h.sum u k sum (by simpa [step, setWorker, hut] using hu)
  · intro u hu
    refine h.mean u ?_
    by_cases hut : u = t
    · rw [hut]
      exact Or.inl hat
    · simpa [step, setWorker, PhaseBarrier.next, hut] using hu
  · rcases hc with hc | hc
    · rw [hc]
      exact ⟨Nat.zero_le _, by simp⟩
    · rw [hc]
      trivial
  · have hprinted := h.printed
    rw [Completion.eq_idle hidle] at hprinted
    rcases hc with hc | hc <;> (rw [hc]; exact hprinted)

theorem release (h : Current names d s) {t : Fin N} :
    Current names d (step K d s (.release t)) := by
  have hgo := h.goto t (x := .loop) (by simp) (by simp)
  refine ⟨hgo.name, hgo.values, hgo.sum, ?_, hgo.inStep, hgo.printed⟩
  rintro u (hu | hu)
  · exact hgo.mean u (Or.inl hu)
  · refine hgo.mean u (Or.inr ?_)
    by_cases hut : u = t
    · subst hut
      simp [step, PhaseBarrier.next] at hu
    · simpa [step, setWorker, PhaseBarrier.next, hut] using hu

/-! ### The completion, place by place -/

/-- A step of the completion that changes no room and moves on to `c`. -/
theorem proceed (h : Current names d s) (c : Completion N F) (lines : List (Line F))
    (hvalues : ∀ t, c.holds d s.measurementBarrier.phase t =
      s.completion.holds d s.measurementBarrier.phase t)
    (hin : c.inStep d s.measurementBarrier.phase)
    (hlines : (report names d s.measurementBarrier.phase).take c.lines =
      (report names d s.measurementBarrier.phase).take s.completion.lines ++ lines) :
    Current names d { s with completion := c, printed := s.printed ++ lines } where
  name := h.name
  values t := (h.values t).trans (hvalues t).symm
  sum := h.sum
  mean := h.mean
  inStep := hin
  printed := by
    show s.printed ++ lines = _
    rw [h.printed, List.append_assoc, hlines]

/-- A step of the completion that changes the list of room `i` and moves on to `c`. -/
theorem rewrite (h : Current names d s) {c : Completion N F} (i : Fin N) {x : Temperature F}
    (hname : x.name = (s.roomTemperatures i).name) (hmean : x.mean = (s.roomTemperatures i).mean)
    (hvalues : x.values = c.holds d s.measurementBarrier.phase i)
    (hothers : ∀ t, t ≠ i → c.holds d s.measurementBarrier.phase t =
      s.completion.holds d s.measurementBarrier.phase t)
    (hin : c.inStep d s.measurementBarrier.phase) (hlines : c.lines = s.completion.lines) :
    Current names d { s.setRoom i x with completion := c } where
  name := by
    intro t
    by_cases ht : t = i
    · subst ht
      simpa [setRoom, hname] using h.name t
    · simpa [setRoom, ht] using h.name t
  values := by
    intro t
    by_cases ht : t = i
    · subst ht
      simpa [setRoom] using hvalues
    · simpa [setRoom, ht] using (h.values t).trans (hothers t ht).symm
  sum := h.sum
  mean := by
    intro t hat
    by_cases ht : t = i
    · subst ht
      simpa [setRoom, hmean] using h.mean t hat
    · simpa [setRoom, ht] using h.mean t hat
  inStep := hin
  printed := by
    show s.printed = _
    rw [h.printed, ← hlines]
    rfl

theorem report (h : Current names d s) {i : Nat} {mean : F} (hc : s.completion = .report i mean)
    (htok : ∀ t, s.measurementBarrier.token t = some s.measurementBarrier.phase) :
    Current names d (s.completionStep K d) := by
  have hin := h.inStep
  rw [hc] at hin
  obtain ⟨hle, hsum⟩ := hin
  unfold completionStep
  simp only [hc]
  by_cases hi : i < N
  · simp only [dif_pos hi]
    refine h.proceed _ _ ?_ hsum ?_
    · intro t
      rw [hc]
      rfl
    · rw [hc, h.name, h.mean _ (Or.inr (htok _))]
      exact report_take_succ _ ⟨i, hi⟩
  · obtain rfl : i = N := by omega
    simp only [dif_neg hi]
    refine h.proceed _ _ ?_ (Nat.zero_le _) ?_
    · intro t
      rw [hc]
      simp [Completion.holds]
    · rw [hc, hsum, List.take_of_length_le (l := means _ _) (by simp)]
      exact report_take_home _

theorem add (h : Current names d s) {i : Fin N} {mean : F} (hc : s.completion = .add i mean)
    (htok : ∀ t, s.measurementBarrier.token t = some s.measurementBarrier.phase) :
    Current names d (s.completionStep K d) := by
  have hin := h.inStep
  rw [hc] at hin
  have hsum : mean = ((means d s.measurementBarrier.phase).take i).sum := hin
  have hgo := h.proceed (.report (i + 1) (mean + (s.roomTemperatures i).mean)) []
    (by intro t; rw [hc]; rfl) ?_ (by rw [hc, List.append_nil]; rfl)
  · unfold completionStep
    simpa only [hc, List.append_nil] using hgo
  · refine ⟨i.isLt, ?_⟩
    rw [means_take_succ, hsum, h.mean i (Or.inr (htok i))]

theorem regenerate (h : Current names d s) {i : Nat} (hc : s.completion = .regenerate i) :
    Current names d (s.completionStep K d) := by
  have hin := h.inStep
  rw [hc] at hin
  have hle : i ≤ N := hin
  unfold completionStep
  simp only [hc]
  by_cases hi : i < N
  · simp only [dif_pos hi]
    refine h.rewrite ⟨i, hi⟩ rfl rfl ?_ ?_ (Nat.zero_le _) (by rw [hc]; rfl)
    · simp [Completion.holds]
    · intro t ht
      rw [hc]
      simp only [Completion.holds, if_neg ht]
      rfl
  · simp only [dif_neg hi]
    have hgo := h.proceed .stopCheck [] ?_ trivial
      (by rw [hc, List.append_nil]; rfl)
    · simpa only [List.append_nil] using hgo
    · intro t
      have ht : (t : Nat) < i := by omega
      rw [hc]
      simp [Completion.holds, ht]

theorem fill (h : Current names d s) {i : Fin N} {n : Nat} (hc : s.completion = .fill i n) :
    Current names d (s.completionStep K d) := by
  have hin := h.inStep
  rw [hc] at hin
  have hle : n ≤ 10 := hin
  unfold completionStep
  simp only [hc]
  by_cases hn : n < 10
  · simp only [dif_pos hn]
    refine h.rewrite i rfl rfl ?_ ?_ hn (by rw [hc]; rfl)
    · have hvalues := h.values i
      rw [hc] at hvalues
      simp only [Completion.holds, lt_irrefl, if_false, if_true] at hvalues ⊢
      rw [Temperature.emplaceBack_values, hvalues]
      exact (ofFn_take_succ _ ⟨n, hn⟩).symm
    · intro t ht
      rw [hc]
      simp only [Completion.holds, if_neg ht]
  · simp only [dif_neg hn]
    have hgo := h.proceed (.regenerate (i + 1)) [] ?_ i.isLt
      (by rw [hc, List.append_nil]; rfl)
    · simpa only [List.append_nil] using hgo
    · intro t
      rw [hc]
      simp only [Completion.holds]
      rcases lt_trichotomy t i with hlt | rfl | hgt
      · have hlt' : (t : Nat) < i + 1 := by omega
        rw [if_pos hlt', if_pos hlt]
      · rw [if_pos (Nat.lt_succ_self _), if_neg (lt_irrefl _), if_pos rfl,
          List.take_of_length_le (by rw [generated_length]; omega)]
      · have hgt' : ¬ (t : Nat) < i + 1 := by omega
        rw [if_neg hgt', if_neg hgt.not_gt, if_neg hgt.ne']

theorem completion (h : Current names d s)
    (htok : ∀ t, s.measurementBarrier.token t = some s.measurementBarrier.phase) :
    Current names d (s.completionStep K d) := by
  cases hc : s.completion with
  | report i mean => exact h.report hc htok
  | add i mean => exact h.add hc htok
  | regenerate i => exact h.regenerate hc
  | fill i n => exact h.fill hc
  | stopCheck =>
      have hvalues := h.values
      have hprinted := h.printed
      rw [hc] at hvalues hprinted
      unfold completionStep
      simp only [hc]
      exact ⟨h.name, hvalues, h.sum, h.mean, trivial, hprinted⟩
  | idle | count =>
      unfold completionStep
      simpa only [hc] using h

/-- The phase ends with ten new values in every room, and with its report printed. -/
theorem complete (h : Current names d s) (hc : s.completion = .count)
    (htok : ∀ t, s.measurementBarrier.token t = some s.measurementBarrier.phase)
    (hwait : ∀ t, s.worker t = .waiting) : Current names d (step K d s .complete) where
  name := h.name
  values := by
    intro t
    have hvalues := h.values t
    rw [hc] at hvalues
    exact hvalues
  sum := by
    intro t k sum ht
    rw [show (step K d s .complete).worker t = .waiting from hwait t] at ht
    simp at ht
  mean := by
    rintro t (ht | ht)
    · rw [show (step K d s .complete).worker t = .waiting from hwait t] at ht
      simp at ht
    · simp only [step, PhaseBarrier.next, htok t, Option.some.injEq] at ht
      omega
  inStep := trivial
  printed := by
    show s.printed = (List.range (s.measurementBarrier.phase + 1)).flatMap _ ++ List.take 0 _
    rw [h.printed, hc, List.range_succ, List.flatMap_append, List.flatMap_singleton,
      List.take_zero, List.append_nil, List.take_of_length_le (by simp [Completion.lines])]

end Current

theorem reachable_current (hN : 1 ≤ N) (hK : 1 ≤ K) (hs : (machine names K d).Reachable s) :
    Current names d s := by
  refine hs.invariant (P := Current names d) ?_ ?_
  · refine ⟨?_, ?_, ?_, ?_, trivial, rfl⟩
    · intro t
      simp [machine, getTemperatures_eq]
    · intro t
      simp only [machine, getTemperatures_eq]
      rfl
    · intro t k sum ht
      simp [machine] at ht
    · rintro t (ht | ht)
      · simp [machine] at ht
      · simp [machine, PhaseBarrier.start] at ht
  · intro s a hs h ha
    have hsound := reachable_sound hN hK hs
    have hb := barrier_sound hN hs
    -- a thread that stands anywhere else is outside the barrier, so the completion is idle
    have hidle : ∀ {t}, s.worker t ≠ .waiting → s.completion.isIdle = true := fun ht =>
      hsound.completion_idle hb (hsound.token_eq_none ht)
    show Current names d (step K d s a)
    cases a with
    | emplace => exact h.emplace ha
    | join => exact ⟨h.name, h.values, h.sum, h.mean, h.inStep, h.printed⟩
    | start t => exact h.goto t (by simp) (by simp)
    | test t => exact h.test
    | read t =>
        obtain ⟨k, hk, -⟩ := id ha
        obtain ⟨sum, hat⟩ := Worker.eq_processing hk
        exact h.read (hidle (t := t) (by rw [hat]; simp)) ha
    | writeMean t =>
        obtain ⟨k, hk, -⟩ := id ha
        obtain ⟨sum, hat⟩ := Worker.eq_processing hk
        exact h.writeMean (hidle (t := t) (by rw [hat]; simp)) ha
    | arrive t => exact h.arrive (hidle (t := t) (by rw [ha.1]; simp)) ha
    | release t => exact h.release
    | completion => exact h.completion (hb.token_of_completing ha.1)
    | complete =>
        have htok := hb.token_of_completing ha.1
        exact h.complete (Completion.eq_count ha.2) htok fun t =>
          (hsound.waiting_of_token (htok t)).1

/-- While the completion runs every thread is inside the barrier. -/
theorem waiting_of_running (hN : 1 ≤ N) (hK : 1 ≤ K) (hs : (machine names K d).Reachable s)
    (hrun : s.completion.isIdle = false) (t : Fin N) : s.worker t = .waiting := by
  have hsound := reachable_sound hN hK hs
  have hcompleting : s.measurementBarrier.completing = true := by
    have hidle := hsound.idle
    rw [hrun] at hidle
    simpa using hidle.symm
  exact (hsound.waiting_of_token ((barrier_sound hN hs).token_of_completing hcompleting t)).1

/--
**Every reported mean belongs to its round.**  For any number `N ≥ 1` of rooms and in every
reachable state, what has been printed is the report of each phase that is over and as
much of the current phase's report as the completion has come to: each room with the
mean of exactly the list that the generation of that phase made for it.  And while the
completion runs, no thread is in `ProcessMeasurement` or can enter it.
-/
theorem sensors_means (N K : Nat) (hN : 1 ≤ N) (names : Fin N → String)
    (d : Nat → Fin N → Fin 10 → F) (s : Sensors N F) (hs : (machine names K d).Reachable s) :
    s.printed = (List.range s.measurementBarrier.phase).flatMap (report names d) ++
        (report names d s.measurementBarrier.phase).take s.completion.lines ∧
      (s.completion.isIdle = false → ∀ t, (s.worker t).position = none ∧ ¬ s.enabled (.test t) ∧
        ¬ s.enabled (.read t) ∧ ¬ s.enabled (.writeMean t)) := by
  -- a threshold of 0 stops in the first run, as 1 does
  obtain ⟨K', hK', hs'⟩ : ∃ K', 1 ≤ K' ∧ (machine names K' d).Reachable s := by
    rcases Nat.eq_zero_or_pos K with rfl | hK
    · exact ⟨1, Nat.le_refl 1, hs⟩
    · exact ⟨K, hK, hs⟩
  refine ⟨(reachable_current hN hK' hs').printed, fun hrun t => ?_⟩
  have hw := waiting_of_running hN hK' hs' hrun t
  refine ⟨by rw [hw]; rfl, ?_, ?_, ?_⟩
  · intro ha
    have hat : s.worker t = .loop := ha
    rw [hw] at hat
    simp at hat
  · rintro ⟨k, hk, -⟩
    rw [hw] at hk
    simp [Worker.position] at hk
  · rintro ⟨k, hk, -⟩
    rw [hw] at hk
    simp [Worker.position] at hk

set_option maxRecDepth 4000 in
/-- The kitchen alone, measured once: its report has been printed, and nothing else. -/
theorem sensors_means_kitchen :
    ((machine kitchen 1 rising).after (machine kitchen 1 rising).init oneRoundRun).printed =
      report kitchen rising 0 :=
  ((sensors_means 1 1 (by decide) kitchen rising _ ⟨oneRoundRun, by decide, rfl⟩).1).trans
    (List.append_nil _)

end LinuxSystems.Sensors
