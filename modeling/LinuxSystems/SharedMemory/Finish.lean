/-
How one producer serves its consumers.

A step brings its call on, a test that fails sends it to sleep, and the one notification
of a producer wakes one call: so only wakeups for no reason can go on for ever.

Where there is one producer only, and no system call fails, it never finds `work_done`
true, for nobody else sets it; the calls that wait are consumers, and its notification
reaches one of them.  So no wakeup is lost, whatever the number of the consumers: in the
end exactly one of them has the buffer, and the others wait for another.
-/
import LinuxSystems.SharedMemory.Handoff
import LinuxSystems.SharedMemory.Wakeups
import LinuxSystems.Machine.Endless
import LinuxSystems.Machine.Tally

namespace LinuxSystems.SharedMem

variable {ι T : Type*} [DecidableEq ι] {call : ι → Call T} {s : SharedMem ι T} {a : Action ι}
  {t u p : ι} {x : Site} {b : T}

/-! ### What is left to do -/

/-- How far a call is from its end.  A notification may put another call back by two places. -/
def Site.left : Site → Nat
  | .lock | .woken => 12
  | .test => 11
  | .waiting => 10
  | .shmOpen => 9
  | .mmap => 8
  | .place => 7
  | .setDone => 6
  | .unlock => 5
  | .notify => 4
  | .clearDone => 3
  | .leave _ => 2
  | .throwing | .published | .received _ => 1
  | .finished | .threw => 0

def Action.isSpurious : Action ι → Prop
  | .spurious _ => True
  | _ => False

section Runs

variable [Fintype ι]

/-- What all calls have left. -/
def left (s : SharedMem ι T) : Nat := tally Site.left s.site

theorem left_goto {s' : SharedMem ι T} (hsite : s'.site = (s.goto t x).site)
    (hx : x.left < (s.site t).left) : s'.left < s.left := by
  have hmove := tally_update Site.left s.site t x
  unfold left
  rw [hsite]
  show tally Site.left (Function.update s.site t x) < _
  omega

theorem left_notify (w : Option ι) (ha : s.enabled (.notify t w)) :
    (s.step call (.notify t w)).left < s.left := by
  obtain ⟨hat, hw⟩ := ha
  cases w with
  | none => exact left_goto (x := .published) rfl (by rw [hat]; decide)
  | some u =>
      have hu : s.site u = .waiting := hw
      have htu : t ≠ u := ne_of_site hat (by simp [hu])
      have hwake := tally_update Site.left s.site u .woken
      have hmove := tally_update Site.left (s.goto u .woken).site t .published
      rw [goto_site_of_ne htu, hat] at hmove
      rw [hu] at hwake
      show tally Site.left (Function.update (s.goto u .woken).site t .published) <
        tally Site.left s.site
      change tally Site.left (s.goto u .woken).site + _ = _ at hwake
      simp only [Site.left] at hwake hmove
      omega

/-- **Every step but a spurious wakeup leaves less.** -/
theorem left_step (ha : s.enabled a) (hno : ¬ a.isSpurious) :
    (s.step call a).left < s.left := by
  cases a with
  | spurious t => exact absurd trivial hno
  | notify t w => exact left_notify w ha
  | lock t => exact left_goto (x := .test) rfl (by rw [ha.1]; decide)
  | relock t => exact left_goto (x := .test) rfl (by rw [ha.1]; decide)
  | test t =>
      have hat : s.site t = .test := ha
      simp only [step]
      split
      · exact left_goto (x := .shmOpen) rfl (by rw [hat]; decide)
      · exact left_goto (x := .waiting) rfl (by rw [hat]; decide)
  | shmOpen t ok =>
      have hat : s.site t = .shmOpen := ha
      refine left_goto rfl ?_
      rw [hat]
      cases ok <;> decide
  | mmap t ok =>
      have hat : s.site t = .mmap := ha
      refine left_goto rfl ?_
      rw [hat]
      cases ok with
      | false => exact (by decide : Site.throwing.left < Site.mmap.left)
      | true => cases (call t).isProducer <;> decide
  | place t => exact left_goto (x := .setDone) rfl (by rw [show s.site t = .place from ha]; decide)
  | setDone t =>
      exact left_goto (x := .unlock) rfl (by rw [show s.site t = .setDone from ha]; decide)
  | unlock t =>
      exact left_goto (x := .notify) rfl (by rw [show s.site t = .unlock from ha]; decide)
  | clearDone t =>
      refine left_goto (x := .leave s.taken) rfl ?_
      rw [show s.site t = .clearDone from ha]
      exact Nat.lt_succ_self 2
  | leave t i =>
      refine left_goto (x := .received i) rfl ?_
      rw [show s.site t = .leave i from ha]
      exact Nat.lt_succ_self 1
  | unwind t =>
      exact left_goto (x := .threw) rfl (by rw [show s.site t = .throwing from ha]; decide)
  | destroy t =>
      have hlive : (s.site t).isLive := ha
      refine left_goto (x := .finished) rfl ?_
      cases hat : s.site t with
      | published | received i => exact Nat.zero_lt_one
      | lock | test | waiting | woken | shmOpen | mmap | place | setDone | unlock | notify
      | clearDone | leave i | throwing | finished | threw =>
          rw [hat] at hlive
          exact hlive.elim

/-- **Only wakeups for no reason can go on for ever.** -/
theorem forever_spurious {run : ℕ → Action ι} (h : (machine call).Endless run) :
    Machine.Forever run Action.isSpurious :=
  h.forever fun _ _ _ ha hno => left_step ha hno

end Runs

/-! ### Who has succeeded -/

/-- The call has set or reset `work_done`. -/
def Site.hasSucceeded : Site → Bool
  | .unlock | .notify | .leave _ | .published | .received _ | .finished => true
  | .lock | .test | .waiting | .woken | .shmOpen | .mmap | .place | .setDone | .clearDone
  | .throwing | .threw => false

/-- No system call fails. -/
def Action.succeeds : Action ι → Prop
  | .shmOpen _ ok | .mmap _ ok => ok = true
  | _ => True

instance : ∀ a : Action ι, Decidable a.succeeds
  | .shmOpen _ ok | .mmap _ ok => inferInstanceAs (Decidable (ok = true))
  | .lock _ | .test _ | .spurious _ | .relock _ | .place _ | .setDone _ | .unlock _ | .notify _ _
  | .clearDone _ | .leave _ _ | .unwind _ | .destroy _ => isTrue trivial

/-- `p` is the only producer, and its buffer is `b`. -/
structure OneProducer (call : ι → Call T) (p : ι) (b : T) : Prop where
  producer : call p = .producer b
  consumer : ∀ t, t ≠ p → call t = .consumer

/-- Which places a call comes to, where `p` is the only producer and nothing fails. -/
def Comes (p t : ι) : Site → Prop
  | .place | .setDone | .unlock | .notify | .published => t = p
  | .waiting | .woken | .clearDone | .leave _ | .received _ => t ≠ p
  | .lock | .test | .shmOpen | .mmap | .finished => True
  | .throwing | .threw => False

/-- The buffer is in the region from when the producer has set `work_done`, and it never waits. -/
structure Serving (p : ι) (b : T) (s : SharedMem ι T) : Prop where
  comes : ∀ t, Comes p t (s.site t)
  placed : s.placed = if (s.site p).hasSucceeded then [b] else []
  cell : (s.site p).hasSucceeded = true → s.cell = some b

namespace Serving

/-- A step from place to place that leaves the region. -/
theorem goto (h : Serving p b s) {s' : SharedMem ι T} (hsite : s'.site = (s.goto t x).site)
    (hplaced : s'.placed = s.placed) (hcell : s'.cell = s.cell) (hx : Comes p t x)
    (hsucceeded : t = p → x.hasSucceeded = (s.site p).hasSucceeded) : Serving p b s' := by
  have hp : (s'.site p).hasSucceeded = (s.site p).hasSucceeded := by
    rw [hsite]
    by_cases htp : t = p
    · rw [htp, goto_site, hsucceeded htp]
    · rw [goto_site_of_ne (Ne.symm htp)]
  refine ⟨fun u => ?_, ?_, ?_⟩
  · rw [hsite]
    by_cases hut : u = t
    · rw [hut, goto_site]
      exact hx
    · rw [goto_site_of_ne hut]
      exact h.comes u
  · rw [hplaced, hp]
    exact h.placed
  · rw [hcell, hp]
    exact h.cell

omit [DecidableEq ι] in
/-- The producer never finds `work_done` true. -/
theorem producer_ready (h : Serving p b s) (hand : Handed call s)
    (hno : (s.site p).hasSucceeded = false) : s.workDone = false := by
  by_contra hdone
  have hfull := hand.full (by simpa using hdone)
  rw [h.placed, hno] at hfull
  exact absurd hfull.1 (Nat.succ_ne_zero _).symm

theorem test (h : Serving p b s) (hcall : OneProducer call p b) (hand : Handed call s)
    (hat : s.site t = .test) : Serving p b (s.step call (.test t)) := by
  have hself : t = p → (s.site p).hasSucceeded = false := by
    rintro rfl
    rw [hat]
    rfl
  simp only [SharedMem.step]
  split
  case isTrue => exact h.goto (x := .shmOpen) rfl rfl rfl trivial fun htp => (hself htp).symm
  case isFalse hready =>
    refine h.goto (x := .waiting) rfl rfl rfl ?_ fun htp => (hself htp).symm
    rintro rfl
    rw [hcall.producer, h.producer_ready hand (hself rfl)] at hready
    exact hready rfl

theorem mmap (h : Serving p b s) (hcall : OneProducer call p b) (hat : s.site t = .mmap) :
    Serving p b (s.step call (.mmap t true)) := by
  have hself : t = p → (s.site p).hasSucceeded = false := by
    rintro rfl
    rw [hat]
    rfl
  simp only [SharedMem.step, if_true]
  by_cases htp : t = p
  · have hkind : (call t).isProducer = true := by
      rw [htp, hcall.producer]
      rfl
    rw [hkind, if_pos rfl]
    exact h.goto (x := .place) rfl rfl rfl htp fun htp => (hself htp).symm
  · rw [hcall.consumer t htp]
    exact h.goto (x := .clearDone) rfl rfl rfl htp fun htp => (hself htp).symm

theorem place (h : Serving p b s) (hat : s.site t = .place) :
    Serving p b (s.step call (.place t)) := by
  obtain rfl : t = p := by
    have hcomes := h.comes t
    rwa [hat] at hcomes
  have hplaced := h.placed
  rw [hat] at hplaced
  refine ⟨fun u => ?_, ?_, ?_⟩
  · show Comes t u ((s.goto t .setDone).site u)
    by_cases hut : u = t
    · rw [hut, goto_site]
      exact rfl
    · rw [goto_site_of_ne hut]
      exact h.comes u
  · show s.placed = if ((s.goto t .setDone).site t).hasSucceeded then [b] else []
    rw [goto_site, hplaced]
    rfl
  · show ((s.goto t .setDone).site t).hasSucceeded = true → _
    rw [goto_site]
    exact fun hno => Bool.noConfusion hno

theorem setDone (h : Serving p b s) (hcall : OneProducer call p b) (hand : Handed call s)
    (hat : s.site t = .setDone) : Serving p b (s.step call (.setDone t)) := by
  obtain rfl : t = p := by
    have hcomes := h.comes t
    rwa [hat] at hcomes
  have hplaced := h.placed
  have hwritten := hand.written t hat
  rw [hat] at hplaced
  rw [hcall.producer] at hwritten
  refine ⟨fun u => ?_, ?_, fun _ => hwritten⟩
  · show Comes t u ((s.goto t .unlock).site u)
    by_cases hut : u = t
    · rw [hut, goto_site]
      exact rfl
    · rw [goto_site_of_ne hut]
      exact h.comes u
  · show s.placed ++ (call t).buffer.toList =
      if ((s.goto t .unlock).site t).hasSucceeded then [b] else []
    rw [goto_site, hplaced, hcall.producer]
    rfl

theorem notify (h : Serving p b s) (w : Option ι) (ha : s.enabled (.notify t w)) :
    Serving p b (s.step call (.notify t w)) := by
  obtain ⟨hat, hw⟩ := ha
  obtain rfl : t = p := by
    have hcomes := h.comes t
    rwa [hat] at hcomes
  cases w with
  | none =>
      refine h.goto (x := .published) rfl rfl rfl rfl fun _ => ?_
      rw [hat]
      rfl
  | some u =>
      have hu : s.site u = .waiting := hw
      have hut : u ≠ t := by
        have hcomes := h.comes u
        rwa [hu] at hcomes
      have hwoken : Serving t b (s.goto u .woken) :=
        h.goto rfl rfl rfl hut fun htp => absurd htp hut
      refine hwoken.goto (x := .published) rfl rfl rfl rfl fun _ => ?_
      rw [goto_site_of_ne hut.symm, hat]
      rfl

theorem step (h : Serving p b s) (hcall : OneProducer call p b) (hand : Handed call s)
    (ha : s.enabled a) (hok : a.succeeds) : Serving p b (s.step call a) := by
  -- a step between two places on the same side of the success
  have stay : ∀ {x y : Site} {s' : SharedMem ι T} {t : ι}, s.site t = x → Comes p t y →
      y.hasSucceeded = x.hasSucceeded → s'.site = (s.goto t y).site → s'.placed = s.placed →
      s'.cell = s.cell → Serving p b s' := by
    rintro x y s' t rfl hy hsame hsite hplaced hcell
    refine h.goto hsite hplaced hcell hy ?_
    rintro rfl
    exact hsame
  have comes : ∀ {t x}, s.site t = x → Comes p t x := by
    rintro t _ rfl
    exact h.comes t
  cases a with
  | lock t => exact stay (y := .test) ha.1 trivial rfl rfl rfl rfl
  | relock t => exact stay (y := .test) ha.1 trivial rfl rfl rfl rfl
  | test t => exact h.test hcall hand ha
  | spurious t => exact stay (y := .woken) ha (comes (x := .waiting) ha) rfl rfl rfl rfl
  | shmOpen t ok =>
      obtain rfl : ok = true := hok
      exact stay (y := .mmap) ha trivial rfl rfl rfl rfl
  | mmap t ok =>
      obtain rfl : ok = true := hok
      exact h.mmap hcall ha
  | place t => exact h.place ha
  | setDone t => exact h.setDone hcall hand ha
  | unlock t => exact stay (y := .notify) ha (comes (x := .unlock) ha) rfl rfl rfl rfl
  | notify t w => exact h.notify w ha
  | clearDone t =>
      have htp : t ≠ p := comes ha
      exact h.goto (x := .leave s.taken) rfl rfl rfl htp fun hc => absurd hc htp
  | leave t i => exact stay (y := .received i) ha (comes (x := .leave i) ha) rfl rfl rfl rfl
  | unwind t => exact (comes ha : False).elim
  | destroy t =>
      have hlive : (s.site t).isLive := ha
      refine stay (y := .finished) rfl trivial ?_ rfl rfl rfl
      cases hat : s.site t <;> simp_all [Site.isLive, Site.hasSucceeded]

end Serving

theorem serving (hcall : OneProducer call p b)
    (h : ((machine call).restrict fun _ => Action.succeeds).Reachable s) : Serving p b s := by
  refine h.invariant (P := Serving p b) ?_ ?_
  · exact ⟨fun _ => trivial, rfl, fun hno => Bool.noConfusion hno⟩
  · exact fun s a hr hs ha => hs.step hcall (handed hr.of_restrict) ha.1 ha.2

omit [DecidableEq ι] in
/-- **No wakeup is lost**: the notification reaches a consumer, if one waits. -/
theorem Serving.informs (h : Serving p b s) (hcall : OneProducer call p b) (ha : s.enabled a) :
    Informs call s a := by
  -- whoever waits is a consumer
  have waits : ∀ {v}, Waits call s v → v = true := by
    rintro v ⟨u, hu, hready⟩
    have hup : u ≠ p := by
      have hcomes := h.comes u
      rwa [hu] at hcomes
    rw [hcall.consumer u hup] at hready
    simpa [Call.isReady] using hready
  cases a with
  | lock t | test t | spurious t | relock t | shmOpen t ok | mmap t ok | place t | setDone t
  | unlock t | leave t i | destroy t => trivial
  | clearDone t => exact fun hw => Bool.noConfusion (waits hw)
  | unwind t =>
      have hat : s.site t = .throwing := ha
      have hcomes := h.comes t
      rw [hat] at hcomes
      exact hcomes.elim
  | notify t w =>
      obtain ⟨-, hwakes⟩ := ha
      intro hw
      have hdone : s.workDone = true := waits hw
      cases w with
      | none =>
          obtain ⟨u, hu, -⟩ := hw
          exact absurd hu (hwakes u)
      | some u =>
          have hu : s.site u = .waiting := hwakes
          have hup : u ≠ p := by
            have hcomes := h.comes u
            rwa [hu] at hcomes
          refine Or.inl ⟨u, rfl, ?_⟩
          rw [hcall.consumer u hup, hdone]
          rfl

theorem allFalse (hcall : OneProducer call p b)
    (h : ((machine call).restrict fun _ => Action.succeeds).Reachable s) (hq : Quiet s) :
    AllFalse call s := by
  have hinit : ((machine call).restrict (Informs call)).Reachable (machine call).init :=
    Machine.Reachable.init
  have hinforms : ((machine call).restrict (Informs call)).Reachable s := by
    refine Machine.Reachable.invariant (m := (machine call).restrict fun _ => Action.succeeds)
      (P := ((machine call).restrict (Informs call)).Reachable) hinit ?_ h
    intro s a hr hs ha
    exact hs.next (a := a) ⟨ha.1, (serving hcall hr).informs hcall ha.1⟩
  exact (allFalse_iff h.of_restrict hq).mpr (not_missed_reachable hinforms)

/-! ### How many have succeeded -/

section Served

variable [Fintype ι]

/-- The calls that have succeeded. -/
def successes (s : SharedMem ι T) : Finset ι := {t | (s.site t).hasSucceeded = true}

omit [DecidableEq ι] in
theorem mem_successes : t ∈ s.successes ↔ (s.site t).hasSucceeded = true := by
  simp [successes]

/-- A step on the same side of the success. -/
theorem successes_goto (h : x.hasSucceeded = (s.site t).hasSucceeded) :
    (s.goto t x).successes = s.successes := by
  ext u
  rw [mem_successes, mem_successes]
  by_cases hut : u = t
  · rw [hut, goto_site, h]
  · rw [goto_site_of_ne hut]

/-- The step that sets or resets `work_done`. -/
theorem successes_succeed (hno : (s.site t).hasSucceeded = false)
    (hx : x.hasSucceeded = true) : (s.goto t x).successes.card = s.successes.card + 1 := by
  have hnot : t ∉ s.successes := by
    rw [mem_successes, hno]
    exact Bool.noConfusion
  have hinsert : (s.goto t x).successes = insert t s.successes := by
    ext u
    rw [Finset.mem_insert, mem_successes, mem_successes]
    by_cases hut : u = t
    · rw [hut, goto_site, hx]
      simp
    · rw [goto_site_of_ne hut]
      simp [hut]
  rw [hinsert, Finset.card_insert_of_notMem hnot]

/-- **Each success is one buffer placed or taken.** -/
theorem card_successes (h : (machine call).Reachable s) :
    s.successes.card = s.placed.length + s.taken := by
  refine h.invariant (P := fun s => s.successes.card = s.placed.length + s.taken) ?_ ?_
  · show Finset.card {t : ι | Site.lock.hasSucceeded = true} = 0
    simp [Site.hasSucceeded]
  · intro s a hr hs ha
    have stay : ∀ {y : Site} {s' : SharedMem ι T} {t : ι}, s'.site = (s.goto t y).site →
        y.hasSucceeded = (s.site t).hasSucceeded → s'.placed = s.placed → s'.taken = s.taken →
        s'.successes.card = s'.placed.length + s'.taken := by
      intro y s' t hsite hsame hplaced htaken
      rw [hplaced, htaken, ← hs, ← successes_goto hsame]
      show Finset.card {u | (s'.site u).hasSucceeded = true} = _
      rw [hsite]
      rfl
    cases a with
    | lock t => exact stay (y := .test) rfl (by rw [ha.1]; rfl) rfl rfl
    | relock t => exact stay (y := .test) rfl (by rw [ha.1]; rfl) rfl rfl
    | test t =>
        have hat : s.site t = .test := ha
        show (s.step call (.test t)).successes.card =
          (s.step call (.test t)).placed.length + (s.step call (.test t)).taken
        simp only [step]
        split
        · exact stay (y := .shmOpen) rfl (by rw [hat]; rfl) rfl rfl
        · exact stay (y := .waiting) rfl (by rw [hat]; rfl) rfl rfl
    | spurious t =>
        exact stay (y := .woken) rfl (by rw [show s.site t = .waiting from ha]; rfl) rfl rfl
    | shmOpen t ok =>
        refine stay rfl ?_ rfl rfl
        rw [show s.site t = .shmOpen from ha]
        cases ok <;> rfl
    | mmap t ok =>
        refine stay rfl ?_ rfl rfl
        rw [show s.site t = .mmap from ha]
        cases ok with
        | false => rfl
        | true => cases (call t).isProducer <;> rfl
    | place t =>
        exact stay (y := .setDone) rfl (by rw [show s.site t = .place from ha]; rfl) rfl rfl
    | setDone t =>
        have hat : s.site t = .setDone := ha
        obtain ⟨b, hb⟩ := (handed hr).producer t (Or.inr hat)
        show (s.goto t .unlock).successes.card =
          (s.placed ++ (call t).buffer.toList).length + s.taken
        rw [successes_succeed (by rw [hat]; rfl) rfl, hs, hb, List.length_append]
        simp only [Call.buffer, Option.toList_some, List.length_singleton]
        omega
    | unlock t =>
        exact stay (y := .notify) rfl (by rw [show s.site t = .unlock from ha]; rfl) rfl rfl
    | notify t w =>
        obtain ⟨hat, hw⟩ := ha
        cases w with
        | none => exact stay (y := .published) rfl (by rw [hat]; rfl) rfl rfl
        | some u =>
            have hu : s.site u = .waiting := hw
            have htu : t ≠ u := ne_of_site hat (by simp [hu])
            show ((s.goto u .woken).goto t .published).successes.card = _
            rw [successes_goto (by rw [goto_site_of_ne htu, hat]; rfl),
              successes_goto (by rw [hu]; rfl)]
            exact hs
    | clearDone t =>
        have hat : s.site t = .clearDone := ha
        show (s.goto t (.leave s.taken)).successes.card = s.placed.length + (s.taken + 1)
        rw [successes_succeed (by rw [hat]; rfl) rfl, hs, Nat.add_assoc]
    | leave t i =>
        exact stay (y := .received i) rfl (by rw [show s.site t = .leave i from ha]; rfl) rfl rfl
    | unwind t =>
        exact stay (y := .threw) rfl (by rw [show s.site t = .throwing from ha]; rfl) rfl rfl
    | destroy t =>
        have hlive : (s.site t).isLive := ha
        refine stay (y := .finished) rfl ?_ rfl rfl
        cases hat : s.site t <;> simp_all [Site.isLive, Site.hasSucceeded]

/-! ### The end -/

omit [Fintype ι] in
/-- Where nobody can go on, everybody sleeps or has come to an end. -/
theorem resting_of_quiet (hr : (machine call).Reachable s) (hq : Quiet s) (t : ι) :
    (s.site t).isResting := by
  by_contra hno
  obtain ⟨v, hready⟩ : ∃ v, (call t).isReady v = true := by
    cases call t with
    | producer b => exact ⟨false, rfl⟩
    | consumer => exact ⟨true, rfl⟩
  have hown : ∃ a, s.enabled a ∧ a.IsOwn := by
    cases hat : s.site t with
    | leave i => exact own_of_inside (t := t) (by rw [hat]; rfl)
    | lock | test | woken | shmOpen | mmap | place | setDone | unlock | notify | clearDone
    | throwing =>
        refine own_of_tells hr (t := t) (b := v) ?_
        simp [hat, Tells, hready, Site.isUnderway]
    | waiting | published | received i | finished | threw =>
        rw [hat] at hno
        exact (hno trivial).elim
  obtain ⟨a, ha, hown⟩ := hown
  exact hq a ha hown

omit [DecidableEq ι] [Fintype ι] in
/-- A consumer at rest that has not succeeded is asleep. -/
theorem Serving.consumer_at_rest (h : Serving p b s) (hand : Handed call s)
    (hrest : (s.site t).isResting) (htp : t ≠ p) :
    s.site t = .waiting ∨ (s.site t).hasSucceeded = true ∧
      (s.site t = .received 0 ∨ s.site t = .finished) := by
  have hcomes := h.comes t
  cases hat : s.site t with
  | waiting => exact Or.inl rfl
  | finished => exact Or.inr ⟨rfl, Or.inr rfl⟩
  | received i =>
      have hlt := hand.received t i hat
      have hlength : s.placed.length ≤ 1 := by
        rw [h.placed]
        split <;> simp
      obtain rfl : i = 0 := by omega
      exact Or.inr ⟨rfl, Or.inl rfl⟩
  | published | threw =>
      rw [hat] at hcomes
      exact absurd hcomes (by simp [Comes, htp])
  | lock | test | woken | shmOpen | mmap | place | setDone | unlock | notify | clearDone
  | leave i | throwing =>
      rw [hat] at hrest
      exact hrest.elim

omit [DecidableEq ι] [Fintype ι] in
/-- The producer at rest has returned. -/
theorem Serving.producer_at_rest (h : Serving p b s) (hrest : (s.site p).isResting) :
    (s.site p).hasSucceeded = true ∧ (s.site p = .published ∨ s.site p = .finished) := by
  have hcomes := h.comes p
  cases hat : s.site p with
  | published => exact ⟨rfl, Or.inl rfl⟩
  | finished => exact ⟨rfl, Or.inr rfl⟩
  | waiting | received i | threw =>
      rw [hat] at hcomes
      exact absurd hcomes (by simp [Comes])
  | lock | test | woken | shmOpen | mmap | place | setDone | unlock | notify | clearDone
  | leave i | throwing =>
      rw [hat] at hrest
      exact hrest.elim

/--
**One producer serves one consumer.**  Whatever is called and whatever fails, only wakeups for no
reason can go on for ever.  With one producer and any number of consumers, where no system call
fails: when nobody can go on the producer has returned and its buffer is in the region; and if
there are consumers exactly one of them has returned with it, and all others wait.
-/
theorem buffer_served (call : ι → Call T) :
    (∀ run : ℕ → Action ι, (machine call).Endless run →
      Machine.Forever run Action.isSpurious) ∧
    ∀ (p : ι) (b : T), OneProducer call p b →
      ∀ s, ((machine call).restrict fun _ => Action.succeeds).Reachable s → Quiet s →
        (s.site p = .published ∨ s.site p = .finished) ∧ s.cell = some b ∧
        ((∃ c, c ≠ p) → ∃ c, c ≠ p ∧ (s.site c = .received 0 ∨ s.site c = .finished) ∧
          ∀ t, t ≠ p → t ≠ c → s.site t = .waiting) := by
  refine ⟨fun run => forever_spurious, fun p b hcall s hs hq => ?_⟩
  have hr := hs.of_restrict
  have hserving := serving hcall hs
  have hand := handed hr
  have hrest := resting_of_quiet hr hq
  obtain ⟨hsucceeded, hreturned⟩ := hserving.producer_at_rest (hrest p)
  have hplaced := hserving.placed
  rw [hsucceeded, if_pos rfl] at hplaced
  refine ⟨hreturned, hserving.cell hsucceeded, ?_⟩
  rintro ⟨first, hfirst⟩
  have hcard := card_successes hr
  rw [hplaced, List.length_singleton] at hcard
  have hp : p ∈ s.successes := mem_successes.mpr hsucceeded
  have herase := Finset.card_erase_of_mem hp
  -- a consumer that waits would have been let in before the buffer was taken
  have hdone : s.workDone = false := by
    by_contra hdone
    have hready : s.workDone = true := by simpa using hdone
    have htaken := (hand.full hready).1
    rw [hplaced, List.length_singleton] at htaken
    rcases hserving.consumer_at_rest hand (hrest first) hfirst with hat | ⟨hsucc, -⟩
    · have hfalse := allFalse hcall hs hq first hat
      rw [hcall.consumer first hfirst, hready] at hfalse
      exact Bool.noConfusion hfalse
    · have hmem : first ∈ s.successes.erase p :=
        Finset.mem_erase.mpr ⟨hfirst, mem_successes.mpr hsucc⟩
      have hpos := Finset.card_pos.mpr ⟨first, hmem⟩
      omega
  have htaken := hand.empty hdone
  rw [hplaced, List.length_singleton] at htaken
  obtain ⟨c, hc, hcp⟩ := Finset.exists_mem_ne (s := s.successes) (by omega) p
  refine ⟨c, hcp, ?_, fun t htp htc => ?_⟩
  · rcases hserving.consumer_at_rest hand (hrest c) hcp with hat | ⟨-, hat⟩
    · rw [mem_successes, hat] at hc
      exact Bool.noConfusion hc
    · exact hat
  · refine (hserving.consumer_at_rest hand (hrest t) htp).resolve_right fun hat => htc ?_
    have hone : (s.successes.erase p).card ≤ 1 := by omega
    exact Finset.card_le_one.mp hone t
      (Finset.mem_erase.mpr ⟨htp, mem_successes.mpr hat.1⟩) c (Finset.mem_erase.mpr ⟨hcp, hc⟩)

/-- The consumer waits before the producer comes. -/
theorem buffer_served_pair :
    ((machine pair).after (machine pair).init pairRun).cell = some 7 := by
  have hcall : OneProducer pair 0 7 := ⟨rfl, fun t ht => by
    obtain rfl : t = 1 := by omega
    rfl⟩
  refine ((buffer_served pair).2 0 7 hcall _ ?_ ?_).2.1
  · exact Machine.reachable_after (by decide +kernel)
  · exact quiet_of_resting (by decide +kernel)

end Served

end LinuxSystems.SharedMem
