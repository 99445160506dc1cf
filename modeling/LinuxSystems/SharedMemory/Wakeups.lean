/-
Whether a wakeup is lost.

A call that waits although its predicate is true needs somebody who still looks at
`work_done` or notifies.  That is a producer between `work_done = true` and the end of its
`notify_one`, or a call whose own predicate is true and that has not come to its end.
Three steps can leave nobody: a consumer resets `work_done` and notifies no producer; an
exception leaves a call that was woken, and nobody else is; a notification meets a thread
of the wrong kind, since both kinds wait on one condition variable.

`Missed` says that a call waits in this way and nobody is left.  Only a spurious wakeup
helps then, so a run without any ends well exactly when it never comes there.
-/
import LinuxSystems.SharedMemory.Mutex
import LinuxSystems.Machine.Names
import Mathlib.Data.Fintype.Basic

namespace LinuxSystems.SharedMem

variable {ι T : Type*} [DecidableEq ι] {call : ι → Call T} {s : SharedMem ι T} {a : Action ι}
  {t u : ι} {b : Bool}

/-! ### Rest -/

/-- A step of a call, other than a spurious wakeup. -/
def Action.IsOwn : Action ι → Prop
  | .spurious _ | .destroy _ => False
  | .lock _ | .test _ | .relock _ | .shmOpen _ _ | .mmap _ _ | .place _ | .setDone _ | .unlock _
  | .notify _ _ | .clearDone _ | .leave _ _ | .unwind _ => True

/-- No call can take a step, except by a spurious wakeup. -/
def Quiet (s : SharedMem ι T) : Prop := ∀ a, s.enabled a → ¬ a.IsOwn

/-- Every call that waits has a false predicate. -/
def AllFalse (call : ι → Call T) (s : SharedMem ι T) : Prop :=
  ∀ t, s.site t = .waiting → (call t).isReady s.workDone = false

/-! ### Who can still tell -/

/-- A call that has neither come to its end nor gone to sleep. -/
def Site.isUnderway : Site → Prop
  | .lock | .test | .woken | .shmOpen | .mmap | .place | .setDone | .clearDone | .throwing => True
  | .waiting | .unlock | .notify | .leave _ | .published | .received _ | .finished | .threw => False

instance : ∀ x : Site, Decidable x.isUnderway
  | .lock | .test | .woken | .shmOpen | .mmap | .place | .setDone | .clearDone | .throwing =>
      isTrue trivial
  | .waiting | .unlock | .notify | .leave _ | .published | .received _ | .finished | .threw =>
      isFalse id

/-- A call at `x` notifies, or looks at `work_done` while it is `b` and does what `b` asks for. -/
def Tells (c : Call T) (b : Bool) (x : Site) : Prop :=
  x = .unlock ∨ x = .notify ∨ (c.isReady b = true ∧ x.isUnderway)

/-- A call waits whose predicate is true where `work_done` is `b`. -/
def Waits (call : ι → Call T) (s : SharedMem ι T) (b : Bool) : Prop :=
  ∃ u, s.site u = .waiting ∧ (call u).isReady b = true

/-- Another call than `t` tells. -/
def AnotherTells (call : ι → Call T) (s : SharedMem ι T) (t : ι) (b : Bool) : Prop :=
  ∃ u, u ≠ t ∧ Tells (call u) b (s.site u)

/-- A call waits although its predicate is true, and nobody tells. -/
structure Missed (call : ι → Call T) (s : SharedMem ι T) : Prop where
  waits : Waits call s s.workDone
  nobody : ∀ u, ¬ Tells (call u) s.workDone (s.site u)

/-- The step does not take away the last call that tells one that waits. -/
def Informs (call : ι → Call T) (s : SharedMem ι T) : Action ι → Prop
  | .clearDone t => Waits call s false → AnotherTells call s t false
  | .unwind t => Waits call s s.workDone → AnotherTells call s t s.workDone
  | .notify t w => Waits call s s.workDone →
      (∃ u, w = some u ∧ (call u).isReady s.workDone = true) ∨ AnotherTells call s t s.workDone
  | _ => True

instance (c : Call T) (b : Bool) (x : Site) : Decidable (Tells c b x) :=
  inferInstanceAs (Decidable (_ ∨ _ ∨ _))

instance [Fintype ι] (call : ι → Call T) (s : SharedMem ι T) (b : Bool) :
    Decidable (Waits call s b) :=
  inferInstanceAs (Decidable (∃ _, _))

instance [Fintype ι] (call : ι → Call T) (s : SharedMem ι T) (t : ι) (b : Bool) :
    Decidable (AnotherTells call s t b) :=
  inferInstanceAs (Decidable (∃ _, _))

instance [Fintype ι] (call : ι → Call T) (s : SharedMem ι T) : ∀ a, Decidable (Informs call s a)
  | .clearDone _ | .unwind _ => inferInstanceAs (Decidable (_ → _))
  | .notify _ _ => inferInstanceAs (Decidable (_ → (∃ _, _) ∨ _))
  | .lock _ | .test _ | .spurious _ | .relock _ | .shmOpen _ _ | .mmap _ _ | .place _ | .setDone _
  | .unlock _ | .leave _ _ | .destroy _ => isTrue trivial

theorem not_tells_waiting (c : Call T) (b : Bool) : ¬ Tells c b .waiting := by
  simp [Tells, Site.isUnderway]

/-! ### A step from place to place -/

/-- Nobody is missed by a step that leaves `work_done`, as long as `t` goes on to tell and does
not go to sleep with a true predicate. -/
theorem not_missed_goto (h : ¬ Missed call s) {s' : SharedMem ι T} {x : Site}
    (hsite : s'.site = (s.goto t x).site) (hdone : s'.workDone = s.workDone)
    (hwait : x = .waiting → (call t).isReady s.workDone = false)
    (htells : Tells (call t) s.workDone (s.site t) → Tells (call t) s.workDone x) :
    ¬ Missed call s' := by
  intro hmissed
  obtain ⟨⟨u, hu, hready⟩, hnobody⟩ := hmissed
  rw [hsite] at hu
  rw [hdone] at hready hnobody
  refine h ⟨⟨u, ?_, hready⟩, fun v hv => ?_⟩
  · by_cases hut : u = t
    · rw [hut, goto_site] at hu
      rw [hut, hwait hu] at hready
      exact absurd hready (by simp)
    · rwa [goto_site_of_ne hut] at hu
  · have hnot := hnobody v
    rw [hsite] at hnot
    by_cases hvt : v = t
    · subst hvt
      rw [goto_site] at hnot
      exact hnot (htells hv)
    · rw [goto_site_of_ne hvt] at hnot
      exact hnot hv

/-- Somebody stays missed as long as nobody comes to tell. -/
theorem missed_goto (h : Missed call s) {s' : SharedMem ι T} {x : Site}
    (hsite : s'.site = (s.goto t x).site) (hdone : s'.workDone = s.workDone)
    (hat : s.site t ≠ .waiting) (htells : ¬ Tells (call t) s.workDone x) : Missed call s' := by
  obtain ⟨u, hu, hready⟩ := h.waits
  have hut : u ≠ t := ne_of_site hu hat
  refine ⟨⟨u, ?_, hdone ▸ hready⟩, fun v hv => ?_⟩
  · rw [hsite, goto_site_of_ne hut]
    exact hu
  · rw [hsite, hdone] at hv
    by_cases hvt : v = t
    · subst hvt
      rw [goto_site] at hv
      exact htells hv
    · rw [goto_site_of_ne hvt] at hv
      exact h.nobody v hv

/-- After a step of `t` to a place where it tells nobody, the others are all there is. -/
theorem missed_goto_iff {r : SharedMem ι T} {x : Site} (hsite : r.site = (s.goto t x).site)
    (hat : s.site t ≠ .waiting) (hx : x ≠ .waiting) (htells : ¬ Tells (call t) r.workDone x) :
    Missed call r ↔ Waits call s r.workDone ∧ ¬ AnotherTells call s t r.workDone := by
  have hother : ∀ {v y}, v ≠ t → (r.site v = y ↔ s.site v = y) := by
    intro v y hv
    rw [hsite, goto_site_of_ne hv]
  have hself : r.site t = x := by rw [hsite, goto_site]
  constructor
  · intro hmissed
    obtain ⟨⟨u, hu, hready⟩, hnobody⟩ := hmissed
    have hut : u ≠ t := ne_of_site hu (hself ▸ hx)
    refine ⟨⟨u, (hother hut).mp hu, hready⟩, ?_⟩
    rintro ⟨v, hvt, hv⟩
    have hv' : r.site v = s.site v := (hother hvt).mpr rfl
    exact hnobody v (hv' ▸ hv)
  · intro hothers
    obtain ⟨⟨u, hu, hready⟩, hnobody⟩ := hothers
    have hut : u ≠ t := ne_of_site hu hat
    refine ⟨⟨u, (hother hut).mpr hu, hready⟩, fun v hv => ?_⟩
    by_cases hvt : v = t
    · rw [hvt, hself] at hv
      exact htells hv
    · have hv' : r.site v = s.site v := (hother hvt).mpr rfl
      exact hnobody ⟨v, hvt, hv' ▸ hv⟩

/-! ### The three steps that can leave nobody -/

theorem clearDone_missed_iff (hat : s.site t = .clearDone) :
    Missed call (s.step call (.clearDone t)) ↔ ¬ Informs call s (.clearDone t) := by
  have htells : ¬ Tells (call t) false (.leave s.taken) := by simp [Tells, Site.isUnderway]
  have hiff := missed_goto_iff (s := s) (r := s.step call (.clearDone t)) rfl (by simp [hat])
    (by simp) htells
  rw [hiff]
  exact Classical.not_imp.symm

theorem unwind_missed_iff (hat : s.site t = .throwing) :
    Missed call (s.step call (.unwind t)) ↔ ¬ Informs call s (.unwind t) := by
  have htells : ¬ Tells (call t) s.workDone .threw := by simp [Tells, Site.isUnderway]
  have hiff := missed_goto_iff (s := s) (r := s.step call (.unwind t)) rfl (by simp [hat])
    (by simp) htells
  rw [hiff]
  exact Classical.not_imp.symm

/-- A thread of the wrong kind that was woken leaves everything as it was. -/
theorem wake_wrong (hat : s.site u = .waiting) (hready : (call u).isReady b = false) :
    (Waits call (s.goto u .woken) b ↔ Waits call s b) ∧
      (AnotherTells call (s.goto u .woken) t b ↔ AnotherTells call s t b) := by
  have hwoken : ¬ Tells (call u) b .woken := by simp [Tells, hready]
  constructor
  · refine exists_congr fun v => and_congr_left fun hv => ?_
    have hvu : v ≠ u := by
      rintro rfl
      simp [hready] at hv
    rw [goto_site_of_ne hvu]
  · refine exists_congr fun v => and_congr_right fun _ => ?_
    by_cases hvu : v = u
    · rw [hvu, goto_site, hat]
      exact iff_of_false hwoken (not_tells_waiting _ _)
    · rw [goto_site_of_ne hvu]

theorem notify_missed_iff {w : Option ι} (ha : s.enabled (.notify t w)) :
    Missed call (s.step call (.notify t w)) ↔ ¬ Informs call s (.notify t w) := by
  obtain ⟨hat, hw⟩ := ha
  have hpublished : ∀ c : Call T, ¬ Tells c s.workDone .published := by
    simp [Tells, Site.isUnderway]
  cases w with
  | none =>
      have hiff := missed_goto_iff (s := s) (r := s.step call (.notify t none))
        (x := .published) rfl (by simp [hat]) (by simp) (hpublished (call t))
      rw [hiff]
      simp only [Informs, reduceCtorEq, false_and, exists_false, false_or]
      exact Classical.not_imp.symm
  | some u =>
      have hut : u ≠ t := ne_of_site hw (by simp [hat])
      have hat' : (s.goto u .woken).site t = .notify := by rw [goto_site_of_ne hut.symm, hat]
      have hiff := missed_goto_iff (s := s.goto u .woken)
        (r := s.step call (.notify t (some u))) (x := .published) rfl (by simp [hat']) (by simp)
        (hpublished (call t))
      rw [hiff]
      cases hready : (call u).isReady s.workDone with
      | true =>
          -- the thread that was woken tells
          have hanother : AnotherTells call (s.goto u .woken) t s.workDone := by
            refine ⟨u, hut, Or.inr (Or.inr ⟨hready, ?_⟩)⟩
            rw [goto_site]
            trivial
          have hinforms : Informs call s (.notify t (some u)) :=
            fun _ => Or.inl ⟨u, rfl, hready⟩
          exact iff_of_false (fun h => h.2 hanother) (not_not.mpr hinforms)
      | false =>
          obtain ⟨hwaits, hothers⟩ := wake_wrong (t := t) hw hready
          have hnot : ¬ ∃ v, some u = some v ∧ (call v).isReady s.workDone = true := by
            rintro ⟨v, huv, hv⟩
            obtain rfl : u = v := Option.some.inj huv
            simp [hready] at hv
          show Waits call (s.goto u .woken) s.workDone ∧
            ¬ AnotherTells call (s.goto u .woken) t s.workDone ↔ _
          rw [hwaits, hothers]
          simp only [Informs, hnot, false_or]
          exact Classical.not_imp.symm

/-! ### Every step -/

theorem not_missed_step (h : ¬ Missed call s) (ha : s.enabled a) (hi : Informs call s a) :
    ¬ Missed call (s.step call a) := by
  -- a call that is under way stays so
  have stay : ∀ {x y : Site} {s' : SharedMem ι T} {t : ι}, s.site t = x → x.isUnderway →
      y.isUnderway → s'.site = (s.goto t y).site → s'.workDone = s.workDone → ¬ Missed call s' := by
    rintro x y s' t rfl hx hy hsite hdone
    refine not_missed_goto h hsite hdone ?_ ?_
    · rintro rfl
      exact hy.elim
    · rintro (hat | hat | ⟨hready, -⟩)
      · rw [hat] at hx
        exact hx.elim
      · rw [hat] at hx
        exact hx.elim
      · exact Or.inr (Or.inr ⟨hready, hy⟩)
  cases a with
  | lock t => exact stay (y := .test) ha.1 trivial trivial rfl rfl
  | relock t => exact stay (y := .test) ha.1 trivial trivial rfl rfl
  | test t =>
      have hat : s.site t = .test := ha
      show ¬ Missed call (if _ then _ else _)
      split
      case isTrue => exact stay (y := .shmOpen) hat trivial trivial rfl rfl
      case isFalse hready =>
        refine not_missed_goto h rfl rfl (fun _ => by simpa using hready) ?_
        rintro (hx | hx | ⟨hr, -⟩)
        · simp [hat] at hx
        · simp [hat] at hx
        · exact absurd hr hready
  | spurious t =>
      refine not_missed_goto h rfl rfl nofun fun htells => ?_
      rw [show s.site t = .waiting from ha] at htells
      exact absurd htells (not_tells_waiting _ _)
  | shmOpen t ok =>
      cases ok with
      | false => exact stay (y := .throwing) ha trivial trivial rfl rfl
      | true => exact stay (y := .mmap) ha trivial trivial rfl rfl
  | mmap t ok =>
      cases ok with
      | false => exact stay (y := .throwing) ha trivial trivial rfl rfl
      | true =>
          refine stay ha trivial ?_ rfl rfl
          show Site.isUnderway (if (call t).isProducer then _ else _)
          split <;> trivial
  | place t => exact stay (y := .setDone) ha trivial trivial rfl rfl
  | setDone t =>
      intro hmissed
      have hself : ¬ Tells (call t) true ((s.goto t .unlock).site t) := hmissed.nobody t
      rw [goto_site] at hself
      exact hself (Or.inl rfl)
  | unlock t => exact not_missed_goto h rfl rfl nofun fun _ => Or.inr (Or.inl rfl)
  | notify t w => exact fun hm => (notify_missed_iff ha).mp hm hi
  | clearDone t => exact fun hm => (clearDone_missed_iff ha).mp hm hi
  | unwind t => exact fun hm => (unwind_missed_iff ha).mp hm hi
  | leave t i =>
      refine not_missed_goto h rfl rfl nofun fun htells => ?_
      rw [show s.site t = .leave i from ha] at htells
      simp [Tells, Site.isUnderway] at htells
  | destroy t =>
      refine not_missed_goto h rfl rfl nofun fun htells => ?_
      have hlive : (s.site t).isLive := ha
      cases hat : s.site t <;> simp_all [Tells, Site.isLive, Site.isUnderway]

theorem missed_of_not_informs (ha : s.enabled a) (hi : ¬ Informs call s a) :
    Missed call (s.step call a) := by
  cases a with
  | clearDone t => exact (clearDone_missed_iff ha).mpr hi
  | unwind t => exact (unwind_missed_iff ha).mpr hi
  | notify t w => exact (notify_missed_iff ha).mpr hi
  | lock t | test t | spurious t | relock t | shmOpen t ok | mmap t ok | place t | setDone t
  | unlock t | leave t i | destroy t => exact absurd trivial hi

/-- Who is missed stays so, unless a thread wakes up for no reason. -/
theorem Missed.step (h : Missed call s) (hg : Granted call s) (ha : s.enabled a)
    (hs : ∀ t, a ≠ .spurious t) : Missed call (s.step call a) := by
  have hnot : ∀ {t x}, s.site t = x → ¬ Tells (call t) s.workDone x := by
    rintro t _ rfl
    exact h.nobody t
  -- a call whose predicate is false may go where it wants but to a notification
  have away : ∀ {x y : Site} {s' : SharedMem ι T} {t : ι}, s.site t = x → x ≠ .waiting →
      x.isUnderway → y ≠ .unlock → y ≠ .notify → s'.site = (s.goto t y).site →
      s'.workDone = s.workDone → Missed call s' := by
    intro x y s' t hat hx hunder hy hy' hsite hdone
    refine missed_goto h hsite hdone (hat ▸ hx) ?_
    rintro (hz | hz | ⟨hready, -⟩)
    · exact hy hz
    · exact hy' hz
    · exact hnot hat (Or.inr (Or.inr ⟨hready, hunder⟩))
  -- and it was not let in
  have out : ∀ {t x}, s.site t = x → x.isGranted → x.isUnderway → False := by
    rintro t _ rfl hgranted hunder
    exact h.nobody t (Or.inr (Or.inr ⟨hg t hgranted, hunder⟩))
  cases a with
  | lock t => exact away ha.1 (by simp) trivial (by simp) (by simp) rfl rfl
  | relock t => exact away ha.1 (by simp) trivial (by simp) (by simp) rfl rfl
  | test t =>
      show Missed call (if _ then _ else _)
      split
      · exact away ha (by simp) trivial (by simp) (by simp) rfl rfl
      · exact away ha (by simp) trivial (by simp) (by simp) rfl rfl
  | spurious t => exact absurd rfl (hs t)
  | shmOpen t ok => exact (out ha trivial trivial).elim
  | mmap t ok => exact (out ha trivial trivial).elim
  | place t => exact (out ha trivial trivial).elim
  | setDone t => exact (out ha trivial trivial).elim
  | clearDone t => exact (out ha trivial trivial).elim
  | unlock t => exact absurd (Or.inl rfl) (hnot ha)
  | notify t w => exact absurd (Or.inr (Or.inl rfl)) (hnot ha.1)
  | unwind t => exact away ha (by simp) trivial (by simp) (by simp) rfl rfl
  | leave t i =>
      have hat : s.site t = .leave i := ha
      exact missed_goto (x := .received i) h rfl rfl (by simp [hat])
        (by simp [Tells, Site.isUnderway])
  | destroy t =>
      refine missed_goto (x := .finished) h rfl rfl ?_ (by simp [Tells, Site.isUnderway])
      intro hat
      have hlive : (s.site t).isLive := ha
      rw [hat] at hlive
      exact hlive

/-! ### Coming to rest -/

omit [DecidableEq ι] in
/-- Who is inside can go on. -/
theorem own_of_inside (h : (s.site t).stand = .inside) : ∃ a, s.enabled a ∧ a.IsOwn := by
  cases hat : s.site t with
  | test => exact ⟨.test t, hat, trivial⟩
  | shmOpen => exact ⟨.shmOpen t true, hat, trivial⟩
  | mmap => exact ⟨.mmap t true, hat, trivial⟩
  | place => exact ⟨.place t, hat, trivial⟩
  | setDone => exact ⟨.setDone t, hat, trivial⟩
  | unlock => exact ⟨.unlock t, hat, trivial⟩
  | clearDone => exact ⟨.clearDone t, hat, trivial⟩
  | leave i => exact ⟨.leave t i, hat, trivial⟩
  | throwing => exact ⟨.unwind t, hat, trivial⟩
  | lock | waiting | woken | notify | published | received | finished | threw =>
      rw [hat] at h
      exact nomatch h

/-- Who tells can go on, or waits for somebody inside who can. -/
theorem own_of_tells (hr : (machine call).Reachable s) (h : Tells (call t) b (s.site t)) :
    ∃ a, s.enabled a ∧ a.IsOwn := by
  have enter : (s.owner = none → ∃ a, s.enabled a ∧ a.IsOwn) → ∃ a, s.enabled a ∧ a.IsOwn := by
    intro hfree
    cases howner : s.owner with
    | none => exact hfree howner
    | some u => exact own_of_inside ((owner_iff hr u).mpr howner)
  cases hat : s.site t with
  | lock => exact enter fun hfree => ⟨.lock t, ⟨hat, hfree⟩, trivial⟩
  | woken => exact enter fun hfree => ⟨.relock t, ⟨hat, hfree⟩, trivial⟩
  | notify =>
      by_cases hw : ∃ u, s.site u = .waiting
      · obtain ⟨u, hu⟩ := hw
        exact ⟨.notify t (some u), ⟨hat, hu⟩, trivial⟩
      · exact ⟨.notify t none, ⟨hat, not_exists.mp hw⟩, trivial⟩
  | test | shmOpen | mmap | place | setDone | unlock | clearDone | throwing =>
      exact own_of_inside (congrArg Site.stand hat)
  | waiting | leave | published | received | finished | threw =>
      simp [hat, Tells, Site.isUnderway] at h

/-- A call that is asleep or has come to its end. -/
def Site.isResting : Site → Prop
  | .waiting | .published | .received _ | .finished | .threw => True
  | .lock | .test | .woken | .shmOpen | .mmap | .place | .setDone | .unlock | .notify | .clearDone
  | .leave _ | .throwing => False

instance : ∀ x : Site, Decidable x.isResting
  | .waiting | .published | .received _ | .finished | .threw => isTrue trivial
  | .lock | .test | .woken | .shmOpen | .mmap | .place | .setDone | .unlock | .notify | .clearDone
  | .leave _ | .throwing => isFalse id

omit [DecidableEq ι] in
theorem quiet_of_resting (h : ∀ t, (s.site t).isResting) : Quiet s := by
  intro a ha hown
  have hno : ∀ {t x}, s.site t = x → ¬ x.isResting → False := by
    rintro t _ rfl hx
    exact hx (h t)
  cases a with
  | lock t => exact hno ha.1 id
  | relock t => exact hno ha.1 id
  | notify t w => exact hno ha.1 id
  | test t => exact hno ha id
  | shmOpen t ok => exact hno ha id
  | mmap t ok => exact hno ha id
  | place t => exact hno ha id
  | setDone t => exact hno ha id
  | unlock t => exact hno ha id
  | clearDone t => exact hno ha id
  | leave t i => exact hno ha id
  | unwind t => exact hno ha id
  | spurious t | destroy t => exact hown

/-- At rest nobody tells, so nobody is missed exactly where every call that waits has a false
predicate. -/
theorem allFalse_iff (hr : (machine call).Reachable s) (hq : Quiet s) :
    AllFalse call s ↔ ¬ Missed call s := by
  have hnobody : ∀ u, ¬ Tells (call u) s.workDone (s.site u) := by
    intro u hu
    obtain ⟨a, ha, hown⟩ := own_of_tells hr hu
    exact hq a ha hown
  constructor
  · intro hall hmissed
    obtain ⟨u, hu, hready⟩ := hmissed.waits
    rw [hall u hu] at hready
    exact absurd hready (by simp)
  · intro hm t ht
    by_contra hready
    exact hm ⟨⟨t, ht, by simpa using hready⟩, hnobody⟩

theorem not_missed_reachable (h : ((machine call).restrict (Informs call)).Reachable s) :
    ¬ Missed call s := by
  refine h.invariant (P := fun s => ¬ Missed call s) ?_ ?_
  · intro hmissed
    obtain ⟨u, hu, -⟩ := hmissed.waits
    exact nomatch hu
  · exact fun s a _ hs ha => not_missed_step hs ha.1 ha.2

/-- A run without spurious wakeups keeps to the condition, or somebody is missed from then on. -/
theorem informs_or_missed {tr : List (Action ι)}
    (hl : (machine call).Legal (machine call).init tr) (hs : ∀ t, .spurious t ∉ tr) :
    ((machine call).restrict (Informs call)).Legal (machine call).init tr ∨
      Missed call ((machine call).after (machine call).init tr) := by
  revert hs
  refine Machine.run_invariant (m := machine call)
    (P := fun tr s => (∀ t, .spurious t ∉ tr) →
      ((machine call).restrict (Informs call)).Legal (machine call).init tr ∨ Missed call s)
    (fun _ => Or.inl trivial) ?_ hl
  intro tr a hl hP ha hs
  have hrest : ∀ t, .spurious t ∉ tr := fun t ht => hs t (List.mem_append_left _ ht)
  have hlast : ∀ t, a ≠ .spurious t := fun t hat => hs t (by simp [hat])
  rcases hP hrest with hinforms | hmissed
  · by_cases hi : Informs call ((machine call).after (machine call).init tr) a
    · exact Or.inl (Machine.legal_snoc.mpr ⟨hinforms, ha, hi⟩)
    · exact Or.inr (missed_of_not_informs ha hi)
  · exact Or.inr (hmissed.step (granted (Machine.reachable_after hl)) ha hlast)

/-! ### No wakeup is lost -/

/--
**No wakeup is lost exactly where each step leaves somebody to tell.**  In a run whose
steps all do, every state in which no call can go on has only calls with a false predicate
waiting.  In a run without spurious wakeups that comes to such a state, all of them did.
-/
theorem wakeups_kept (call : ι → Call T) (tr : List (Action ι)) :
    (((machine call).restrict (Informs call)).Legal (machine call).init tr →
      Quiet ((machine call).after (machine call).init tr) →
      AllFalse call ((machine call).after (machine call).init tr)) ∧
    ((machine call).Legal (machine call).init tr → (∀ t, .spurious t ∉ tr) →
      Quiet ((machine call).after (machine call).init tr) →
      AllFalse call ((machine call).after (machine call).init tr) →
      ((machine call).restrict (Informs call)).Legal (machine call).init tr) := by
  constructor
  · intro hinforms hq
    have hr := Machine.reachable_after (Machine.restrict_legal hinforms)
    exact (allFalse_iff hr hq).mpr (not_missed_reachable (Machine.reachable_after hinforms))
  · intro hl hs hq hall
    have hr := Machine.reachable_after hl
    exact (informs_or_missed hl hs).resolve_right ((allFalse_iff hr hq).mp hall)

attribute [local instance] neZeroTwo neZeroThree

/-- One producer and one consumer, who waits first. -/
def pair : Fin 2 → Call Nat
  | 0 => .producer 7
  | 1 => .consumer

def pairRun : List (Action (Fin 2)) :=
  [.lock 1, .test 1, .lock 0, .test 0, .shmOpen 0 true, .mmap 0 true, .place 0, .setDone 0,
    .unlock 0, .notify 0 (some 1), .relock 1, .test 1, .shmOpen 1 true, .mmap 1 true, .clearDone 1,
    .leave 1 0]

theorem wakeups_kept_pair :
    AllFalse pair ((machine pair).after (machine pair).init pairRun) ∧
      ((machine pair).restrict (Informs pair)).Legal (machine pair).init pairRun := by
  have hq : Quiet ((machine pair).after (machine pair).init pairRun) :=
    quiet_of_resting (by decide +kernel)
  have hall := (wakeups_kept pair pairRun).1 (by decide +kernel) hq
  exact ⟨hall, (wakeups_kept pair pairRun).2 (by decide +kernel) (by simp [pairRun]) hq hall⟩

/-- Two producers and a consumer. -/
def twoProducers : Fin 3 → Call Nat
  | 0 => .producer 7
  | 1 => .producer 8
  | 2 => .consumer

/-- The second producer goes to sleep before the consumer takes the first one's buffer. -/
def unnotified : List (Action (Fin 3)) :=
  [.lock 0, .test 0, .shmOpen 0 true, .mmap 0 true, .place 0, .setDone 0, .unlock 0, .notify 0 none,
    .lock 1, .test 1, .lock 2, .test 2, .shmOpen 2 true, .mmap 2 true, .clearDone 2, .leave 2 0]

/-- Nobody tells it that the region is free again. -/
theorem wakeup_lost :
    ¬ ∀ s, (machine twoProducers).Reachable s → Quiet s → AllFalse twoProducers s := by
  intro hall
  have hl : (machine twoProducers).Legal (machine twoProducers).init unnotified := by
    decide +kernel
  have hq : Quiet ((machine twoProducers).after (machine twoProducers).init unnotified) :=
    quiet_of_resting (by decide +kernel)
  have hfalse := hall _ (Machine.reachable_after hl) hq 1 (by decide +kernel)
  revert hfalse
  decide +kernel

end LinuxSystems.SharedMem
