/-
The life of a receiver and of its awaiter.

The file first says what a step can do to each part of the state, one lemma a part,
and every invariant of the event is derived from those.

What always holds is `Sound`.  `notified` is false from the start and is only ever
set to false, so `await_suspend` never returns early; an awaiter gets into the slot,
and out of it, after its receiver was suspended; and until some call of `notify` has
loaded it, nothing continues that receiver.
-/
import LinuxSystems.Event.Model

namespace LinuxSystems.Event

variable {R N T : Type*} [DecidableEq R] [DecidableEq N] {zero : T} {buffer : N → T}
  {s : Event R N T} {a : Action R N}

/-! ### What a step does to each part of the state -/

/-- The check of `notified` reads; it may continue the coroutine. -/
theorem check_rest (buffer : N → T) (s : Event R N T) (r : R) :
    (step buffer s (.check r)).notified = s.notified ∧
      (step buffer s (.check r)).suspended = s.suspended ∧
      (step buffer s (.check r)).call = s.call ∧
      (step buffer s (.check r)).loads = s.loads ∧
      (step buffer s (.check r)).resumes = s.resumes := by
  simp only [step]
  split <;> exact ⟨rfl, rfl, rfl, rfl, rfl⟩

/-- The load of `suspended` reads; what it found is recorded. -/
theorem load_rest (buffer : N → T) (s : Event R N T) (j : N) :
    (step buffer s (.load j)).notified = s.notified ∧
      (step buffer s (.load j)).suspended = s.suspended ∧
      (step buffer s (.load j)).frame = s.frame ∧
      (step buffer s (.load j)).await = s.await ∧
      (step buffer s (.load j)).resumes = s.resumes := by
  simp only [step]
  split <;> exact ⟨rfl, rfl, rfl, rfl, rfl⟩

/-- `resume()` touches the coroutine and nothing of the event. -/
theorem resume_rest (buffer : N → T) (s : Event R N T) (j : N) (r : R) :
    (step buffer s (.resume j r)).notified = s.notified ∧
      (step buffer s (.resume j r)).suspended = s.suspended ∧
      (step buffer s (.resume j r)).await = s.await ∧
      (step buffer s (.resume j r)).loads = s.loads ∧
      (step buffer s (.resume j r)).resumes = s.resumes ++ [(r, s.frame r)] := by
  simp only [step]
  split <;> exact ⟨rfl, rfl, rfl, rfl, rfl⟩

/-- A frame is suspended by its own `co_await` and continued by a `resume()`, or by an
`await_suspend` that returns false. -/
theorem frame_step (buffer : N → T) (ha : s.enabled a) (r : R) :
    (step buffer s a).frame r = s.frame r ∨
      (a = .await r ∧ (step buffer s a).frame r = .suspended) ∨
      (a = .check r ∧ s.notified = true ∧ (step buffer s a).frame r = .resumed) ∨
      (∃ j, a = .resume j r ∧ s.frame r = .suspended ∧
        (step buffer s a).frame r = .resumed) ∨
      ((s.frame r).past ∧ ((step buffer s a).frame r).past) := by
  cases a with
  | await r' =>
      by_cases h : r = r'
      · subst h
        exact Or.inr (Or.inl ⟨rfl, by simp [step, setFrame, setAwait]⟩)
      · exact Or.inl (by simp [step, setFrame, setAwait, h])
  | check r' =>
      by_cases hn : s.notified = true
      · by_cases h : r = r'
        · subst h
          exact Or.inr (Or.inr (Or.inl ⟨rfl, hn, by simp [step, setFrame, setAwait, hn]⟩))
        · exact Or.inl (by simp [step, setFrame, setAwait, hn, h])
      · exact Or.inl (by simp [step, setAwait, hn])
  | mapRead r' ok =>
      by_cases h : r = r'
      · subst h
        refine Or.inr (Or.inr (Or.inr (Or.inr ⟨?_, ?_⟩)))
        · rw [show s.frame r = .resumed from ha]
          trivial
        · simp only [step, setFrame, Function.update_self]
          cases ok <;> trivial
      · exact Or.inl (by simp [step, setFrame, h])
  | print r' =>
      by_cases h : r = r'
      · subst h
        refine Or.inr (Or.inr (Or.inr (Or.inr ⟨?_, ?_⟩)))
        · rw [show s.frame r = .mapped from ha]
          trivial
        · simp [step, setFrame, Frame.past]
      · exact Or.inl (by simp [step, setFrame, h])
  | resume j r' =>
      by_cases hs : s.frame r' = .suspended
      · by_cases h : r = r'
        · subst h
          exact Or.inr (Or.inr (Or.inr (Or.inl ⟨j, rfl, hs, by simp [step, setFrame, hs]⟩)))
        · exact Or.inl (by simp [step, setFrame, setCall, hs, h])
      · exact Or.inl (by simp [step, setCall, hs])
  | load j => exact Or.inl (congrFun (load_rest buffer s j).2.2.1 r)
  | store r' | returnTrue r' | clear j | mapWrite j r' ok | write j r' | returnNotify j r' =>
      exact Or.inl rfl

theorem await_step (buffer : N → T) (ha : s.enabled a) (r : R) :
    (step buffer s a).await r = s.await r ∨
      (a = .await r ∧ (step buffer s a).await r = .check) ∨
      (a = .check r ∧ s.await r = .check ∧ (if s.notified then
        (step buffer s a).await r = .returned else (step buffer s a).await r = .store)) ∨
      (a = .store r ∧ s.await r = .store ∧ (step buffer s a).await r = .stored) ∨
      (a = .returnTrue r ∧ s.await r = .stored ∧ (step buffer s a).await r = .returned) := by
  cases a with
  | await r' =>
      by_cases h : r = r'
      · subst h
        exact Or.inr (Or.inl ⟨rfl, by simp [step, setAwait]⟩)
      · exact Or.inl (by simp [step, setFrame, setAwait, h])
  | check r' =>
      by_cases h : r = r'
      · subst h
        refine Or.inr (Or.inr (Or.inl ⟨rfl, ha, ?_⟩))
        by_cases hn : s.notified = true
        · simp [step, setFrame, setAwait, hn]
        · simp [step, setAwait, hn]
      · refine Or.inl ?_
        by_cases hn : s.notified = true
        · simp [step, setFrame, setAwait, hn, h]
        · simp [step, setAwait, hn, h]
  | store r' =>
      by_cases h : r = r'
      · subst h
        exact Or.inr (Or.inr (Or.inr (Or.inl ⟨rfl, ha, by simp [step, setAwait]⟩)))
      · exact Or.inl (by simp [step, setAwait, h])
  | returnTrue r' =>
      by_cases h : r = r'
      · subst h
        exact Or.inr (Or.inr (Or.inr (Or.inr ⟨rfl, ha, by simp [step, setAwait]⟩)))
      · exact Or.inl (by simp [step, setAwait, h])
  | resume j r' => exact Or.inl (congrFun (resume_rest buffer s j r').2.2.1 r)
  | load j => exact Or.inl (congrFun (load_rest buffer s j).2.2.2.1 r)
  | mapRead r' ok | print r' | clear j | mapWrite j r' ok | write j r' | returnNotify j r' =>
      exact Or.inl rfl

/-- `notified` is only ever made false. -/
theorem notified_step : (step buffer s a).notified = true → s.notified = true := by
  intro h
  cases a with
  | check r => exact (check_rest buffer s r).1 ▸ h
  | load j => exact (load_rest buffer s j).1 ▸ h
  | resume j r => exact (resume_rest buffer s j r).1 ▸ h
  | clear j => simp [step] at h
  | await r | store r | returnTrue r | mapRead r ok | print r | mapWrite j r ok | write j r
  | returnNotify j r => exact h

/-- The slot is written by a receiver's store and by nothing else. -/
theorem suspended_step (buffer : N → T) (s : Event R N T) (a : Action R N) :
    (step buffer s a).suspended = s.suspended ∨
      ∃ r, a = .store r ∧ (step buffer s a).suspended = some r := by
  cases a with
  | store r => exact Or.inr ⟨r, rfl, rfl⟩
  | check r => exact Or.inl (check_rest buffer s r).2.1
  | load j => exact Or.inl (load_rest buffer s j).2.1
  | resume j r => exact Or.inl (resume_rest buffer s j r).2.1
  | await r | returnTrue r | mapRead r ok | print r | clear j | mapWrite j r ok | write j r
  | returnNotify j r => exact Or.inl rfl

/-- An awaiter is loaded out of the slot. -/
theorem loads_step (buffer : N → T) (s : Event R N T) (a : Action R N) :
    (step buffer s a).loads = s.loads ∨
      ∃ j r, a = .load j ∧ s.suspended = some r ∧ (step buffer s a).loads = s.loads ++ [r] := by
  cases a with
  | load j =>
      cases hs : s.suspended with
      | none => exact Or.inl (by simp [step, setCall, hs])
      | some r => exact Or.inr ⟨j, r, rfl, rfl, by simp [step, setCall, hs]⟩
  | check r => exact Or.inl (check_rest buffer s r).2.2.2.1
  | resume j r => exact Or.inl (resume_rest buffer s j r).2.2.2.1
  | await r | store r | returnTrue r | mapRead r ok | print r | clear j | mapWrite j r ok
  | write j r | returnNotify j r => exact Or.inl rfl

/-- The way of a call of `notify` through its body. -/
theorem call_step (buffer : N → T) (ha : s.enabled a) (j : N) :
    (step buffer s a).call j = s.call j ∨
      (a = .clear j ∧ s.call j = .idle ∧ (step buffer s a).call j = .load) ∨
      (a = .load j ∧ s.call j = .load ∧
        (step buffer s a).call j = s.suspended.elim .returned .map) ∨
      (∃ r, s.call j = .map r ∧ ((step buffer s a).call j = .write r ∨
        (step buffer s a).call j = .resume r)) ∨
      (∃ r, s.call j = .write r ∧ (step buffer s a).call j = .resume r) ∨
      (∃ r, a = .resume j r ∧ s.call j = .resume r ∧ (step buffer s a).call j = .running r) ∨
      (∃ r, s.call j = .running r ∧ (step buffer s a).call j = .returned) := by
  cases a with
  | clear j' =>
      by_cases h : j = j'
      · subst h
        exact Or.inr (Or.inl ⟨rfl, ha, by simp [step, setCall]⟩)
      · exact Or.inl (by simp [step, setCall, h])
  | load j' =>
      by_cases h : j = j'
      · subst h
        refine Or.inr (Or.inr (Or.inl ⟨rfl, ha, ?_⟩))
        cases hs : s.suspended <;> simp [step, setCall, hs]
      · refine Or.inl ?_
        cases hs : s.suspended <;> simp [step, setCall, hs, h]
  | mapWrite j' r ok =>
      by_cases h : j = j'
      · subst h
        refine Or.inr (Or.inr (Or.inr (Or.inl ⟨r, ha, ?_⟩)))
        cases ok <;> simp [step, setCall]
      · exact Or.inl (by simp [step, setCall, h])
  | write j' r =>
      by_cases h : j = j'
      · subst h
        exact Or.inr (Or.inr (Or.inr (Or.inr (Or.inl ⟨r, ha, by simp [step, setCall]⟩))))
      · exact Or.inl (by simp [step, setCall, h])
  | resume j' r =>
      by_cases h : j = j'
      · subst h
        refine Or.inr (Or.inr (Or.inr (Or.inr (Or.inr (Or.inl ⟨r, rfl, ha, ?_⟩)))))
        simp only [step]
        split <;> simp [setCall, setFrame]
      · refine Or.inl ?_
        simp only [step]
        split <;> simp [setCall, setFrame, h]
  | returnNotify j' r =>
      by_cases h : j = j'
      · subst h
        exact Or.inr (Or.inr (Or.inr (Or.inr (Or.inr (Or.inr
          ⟨r, ha.1, by simp [step, setCall]⟩)))))
      · exact Or.inl (by simp [step, setCall, h])
  | check r => exact Or.inl (congrFun (check_rest buffer s r).2.2.1 j)
  | await r | store r | returnTrue r | mapRead r ok | print r => exact Or.inl rfl

/-- `resume()` is called by a step that carries the awaiter. -/
theorem resumes_step (buffer : N → T) (s : Event R N T) (a : Action R N) :
    (step buffer s a).resumes = s.resumes ∨
      ∃ j r, a = .resume j r ∧ (step buffer s a).resumes = s.resumes ++ [(r, s.frame r)] := by
  cases a with
  | resume j r => exact Or.inr ⟨j, r, rfl, (resume_rest buffer s j r).2.2.2.2⟩
  | check r => exact Or.inl (check_rest buffer s r).2.2.2.2
  | load j => exact Or.inl (load_rest buffer s j).2.2.2.2
  | await r | store r | returnTrue r | mapRead r ok | print r | clear j | mapWrite j r ok
  | write j r | returnNotify j r => exact Or.inl rfl

/-! ### Loading and carrying -/

/-- A call comes to carry an awaiter by loading it. -/
theorem carries_step (ha : s.enabled a) {j : N} {r : R}
    (h : ((step buffer s a).call j).carries = some r) :
    (s.call j).carries = some r ∨ (a = .load j ∧ s.suspended = some r) := by
  rcases call_step buffer ha j with he | ⟨-, -, he⟩ | ⟨ha', -, he⟩ | ⟨r', hc, he⟩ |
      ⟨r', hc, he⟩ | ⟨r', -, -, he⟩ | ⟨r', -, he⟩
  · exact Or.inl (he ▸ h)
  · simp [he, Notify.carries] at h
  · cases hs : s.suspended with
    | none => simp [he, hs, Notify.carries] at h
    | some r' => exact Or.inr ⟨ha', by simpa [he, hs, Notify.carries] using h⟩
  · refine Or.inl ?_
    rw [hc]
    rcases he with he | he <;> simpa [he, Notify.carries] using h
  · exact Or.inl (by simpa [he, hc, Notify.carries] using h)
  · simp [he, Notify.carries] at h
  · simp [he, Notify.carries] at h

/-- It carries it until it resumes the coroutine. -/
theorem carries_keep (buffer : N → T) (ha : s.enabled a) {j : N} {r : R}
    (h : (s.call j).carries = some r) :
    ((step buffer s a).call j).carries = some r ∨ a = .resume j r := by
  rcases call_step buffer ha j with he | ⟨-, hc, -⟩ | ⟨-, hc, -⟩ | ⟨r', hc, he⟩ |
      ⟨r', hc, he⟩ | ⟨r', ha', hc, -⟩ | ⟨r', hc, -⟩
  · exact Or.inl (he ▸ h)
  · simp [hc, Notify.carries] at h
  · simp [hc, Notify.carries] at h
  · rw [hc] at h
    refine Or.inl ?_
    rcases he with he | he <;> simpa [he, Notify.carries] using h
  · rw [hc] at h
    exact Or.inl (by simpa [he, Notify.carries] using h)
  · rw [hc] at h
    have hr : r' = r := by simpa [Notify.carries] using h
    exact Or.inr (hr ▸ ha')
  · simp [hc, Notify.carries] at h

theorem loaded_keep (ha : s.enabled a) {j : N} (h : (s.call j).loaded) :
    ((step buffer s a).call j).loaded := by
  rcases call_step buffer ha j with he | ⟨-, hc, -⟩ | ⟨-, hc, -⟩ | ⟨r', -, he | he⟩ |
      ⟨r', -, he⟩ | ⟨r', -, -, he⟩ | ⟨r', -, he⟩
  · rwa [he]
  · rw [hc] at h
    exact h.elim
  · rw [hc] at h
    exact h.elim
  all_goals rw [he]; trivial

theorem loaded_step (ha : s.enabled a) {j : N} (h : ((step buffer s a).call j).loaded) :
    (s.call j).loaded ∨ a = .load j := by
  rcases call_step buffer ha j with he | ⟨-, -, he⟩ | ⟨ha', -, -⟩ | ⟨r', hc, -⟩ |
      ⟨r', hc, -⟩ | ⟨r', -, hc, -⟩ | ⟨r', hc, -⟩
  · exact Or.inl (he ▸ h)
  · rw [he] at h
    exact h.elim
  · exact Or.inr ha'
  all_goals refine Or.inl ?_; rw [hc]; trivial

theorem load_loaded {j : N} : ((step buffer s (.load j)).call j).loaded := by
  simp only [step]
  split
  · simp [setCall, Notify.loaded]
  · simp [setCall, Notify.loaded]

theorem mem_loads_keep {r : R} (h : r ∈ s.loads) : r ∈ (step buffer s a).loads := by
  rcases loads_step buffer s a with he | ⟨j, r', -, -, he⟩
  · rwa [he]
  · rw [he]
    exact List.mem_append_left _ h

/-! ### What always holds -/

/-- An awaiter gets into the slot, and out of it, after its receiver was suspended; and until
it has been loaded nothing continues that receiver. -/
structure Sound (s : Event R N T) : Prop where
  notified : s.notified = false
  idle : ∀ r, s.await r = .idle ↔ s.frame r = .running
  asleep : ∀ r, s.await r ≠ .idle → r ∉ s.loads → s.frame r = .suspended
  slot : ∀ r, s.suspended = some r → (s.await r).hasStored
  loads : ∀ r ∈ s.loads, (s.await r).hasStored
  carried : ∀ j r, (s.call j).carries = some r → r ∈ s.loads
  loaded : ∀ r ∈ s.loads, ∃ j, (s.call j).loaded

namespace Sound

omit [DecidableEq R] [DecidableEq N] in
/-- Only a receiver whose awaiter was loaded has been continued. -/
theorem mem_loads_of_past (h : Sound s) {r : R} (hp : (s.frame r).past) : r ∈ s.loads := by
  by_contra hc
  by_cases hi : s.await r = .idle
  · rw [(h.idle r).mp hi] at hp
    exact hp
  · rw [h.asleep r hi hc] at hp
    exact hp

/-- Past the store is past the store for good. -/
theorem hasStored_keep (h : Sound s) (ha : s.enabled a) {r : R} (hr : (s.await r).hasStored) :
    ((step buffer s a).await r).hasStored := by
  rcases await_step buffer ha r with he | ⟨rfl, -⟩ | ⟨-, hc, -⟩ | ⟨-, hc, -⟩ |
      ⟨-, -, he⟩
  · rwa [he]
  · rw [(h.idle r).mpr ha] at hr
    exact hr.elim
  · rw [hc] at hr
    exact hr.elim
  · rw [hc] at hr
    exact hr.elim
  · rw [he]
    trivial

theorem step_idle (h : Sound s) (ha : s.enabled a) (r : R) :
    (step buffer s a).await r = .idle ↔ (step buffer s a).frame r = .running := by
  have hawait := await_step buffer ha r
  by_cases haw : a = .await r
  · subst haw
    simp [step, setFrame, setAwait]
  · rcases frame_step buffer ha r with hf | ⟨hc, -⟩ | ⟨-, hn, -⟩ | ⟨j, rfl, hs, hf⟩ |
        ⟨hp, hp'⟩
    · rw [hf, ← h.idle r]
      rcases hawait with he | ⟨hc, -⟩ | ⟨-, hc, he⟩ | ⟨-, hc, he⟩ | ⟨-, hc, he⟩
      · rw [he]
      · exact absurd hc haw
      · rw [h.notified] at he
        have he' : (step buffer s a).await r = .store := he
        rw [he', hc]
        simp
      · rw [he, hc]
        simp
      · rw [he, hc]
        simp
    · exact absurd hc haw
    · rw [h.notified] at hn
      exact absurd hn (by simp)
    · have he : (step buffer s (.resume j r)).await r = s.await r := by
        rcases hawait with he | ⟨hc, -⟩ | ⟨hc, -⟩ | ⟨hc, -⟩ | ⟨hc, -⟩
        · exact he
        all_goals simp at hc
      rw [he, hf, h.idle r, hs]
      simp
    · have hne : s.await r ≠ .idle := by
        intro hc
        rw [(h.idle r).mp hc] at hp
        exact hp
      have hne' : (step buffer s a).await r ≠ .idle := by
        rcases hawait with he | ⟨hc, -⟩ | ⟨-, -, he⟩ | ⟨-, -, he⟩ | ⟨-, -, he⟩
        · rwa [he]
        · exact absurd hc haw
        · rw [h.notified] at he
          have he' : (step buffer s a).await r = .store := he
          rw [he']
          simp
        · rw [he]
          simp
        · rw [he]
          simp
      refine ⟨fun hc => absurd hc hne', fun hc => ?_⟩
      rw [hc] at hp'
      exact hp'.elim

theorem step_asleep (h : Sound s) (ha : s.enabled a) (r : R)
    (hi : (step buffer s a).await r ≠ .idle) (hr : r ∉ (step buffer s a).loads) :
    (step buffer s a).frame r = .suspended := by
  have hr' : r ∉ s.loads := fun hc => hr (mem_loads_keep hc)
  have hold : s.await r ≠ .idle → s.frame r = .suspended := fun hne => h.asleep r hne hr'
  rcases frame_step buffer ha r with hf | ⟨-, hf⟩ | ⟨-, hn, -⟩ | ⟨j, rfl, -, -⟩ |
      ⟨hp, -⟩
  · by_cases hidle : s.await r = .idle
    · exact absurd ((h.step_idle ha r).mpr (hf.trans ((h.idle r).mp hidle))) hi
    · rw [hf]
      exact hold hidle
  · exact hf
  · rw [h.notified] at hn
    exact absurd hn (by simp)
  · -- who is about to be resumed is carried, and so has been loaded
    refine absurd (h.carried j r ?_) hr'
    rw [show s.call j = .resume r from ha]
    rfl
  · exact absurd (h.mem_loads_of_past hp) hr'

theorem step (h : Sound s) (ha : s.enabled a) : Sound (Event.step buffer s a) where
  notified := by
    by_contra hc
    have := notified_step ((Bool.not_eq_false _).mp hc)
    rw [h.notified] at this
    exact absurd this (by simp)
  idle := h.step_idle ha
  asleep := h.step_asleep ha
  slot := by
    intro r hr
    rcases suspended_step buffer s a with he | ⟨r', rfl, he⟩
    · exact h.hasStored_keep ha (h.slot r (he ▸ hr))
    · obtain rfl : r' = r := Option.some.inj (he.symm.trans hr)
      simp [Event.step, setAwait, Await.hasStored]
  loads := by
    intro r hr
    rcases loads_step buffer s a with he | ⟨j, r', -, hs, he⟩
    · exact h.hasStored_keep ha (h.loads r (he ▸ hr))
    · rw [he] at hr
      rcases List.mem_append.mp hr with hr | hr
      · exact h.hasStored_keep ha (h.loads r hr)
      · rw [List.mem_singleton.mp hr]
        exact h.hasStored_keep ha (h.slot r' hs)
  carried := by
    intro j r hr
    rcases carries_step ha hr with hold | ⟨rfl, hs⟩
    · exact mem_loads_keep (h.carried j r hold)
    · simp [Event.step, hs]
  loaded := by
    intro r hr
    rcases loads_step buffer s a with he | ⟨j, r', rfl, -, -⟩
    · obtain ⟨j, hj⟩ := h.loaded r (he ▸ hr)
      exact ⟨j, loaded_keep ha hj⟩
    · exact ⟨j, load_loaded⟩

end Sound

theorem reachable_sound (hs : (machine R N zero buffer).Reachable s) : Sound s := by
  refine hs.invariant (P := Sound) ?_ fun s a _ h ha => h.step ha
  constructor <;> simp [machine, Notify.carries]

end LinuxSystems.Event
