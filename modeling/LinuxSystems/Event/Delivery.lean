/-
When every waiting receiver is continued.

`notify` writes false to `notified`, the value it has from the start, so the flag that
`await_suspend` looks at never tells a late receiver that it has been notified.  All
that is left is the slot: a receiver is continued only by a call of `notify` that
loads its awaiter after it was stored and before another one was.  So whatever the
numbers of receivers and calls, there is a run in which all calls come first and
nobody is ever continued.

What a run must look like for everybody to be continued is `Kept`: no store over an
awaiter that no call has loaded, and no last load before the last store.  `Lost` is
the converse: a run whose loads are fresh and that breaks the condition has lost a
receiver for good.
-/
import LinuxSystems.Event.Resume
import Mathlib.Data.List.FinRange
import Mathlib.Data.Fintype.Basic

namespace LinuxSystems.Event

variable {R N T : Type*} {s : Event R N T} {a : Action R N}

/-- All calls of `notify` have returned and no `await_suspend` is in progress. -/
def Quiet (s : Event R N T) : Prop :=
  (∀ j, s.call j = .returned) ∧ ∀ r, ¬ (s.await r).inProgress

/-- In a quiet state every receiver has been continued past its `co_await`. -/
def Delivered (s : Event R N T) : Prop := Quiet s → ∀ r, (s.frame r).past

/-- A receiver stores its awaiter over none, or over one that a call has loaded; a call loads
none, or one that no call has loaded yet; and the last call to load does so after
every receiver has stored. -/
def Kept (s : Event R N T) : Action R N → Prop
  | .store _ => ∀ r, s.suspended = some r → r ∈ s.loads
  | .load j => (∀ r, s.suspended = some r → r ∉ s.loads) ∧
      ((∀ j', j' ≠ j → (s.call j').loaded) → ∀ r, (s.await r).hasStored)
  | _ => True

instance [Fintype R] [Fintype N] [DecidableEq R] [DecidableEq N] (s : Event R N T) :
    ∀ a, Decidable (Kept s a)
  | .store _ => inferInstanceAs (Decidable (∀ r, s.suspended = some r → r ∈ s.loads))
  | .load j => inferInstanceAs (Decidable ((∀ r, s.suspended = some r → r ∉ s.loads) ∧
      ((∀ j', j' ≠ j → (s.call j').loaded) → ∀ r, (s.await r).hasStored)))
  | .await _ | .check _ | .returnTrue _ | .mapRead _ _ | .print _ | .clear _
  | .mapWrite _ _ _ | .write _ _ | .resume _ _ | .returnNotify _ _ => isTrue trivial

theorem Kept.freshLoad (h : Kept s a) : FreshLoad s a := by
  cases a with
  | load j => exact h.1
  | _ => trivial

variable [DecidableEq R] [DecidableEq N] {zero : T} {buffer : N → T}

/-! ### Steps that meet the condition lose nobody -/

/-- A stored awaiter that no call has loaded is still in the slot, and once all calls have
loaded there is none. -/
structure Kept.Inv (s : Event R N T) : Prop where
  slot : ∀ r, (s.await r).hasStored → r ∉ s.loads → s.suspended = some r
  final : (∀ j, (s.call j).loaded) → ∀ r, r ∈ s.loads

/-- A receiver gets past its store by storing. -/
theorem hasStored_step (hs : Sound s) (ha : s.enabled a) {r : R}
    (h : ((step buffer s a).await r).hasStored) : (s.await r).hasStored ∨ a = .store r := by
  rcases await_step buffer ha r with he | ⟨-, he⟩ | ⟨-, -, he⟩ | ⟨ha', -⟩ | ⟨-, hc, -⟩
  · exact Or.inl (he ▸ h)
  · rw [he] at h
    exact h.elim
  · rw [hs.notified] at he
    have he' : (step buffer s a).await r = .store := he
    rw [he'] at h
    exact h.elim
  · exact Or.inr ha'
  · refine Or.inl ?_
    rw [hc]
    trivial

theorem store_suspended {r : R} : (step buffer s (.store r)).suspended = some r := rfl

theorem load_loads {j : N} {r : R} (hslot : s.suspended = some r) :
    r ∈ (step buffer s (.load j)).loads := by
  simp [step, hslot]

theorem Kept.Inv.step (hs : Sound s) (h : Kept.Inv s) (ha : s.enabled a) (hk : Kept s a) :
    Kept.Inv (Event.step buffer s a) where
  slot := by
    intro r hr hnot
    have hnot' : r ∉ s.loads := fun hc => hnot (mem_loads_keep hc)
    rcases hasStored_step hs ha hr with hold | rfl
    · rcases suspended_step buffer s a with he | ⟨r', rfl, he⟩
      · rw [he]
        exact h.slot r hold hnot'
      · -- a store over `r` needs `r` to be loaded
        exact absurd (hk r (h.slot r hold hnot')) hnot'
    · exact store_suspended
  final := by
    intro hall r
    by_cases hload : ∃ j, a = .load j
    · obtain ⟨j, rfl⟩ := hload
      have hothers : ∀ j', j' ≠ j → (s.call j').loaded := by
        intro j' hj'
        rcases loaded_step ha (hall j') with hold | he
        · exact hold
        · exact absurd (Action.load.inj he).symm hj'
      by_cases hr : r ∈ s.loads
      · exact mem_loads_keep hr
      · exact load_loads (h.slot r (hk.2 hothers r) hr)
    · refine mem_loads_keep (h.final (fun j => ?_) r)
      rcases loaded_step ha (hall j) with hold | he
      · exact hold
      · exact absurd ⟨j, he⟩ hload

theorem kept_reachable [Nonempty N]
    (hs : ((machine R N zero buffer).restrict Kept).Reachable s) : Kept.Inv s := by
  refine hs.invariant (P := Kept.Inv) ?_ fun s a hr h ha =>
    h.step (reachable_sound hr.of_restrict) ha.1 ha.2
  refine ⟨fun r hr => hr.elim, fun hall => ?_⟩
  exact (hall (Classical.arbitrary N)).elim

theorem kept_delivered [Nonempty N]
    (hs : ((machine R N zero buffer).restrict Kept).Reachable s) : Delivered s := by
  rintro ⟨hret, -⟩ r
  have hmem : r ∈ s.loads := (kept_reachable hs).final (fun j => by rw [hret j]; trivial) r
  rcases (fresh_reachable (hs.restrict_mono fun _ _ => Kept.freshLoad)).settled r hmem with hp | ⟨j, hj⟩
  · exact hp
  · rw [hret j] at hj
    simp [Notify.carries] at hj

/-! ### A step that does not meet it loses somebody for good -/

/-- A receiver that no call has loaded, and that no call can load any more. -/
def Lost (s : Event R N T) : Prop :=
  (∃ r, (s.await r).hasStored ∧ r ∉ s.loads ∧ s.suspended ≠ some r) ∨
    ((∀ j, (s.call j).loaded) ∧ ∃ r, r ∉ s.loads)

theorem Lost.step (hs : Sound s) (h : Lost s) (ha : s.enabled a) :
    Lost (Event.step buffer s a) := by
  rcases h with ⟨r, hst, hnot, hslot⟩ | ⟨hall, r, hnot⟩
  · refine Or.inl ⟨r, hs.hasStored_keep ha hst, ?_, ?_⟩
    · rcases loads_step buffer s a with he | ⟨j, r', -, hr', he⟩
      · rwa [he]
      · rw [he, List.mem_append, not_or]
        refine ⟨hnot, fun hc => hslot ?_⟩
        rw [List.mem_singleton.mp hc]
        exact hr'
    · rcases suspended_step buffer s a with he | ⟨r', rfl, he⟩
      · rwa [he]
      · intro hc
        obtain rfl : r' = r := Option.some.inj (he.symm.trans hc)
        rw [show s.await r' = .store from ha] at hst
        exact hst
  · refine Or.inr ⟨fun j => loaded_keep ha (hall j), r, ?_⟩
    rcases loads_step buffer s a with he | ⟨j, r', rfl, -, -⟩
    · rwa [he]
    · have := hall j
      rw [show s.call j = .load from ha] at this
      exact this.elim

/-- Breaking the condition with a fresh load, or with a store, loses a receiver. -/
theorem lost_of_not_kept (hs : Sound s) (ha : s.enabled a) (hf : FreshLoad s a)
    (hk : ¬ Kept s a) : Lost (step buffer s a) := by
  cases a with
  | store r =>
      simp only [Kept, not_forall] at hk
      obtain ⟨r', hslot, hnot⟩ := hk
      have hst : (s.await r').hasStored := hs.slot r' hslot
      have hne : r ≠ r' := by
        rintro rfl
        rw [show s.await r = .store from ha] at hst
        exact hst
      exact Or.inl ⟨r', hs.hasStored_keep ha hst, hnot, by simp [step, hne]⟩
  | load j =>
      have hk' : ¬ ((∀ j', j' ≠ j → (s.call j').loaded) → ∀ r, (s.await r).hasStored) :=
        fun hc => hk ⟨hf, hc⟩
      simp only [not_forall] at hk'
      obtain ⟨hothers, r, hst⟩ := hk'
      refine Or.inr ⟨fun j' => ?_, r, ?_⟩
      · by_cases hj : j' = j
        · rw [hj]
          exact load_loaded
        · exact loaded_keep ha (hothers j' hj)
      · rcases loads_step buffer s (.load j) with he | ⟨j', r', -, hslot, he⟩
        · rw [he]
          exact fun hc => hst (hs.loads r hc)
        · rw [he, List.mem_append, not_or]
          refine ⟨fun hc => hst (hs.loads r hc), fun hc => hst ?_⟩
          rw [List.mem_singleton.mp hc]
          exact hs.slot r' hslot
  | await r | check r | returnTrue r | mapRead r ok | print r | clear j | mapWrite j r ok
  | write j r | resume j r | returnNotify j r => exact absurd trivial hk

omit [DecidableEq R] [DecidableEq N] in
theorem Lost.not_delivered (hs : Sound s) (h : Lost s) : ¬ ∀ r, (s.frame r).past := by
  intro hall
  rcases h with ⟨r, -, hnot, -⟩ | ⟨-, r, hnot⟩
  · exact hnot (hs.mem_loads_of_past (hall r))
  · exact hnot (hs.mem_loads_of_past (hall r))

/-- A run with fresh loads meets the condition throughout or has lost a receiver. -/
theorem kept_or_lost {tr : List (Action R N)}
    (hl : ((machine R N zero buffer).restrict FreshLoad).Legal (machine R N zero buffer).init tr) :
    ((machine R N zero buffer).restrict Kept).Legal (machine R N zero buffer).init tr ∨
      Lost ((machine R N zero buffer).after (machine R N zero buffer).init tr) := by
  refine Machine.run_invariant (m := (machine R N zero buffer).restrict FreshLoad)
    (P := fun tr s => ((machine R N zero buffer).restrict Kept).Legal
      (machine R N zero buffer).init tr ∨ Lost s) (Or.inl trivial) ?_ hl
  intro tr a hl' ih ha
  have hs : Sound ((machine R N zero buffer).after (machine R N zero buffer).init tr) :=
    reachable_sound (Machine.reachable_after (Machine.restrict_legal hl'))
  rcases ih with hkept | hlost
  · by_cases hk : Kept ((machine R N zero buffer).after (machine R N zero buffer).init tr) a
    · exact Or.inl (Machine.legal_snoc.mpr ⟨hkept, ha.1, hk⟩)
    · exact Or.inr (lost_of_not_kept hs ha.1 ha.2 hk)
  · exact Or.inr (hlost.step hs ha.1)

/-! ### All calls first, all receivers after them -/

/-- The calls of a list have come and gone before any receiver started. -/
theorem calls_first (zero : T) (buffer : N → T) (l : List N) (hl : l.Nodup) :
    ∃ s, (machine R N zero buffer).Reachable s ∧ s.suspended = none ∧
      (∀ r, s.frame r = .running) ∧ (∀ j ∈ l, s.call j = .returned) ∧
      ∀ j, j ∉ l → s.call j = .idle := by
  induction l with
  | nil => exact ⟨_, Machine.Reachable.init, rfl, fun _ => rfl, by simp, fun _ _ => rfl⟩
  | cons j l ih =>
      obtain ⟨hj, hl'⟩ := List.nodup_cons.mp hl
      obtain ⟨s, hs, hslot, hframe, hret, hidle⟩ := ih hl'
      have hlegal : (machine R N zero buffer).Legal s [.clear j, .load j] := by
        simp [machine, enabled, step, setCall, hidle j hj]
      refine ⟨_, hs.after hlegal, ?_, ?_, ?_, ?_⟩
      · simp [machine, step, setCall, hslot]
      · simpa [machine, step, setCall, hslot] using hframe
      · intro j' hj'
        by_cases h : j' = j
        · simp [machine, step, setCall, hslot, h]
        · have hmem : j' ∈ l := by simpa [h] using hj'
          simp [machine, step, setCall, hslot, h, hret j' hmem]
      · intro j' hj'
        rw [List.mem_cons, not_or] at hj'
        simp [machine, step, setCall, hslot, hj'.1, hidle j' hj'.2]

/-- With all calls gone, the receivers of a list are suspended one after another. -/
theorem receivers_wait (zero : T) (buffer : N → T) (lN : List N) (hlN : lN.Nodup)
    (hall : ∀ j, j ∈ lN) (l : List R) (hl : l.Nodup) :
    ∃ s, (machine R N zero buffer).Reachable s ∧ (∀ j, s.call j = .returned) ∧
      (∀ r ∈ l, s.frame r = .suspended ∧ s.await r = .returned) ∧
      ∀ r, r ∉ l → s.frame r = .running := by
  induction l with
  | nil =>
      obtain ⟨s, hs, -, hframe, hret, -⟩ := calls_first (R := R) zero buffer lN hlN
      exact ⟨s, hs, fun j => hret j (hall j), by simp, fun r _ => hframe r⟩
  | cons r l ih =>
      obtain ⟨hr, hl'⟩ := List.nodup_cons.mp hl
      obtain ⟨s, hs, hret, hdone, hfresh⟩ := ih hl'
      have hn : s.notified = false := (reachable_sound hs).notified
      have hlegal : (machine R N zero buffer).Legal s
          [.await r, .check r, .store r, .returnTrue r] := by
        simp [machine, enabled, step, setFrame, setAwait, hfresh r hr, hn]
      refine ⟨_, hs.after hlegal, ?_, ?_, ?_⟩
      · simpa [machine, step, setFrame, setAwait, hn] using hret
      · intro r' hr'
        by_cases h : r' = r
        · simp [machine, step, setFrame, setAwait, hn, h]
        · have hmem : r' ∈ l := by simpa [h] using hr'
          simpa [machine, step, setFrame, setAwait, hn, h] using hdone r' hmem
      · intro r' hr'
        rw [List.mem_cons, not_or] at hr'
        simpa [machine, step, setFrame, setAwait, hn, hr'.1] using hfresh r' hr'.2

/-- Whatever the numbers, some run leaves every receiver suspended for ever. -/
theorem nobody_delivered (k m : Nat) (zero : T) (buffer : Fin m → T) :
    ∃ s, (machine (Fin k) (Fin m) zero buffer).Reachable s ∧ Quiet s ∧
      ∀ r, s.frame r = .suspended := by
  obtain ⟨s, hs, hret, hdone, -⟩ := receivers_wait (R := Fin k) zero buffer (List.finRange m)
    (List.nodup_finRange m) (List.mem_finRange) (List.finRange k) (List.nodup_finRange k)
  refine ⟨s, hs, ⟨hret, fun r => ?_⟩, fun r => (hdone r (List.mem_finRange r)).1⟩
  rw [(hdone r (List.mem_finRange r)).2]
  exact id

/-! ### Delivery -/

/--
**When no waiting receiver is lost.**  For every number `k ≥ 1` of receivers and `m ≥ k` of
calls of `notify` there is a run that ends with all calls returned and every receiver
still suspended.  In every run whose steps meet `Kept`, whenever all calls have
returned and no `await_suspend` is in progress, every receiver has been continued.
And a run with fresh loads that ends so has met `Kept` at every step.
-/
theorem event_delivery (k m : Nat) (hk : 1 ≤ k) (hm : k ≤ m) (zero : T) (buffer : Fin m → T) :
    (¬ ∀ s, (machine (Fin k) (Fin m) zero buffer).Reachable s → Delivered s) ∧
    (∀ s, ((machine (Fin k) (Fin m) zero buffer).restrict Kept).Reachable s → Delivered s) ∧
    ∀ tr, ((machine (Fin k) (Fin m) zero buffer).restrict FreshLoad).Legal
        (machine (Fin k) (Fin m) zero buffer).init tr →
      (∀ r, (((machine (Fin k) (Fin m) zero buffer).after
        (machine (Fin k) (Fin m) zero buffer).init tr).frame r).past) →
      ((machine (Fin k) (Fin m) zero buffer).restrict Kept).Legal
        (machine (Fin k) (Fin m) zero buffer).init tr := by
  refine ⟨?_, ?_, ?_⟩
  · intro hall
    obtain ⟨s, hs, hquiet, hsusp⟩ := nobody_delivered k m zero buffer
    have hpast := hall s hs hquiet ⟨0, hk⟩
    rw [hsusp] at hpast
    exact hpast
  · intro s hs
    have : Nonempty (Fin m) := ⟨⟨0, by omega⟩⟩
    exact kept_delivered hs
  · intro tr hl hpast
    rcases kept_or_lost hl with hkept | hlost
    · exact hkept
    · exact absurd hpast
        (hlost.not_delivered (reachable_sound (Machine.reachable_after (Machine.restrict_legal hl))))

/-- One receiver and one call that comes after its store. -/
theorem event_delivery_once :
    Delivered ((machine (Fin 1) (Fin 1) 0 fun _ => 26).after
      (machine (Fin 1) (Fin 1) 0 fun _ => 26).init ((staleRun 0 0 0).take 12)) :=
  (event_delivery 1 1 (by decide) (by decide) 0 fun _ => 26).2.1 _
    ⟨(staleRun 0 0 0).take 12, by decide, rfl⟩

/-- One receiver and one call that is over before the receiver awaits: the flag still reads
false, so the receiver stores its awaiter and nobody is left to load it. -/
theorem event_delivery_lost :
    ¬ ∀ s, (machine (Fin 1) (Fin 1) 0 fun _ => 26).Reachable s → Delivered s := by
  intro hall
  have hl : (machine (Fin 1) (Fin 1) 0 fun _ => 26).Legal
      (machine (Fin 1) (Fin 1) 0 fun _ => 26).init
      [.clear 0, .load 0, .await 0, .check 0, .store 0, .returnTrue 0] := by decide
  have hpast := hall _ (Machine.reachable_after hl) ⟨by decide, by decide⟩ 0
  exact absurd hpast (by decide)

end LinuxSystems.Event
