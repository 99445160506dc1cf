/-
Which coroutines `notify` resumes.

A coroutine may be resumed only while it is suspended.  `suspended` is never cleared:
a call of `notify` that comes after another one finds the same awaiter again, unless
a receiver has stored a new one in between, and resumes a coroutine that is running
already or gone.

With fresh loads only, when no call finds an awaiter that an earlier one has loaded,
each awaiter is carried by one call at a time and its coroutine stays suspended until
that call resumes it.  With a single call of `notify` every load is fresh, and with
two there is a run in which the second is not: `event_resumes` puts the three
together.
-/
import LinuxSystems.Event.Life

namespace LinuxSystems.Event

variable {R N T : Type*} [DecidableEq R] [DecidableEq N] {zero : T} {buffer : N → T}
  {s : Event R N T} {a : Action R N}

omit [DecidableEq R] [DecidableEq N] in
/-- Every `resume()` was applied to a suspended coroutine, and to none of them twice. -/
def ResumesSuspended (s : Event R N T) : Prop :=
  (∀ e ∈ s.resumes, e.2 = .suspended) ∧ (s.resumes.map Prod.fst).Nodup

/-- A call of `notify` finds no awaiter in the slot, or one that no call has loaded yet. -/
def FreshLoad (s : Event R N T) : Action R N → Prop
  | .load _ => ∀ r, s.suspended = some r → r ∉ s.loads
  | _ => True

instance (s : Event R N T) : ∀ a, Decidable (FreshLoad s a)
  | .load _ => inferInstanceAs (Decidable (∀ r ∈ s.suspended, r ∉ s.loads))
  | .await _ | .check _ | .store _ | .returnTrue _ | .mapRead _ _ | .print _ | .clear _
  | .mapWrite _ _ _ | .write _ _ | .resume _ _ | .returnNotify _ _ => isTrue trivial

/-- What fresh loads keep up. -/
structure Fresh (s : Event R N T) : Prop where
  asleep : ∀ j r, (s.call j).carries = some r → s.frame r = .suspended
  unique : ∀ j j' r, (s.call j).carries = some r → (s.call j').carries = some r → j = j'
  settled : ∀ r ∈ s.loads, (s.frame r).past ∨ ∃ j, (s.call j).carries = some r
  resumed : ∀ e ∈ s.resumes, e.2 = .suspended ∧ (s.frame e.1).past
  nodup : (s.resumes.map Prod.fst).Nodup

namespace Fresh

/-- Past the `co_await` is past it for good. -/
theorem past_keep (ha : s.enabled a) {r : R} (hp : (s.frame r).past) :
    ((step buffer s a).frame r).past := by
  rcases frame_step buffer ha r with hf | ⟨rfl, -⟩ | ⟨-, -, hf⟩ | ⟨j, -, hs, -⟩ | ⟨-, hp'⟩
  · rwa [hf]
  · rw [show s.frame r = .running from ha] at hp
    exact hp.elim
  · rw [hf]
    trivial
  · rw [hs] at hp
    exact hp.elim
  · exact hp'

/-- A coroutine that is suspended and not being resumed stays suspended. -/
theorem suspended_keep (hs : Sound s) (ha : s.enabled a) {r : R} (h : s.frame r = .suspended)
    (hres : ∀ j, a ≠ .resume j r) : (step buffer s a).frame r = .suspended := by
  rcases frame_step buffer ha r with hf | ⟨-, hf⟩ | ⟨-, hn, -⟩ | ⟨j, hj, -⟩ | ⟨hp, -⟩
  · rwa [hf]
  · exact hf
  · rw [hs.notified] at hn
    exact absurd hn (by simp)
  · exact absurd hj (hres j)
  · rw [h] at hp
    exact hp.elim

theorem resume_call {j : N} {r : R} :
    (Event.step buffer s (.resume j r)).call j = .running r := by
  simp only [Event.step]
  split <;> simp [setCall, setFrame]

omit [DecidableEq R] [DecidableEq N] in
/-- After a fresh load the awaiter is carried by the call that loaded it and no other. -/
theorem load_unique {j' : N} (hs : Sound s) (hg : FreshLoad s (.load j')) {r : R}
    (hslot : s.suspended = some r) (j : N) : (s.call j).carries ≠ some r :=
  fun hc => hg r hslot (hs.carried j r hc)

theorem step_asleep (hs : Sound s) (h : Fresh s) (ha : s.enabled a) (hg : FreshLoad s a) (j : N)
    (r : R) (hc : ((step buffer s a).call j).carries = some r) :
    (step buffer s a).frame r = .suspended := by
  rcases carries_step ha hc with hold | ⟨rfl, hslot⟩
  · refine suspended_keep hs ha (h.asleep j r hold) fun j' hj' => ?_
    -- the call that resumes `r` is `j`, which then carries it no longer
    subst hj'
    have hj : j' = j := h.unique j' j r (by rw [show s.call j' = .resume r from ha]; rfl) hold
    rw [← hj, resume_call] at hc
    simp [Notify.carries] at hc
  · have hne : s.await r ≠ .idle := by
      intro hi
      have := hs.slot r hslot
      rw [hi] at this
      exact this
    exact suspended_keep hs ha (hs.asleep r hne (hg r hslot)) (by simp)

theorem step (hs : Sound s) (h : Fresh s) (ha : s.enabled a) (hg : FreshLoad s a) :
    Fresh (Event.step buffer s a) where
  asleep := step_asleep hs h ha hg
  unique := by
    intro j j' r hj hj'
    rcases carries_step ha hj with hold | ⟨rfl, hslot⟩
    · rcases carries_step ha hj' with hold' | ⟨rfl, hslot⟩
      · exact h.unique j j' r hold hold'
      · exact absurd hold (load_unique hs hg hslot j)
    · rcases carries_step ha hj' with hold' | ⟨he, -⟩
      · exact absurd hold' (load_unique hs hg hslot j')
      · exact Action.load.inj he
  settled := by
    intro r hr
    have hkeep : r ∈ s.loads →
        ((Event.step buffer s a).frame r).past ∨
          ∃ j, ((Event.step buffer s a).call j).carries = some r := by
      intro hold
      rcases h.settled r hold with hp | ⟨j, hj⟩
      · exact Or.inl (past_keep ha hp)
      · rcases carries_keep buffer ha hj with hc | rfl
        · exact Or.inr ⟨j, hc⟩
        · refine Or.inl ?_
          simp [Event.step, setFrame, h.asleep j r hj, Frame.past]
    rcases loads_step buffer s a with he | ⟨j, r', rfl, hslot, he⟩
    · exact hkeep (he ▸ hr)
    · rw [he] at hr
      rcases List.mem_append.mp hr with hr | hr
      · exact hkeep hr
      · refine Or.inr ⟨j, ?_⟩
        rw [List.mem_singleton.mp hr]
        simp [Event.step, setCall, hslot, Notify.carries]
  resumed := by
    intro e he
    rcases resumes_step buffer s a with hold | ⟨j, r, rfl, hnew⟩
    · obtain ⟨h1, h2⟩ := h.resumed e (hold ▸ he)
      exact ⟨h1, past_keep ha h2⟩
    · have hcar : (s.call j).carries = some r := by
        rw [show s.call j = .resume r from ha]
        rfl
      rw [hnew] at he
      rcases List.mem_append.mp he with he | he
      · obtain ⟨h1, h2⟩ := h.resumed e he
        exact ⟨h1, past_keep ha h2⟩
      · rw [List.mem_singleton.mp he]
        refine ⟨h.asleep j r hcar, ?_⟩
        simp [Event.step, setFrame, h.asleep j r hcar, Frame.past]
  nodup := by
    rcases resumes_step buffer s a with hold | ⟨j, r, rfl, hnew⟩
    · rw [hold]
      exact h.nodup
    · have hcar : (s.call j).carries = some r := by
        rw [show s.call j = .resume r from ha]
        rfl
      rw [hnew, List.map_append]
      refine List.nodup_append.mpr ⟨h.nodup, by simp, ?_⟩
      intro x hx y hy hxy
      obtain ⟨e, he, rfl⟩ := List.mem_map.mp hx
      have hy' : y = r := by simpa using hy
      -- what has been resumed is past its `co_await`, and `r` is not
      have hp := (h.resumed e he).2
      rw [hxy, hy', h.asleep j r hcar] at hp
      exact hp

end Fresh

theorem fresh_reachable (hs : ((machine R N zero buffer).restrict FreshLoad).Reachable s) :
    Fresh s := by
  refine hs.invariant (P := Fresh) ?_ fun s a hr h ha =>
    h.step (reachable_sound hr.of_restrict) ha.1 ha.2
  constructor <;> simp [machine, Notify.carries]

omit [DecidableEq R] [DecidableEq N] in
theorem ResumesSuspended.of_fresh (h : Fresh s) : ResumesSuspended s :=
  ⟨fun e he => (h.resumed e he).1, h.nodup⟩

/-! ### One call is fresh, two need not be -/

omit [DecidableEq R] [DecidableEq N] in
/-- A single call of `notify` finds nothing that was loaded before. -/
theorem freshLoad_of_subsingleton [Subsingleton N] (hs : Sound s) (ha : s.enabled a) :
    FreshLoad s a := by
  cases a with
  | load j =>
      intro r _ hr
      obtain ⟨j', hj'⟩ := hs.loaded r hr
      rw [Subsingleton.elim j' j, show s.call j = .load from ha] at hj'
      exact hj'
  | _ => trivial

/-- One call notifies a receiver, which runs to its end; the next call finds the awaiter
again. -/
def staleRun (r : R) (j j' : N) : List (Action R N) :=
  [.await r, .check r, .store r, .returnTrue r,
    .clear j, .load j, .mapWrite j r true, .write j r, .resume j r,
    .mapRead r true, .print r, .returnNotify j r,
    .clear j', .load j', .mapWrite j' r false, .resume j' r]

theorem staleRun_resumes (zero : T) (buffer : N → T) (r : R) (j j' : N) (hj : j ≠ j') :
    (machine R N zero buffer).Legal (machine R N zero buffer).init (staleRun r j j') ∧
      ((machine R N zero buffer).after (machine R N zero buffer).init
        (staleRun r j j')).resumes = [(r, .suspended), (r, .destroyed)] := by
  have hj' : j' ≠ j := hj.symm
  simp [staleRun, machine, enabled, step, setFrame, setAwait, setCall, hj']

/--
**Whether `notify` resumes only suspended coroutines.**  It does in every run exactly when
there is no receiver or at most one call of `notify`; and for any number of both it
does in every run in which each call finds no awaiter in `suspended`, or one that no
earlier call has loaded.
-/
theorem event_resumes (k m : Nat) (zero : T) (buffer : Fin m → T) :
    ((∀ s, (machine (Fin k) (Fin m) zero buffer).Reachable s → ResumesSuspended s) ↔
      k = 0 ∨ m ≤ 1) ∧
    ∀ s, ((machine (Fin k) (Fin m) zero buffer).restrict FreshLoad).Reachable s →
      ResumesSuspended s := by
  have hfresh : ∀ s, ((machine (Fin k) (Fin m) zero buffer).restrict FreshLoad).Reachable s →
      ResumesSuspended s := fun s hs => .of_fresh (fresh_reachable hs)
  refine ⟨⟨?_, ?_⟩, hfresh⟩
  · intro hall
    by_contra hkm
    have hk : 0 < k := by omega
    have hm : 1 < m := by omega
    obtain ⟨hl, hres⟩ := staleRun_resumes zero buffer (⟨0, hk⟩ : Fin k)
      ⟨0, by omega⟩ ⟨1, hm⟩ (by simp)
    have hbad := (hall _ (Machine.reachable_after hl)).1 (⟨0, hk⟩, .destroyed)
      (by rw [hres]; simp)
    simp at hbad
  · intro hkm s hs
    refine hfresh s (hs.to_restrict fun s a hs ha => ?_)
    rcases hkm with rfl | hm
    · cases a with
      | load j => exact fun r => r.elim0
      | _ => trivial
    · have : Subsingleton (Fin m) := Fin.subsingleton_iff_le_one.mpr hm
      exact freshLoad_of_subsingleton (reachable_sound hs) ha

/-- A receiver and one call of `notify`. -/
theorem event_resumes_once :
    ResumesSuspended ((machine (Fin 1) (Fin 1) 0 fun _ => 26).after
      (machine (Fin 1) (Fin 1) 0 fun _ => 26).init ((staleRun 0 0 0).take 12)) :=
  (event_resumes 1 1 0 fun _ => 26).2 _ ⟨(staleRun 0 0 0).take 12, by decide, rfl⟩

/-- A receiver and two calls of `notify`: the second resumes a destroyed coroutine. -/
theorem event_resumes_destroyed :
    ¬ ∀ s, (machine (Fin 1) (Fin 2) 0 fun _ => 26).Reachable s → ResumesSuspended s := by
  intro hall
  obtain ⟨hl, hres⟩ := staleRun_resumes 0 (fun _ : Fin 2 => 26) (0 : Fin 1) 0 1 (by decide)
  have hbad := (hall _ (Machine.reachable_after hl)).1 (0, .destroyed) (by rw [hres]; simp)
  simp at hbad

end LinuxSystems.Event
