/-
That the loops come to an end.

A thread that loaded the counter long ago stores it back to an old value, so the counter
says little of how far the program is.  What never goes down is the least value that it has
or can be set to by a store to come.  While that value stays, a store to it is the last one
of a load made before: loads from now on lead above it.  And where there is no such store,
a thread whose store goes above it stores more than it did the time before.

So every step goes down in the lexicographic order of how far the least value is from its
bound, how many stores to it are to come, and the iterations that the threads have left by
what each of them saw last.
-/
import LinuxSystems.PosixSem.Mutex
import LinuxSystems.Machine.Endless

namespace LinuxSystems.PosixSem

variable {countLimit : Int} {s : PosixSem} {r u : Role} {x : Site}

/-! ### How far the counter gets -/

/-- The counter after the last increment that lets a thread into its loop. -/
def lastCount (countLimit : Int) : Nat := (countLimit + 1).toNat

/-- The thread is past its loop. -/
def Site.ends : Site → Nat
  | .finalPost | .exited => 1
  | .entryPost | .loadCounter | .storeCounter _ | .wait | .announce | .testFlag | .load | .store _
  | .report _ | .setFlag | .post | .yield => 0

/-- How many threads are past their loops. -/
def ends (s : PosixSem) : Nat := (s.site .producer).ends + (s.site .consumer).ends

/-- Each thread that leaves its loop adds one to the last count. -/
structure Counted (countLimit : Int) (s : PosixSem) : Prop where
  counter : s.counter.toNat ≤ lastCount countLimit + s.ends
  loaded : ∀ r v, s.site r = .storeCounter v → v.toNat ≤ lastCount countLimit + s.ends

theorem ends_at (r : Role) : s.ends = (s.site r).ends + (s.site r.other).ends :=
  (Role.two.add_other rfl (fun r => (s.site r).ends) r).symm

theorem Site.ends_le (x : Site) : x.ends ≤ 1 := by
  cases x <;> simp [Site.ends]

theorem Role.succ_le_lastCount {v : BitVec 16} (h : r.goes countLimit v = true) :
    v.toNat + 1 ≤ lastCount countLimit := by
  unfold lastCount
  cases r <;> simp only [Role.goes, decide_eq_true_eq] at h <;> omega

/-- A thread that has not left its loop leaves room for its store. -/
theorem Counted.succ_lt (h : Counted countLimit s) (hlimit : countLimit + 3 < 2 ^ 16)
    {v : BitVec 16} (hat : s.site r = .storeCounter v) :
    v.toNat + 1 ≤ lastCount countLimit + 2 ∧ v.toNat + 1 < 2 ^ 16 := by
  have hv := h.loaded r v hat
  have hends : s.ends ≤ 1 := by
    rw [ends_at r, hat, Site.ends, Nat.zero_add]
    exact Site.ends_le _
  unfold lastCount at hv ⊢
  omega

/-! ### What a step does to the counter -/

/-- The steps that are left of an iteration, or after the loop. -/
def Site.rank : Site → Nat
  | .wait => 11
  | .announce => 10
  | .testFlag => 9
  | .load => 8
  | .store _ => 7
  | .report _ => 6
  | .setFlag => 5
  | .post => 4
  | .yield | .entryPost => 3
  | .loadCounter => 2
  | .storeCounter _ | .finalPost => 1
  | .exited => 0

/-- A thread goes on to `x` and leaves the counter as it is. -/
structure Advances (s s' : PosixSem) (r : Role) (x : Site) : Prop where
  site : s'.site = (s.goto r x).site
  counter : s'.counter = s.counter
  ends : (s.site r).ends ≤ x.ends
  loads : ∀ v, x = .storeCounter v → v = s.counter
  rank : x.rank < (s.site r).rank

/-- **What a step does to the counter.**  It stores to it, or the thread goes on. -/
theorem step_cases (countLimit : Int) (ha : s.enabled r) :
    (∃ v, s.site r = .storeCounter v ∧ s.step countLimit r =
      { s.goto r (if r.goes countLimit v then .wait else .finalPost) with counter := v + 1 }) ∨
    (∀ v, s.site r ≠ .storeCounter v) ∧ ∃ x, Advances s (s.step countLimit r) r x := by
  unfold enabled at ha
  unfold PosixSem.step
  cases hat : s.site r with
  | storeCounter v => exact Or.inl ⟨v, rfl, rfl⟩
  | testFlag =>
      refine Or.inr ⟨nofun, if s.fullFlag = r.expects then .load else .post, rfl, rfl, ?_, ?_, ?_⟩
      · rw [hat]
        exact Nat.zero_le _
      · split <;> exact nofun
      · rw [hat]
        split <;> decide
  | loadCounter =>
      refine Or.inr ⟨nofun, .storeCounter s.counter, rfl, rfl, ?_, ?_, ?_⟩
      · rw [hat]
        exact Nat.zero_le _
      · intro v hv
        injection hv with hv
        exact hv.symm
      · rw [hat]
        exact Nat.lt_succ_self _
  | exited =>
      rw [hat] at ha
      exact ha.elim
  | _ =>
      refine Or.inr ⟨nofun, _, rfl, rfl, ?_, nofun, ?_⟩
      · rw [hat]
        exact Nat.le_refl _
      · rw [hat]
        exact Nat.lt_succ_self _

/-- To go on and leave the counter. -/
theorem Counted.advance (h : Counted countLimit s) {s' : PosixSem} (hadv : Advances s s' r x) :
    Counted countLimit s' := by
  have hother : s'.site r.other = s.site r.other := by rw [hadv.site, goto_site_other]
  have hr : s'.site r = x := by rw [hadv.site, goto_site]
  have hle : s.ends ≤ s'.ends := by
    rw [ends_at r, ends_at (s := s') r, hother, hr]
    exact Nat.add_le_add_right hadv.ends _
  have hc := h.counter
  refine ⟨by rw [hadv.counter]; omega, fun u v hu => ?_⟩
  rcases Role.two.eq_or r u with rfl | rfl
  · rw [hr] at hu
    rw [hadv.loads v hu]
    omega
  · rw [hother] at hu
    have hv := h.loaded _ v hu
    omega

/-- A store of the counter, with which the thread goes on or leaves its loop. -/
theorem Counted.store (h : Counted countLimit s) {v : BitVec 16}
    (hat : s.site r = .storeCounter v) (hadd : (v + 1).toNat = v.toNat + 1)
    (hx : ∀ w, x ≠ .storeCounter w) (hends : v.toNat + 1 ≤ lastCount countLimit ∨ x.ends = 1) :
    Counted countLimit { s.goto r x with counter := v + 1 } := by
  have hv := h.loaded r v hat
  have hold : s.ends = (s.site r.other).ends := by
    rw [ends_at r, hat, Site.ends, Nat.zero_add]
  have hnew : ends { s.goto r x with counter := v + 1 } = x.ends + (s.site r.other).ends := by
    rw [ends_at r]
    show ((s.goto r x).site r).ends + ((s.goto r x).site r.other).ends = _
    rw [goto_site, goto_site_other]
  refine ⟨?_, fun u w hu => ?_⟩
  · show (v + 1).toNat ≤ _
    rw [hadd, hnew]
    omega
  · rw [hnew]
    rcases Role.two.eq_or r u with rfl | rfl
    · exact absurd ((goto_site s u x).symm.trans hu) (hx w)
    · have hw := h.loaded _ w ((goto_site_other s r x).symm.trans hu)
      omega

theorem toNat_succ (h : Counted countLimit s) (hlimit : countLimit + 3 < 2 ^ 16)
    {v : BitVec 16} (hat : s.site r = .storeCounter v) : (v + 1).toNat = v.toNat + 1 := by
  rw [BitVec.toNat_add]
  exact Nat.mod_eq_of_lt (h.succ_lt hlimit hat).2

theorem Counted.step (h : Counted countLimit s) (hlimit : countLimit + 3 < 2 ^ 16)
    (ha : s.enabled r) : Counted countLimit (s.step countLimit r) := by
  rcases step_cases countLimit ha with ⟨v, hat, hstep⟩ | ⟨-, x, hadv⟩
  · have hadd := toNat_succ h hlimit hat
    rw [hstep]
    cases hgoes : r.goes countLimit v with
    | true => exact h.store hat hadd (fun _ => Site.noConfusion) (Or.inl (Role.succ_le_lastCount hgoes))
    | false => exact h.store (x := .finalPost) hat hadd (fun _ => Site.noConfusion) (Or.inr rfl)
  · exact h.advance hadv

theorem counted (hlimit : countLimit + 3 < 2 ^ 16) (h : (machine countLimit).Reachable s) :
    Counted countLimit s := by
  refine h.invariant (P := Counted countLimit) ⟨Nat.zero_le _, ?_⟩ ?_
  · intro r v hat
    cases r <;> exact Site.noConfusion hat
  · exact fun s r _ hs ha => hs.step hlimit ha

/-! ### What goes down -/

/-- What a thread saw last, where the counter is `c`. -/
def Site.seen (c : Nat) : Site → Nat
  | .storeCounter v => v.toNat
  | _ => c

/-- What the counter can be set to by the store to come of a thread. -/
def Site.target (c : Nat) : Site → Nat
  | .storeCounter v => v.toNat + 1
  | _ => c

/-- The thread is about to set the counter to `f`. -/
def Site.lags (f : Nat) : Site → Nat
  | .storeCounter v => if v.toNat + 1 = f then 1 else 0
  | _ => 0

/-- The least value that the counter has or can be set to. -/
def floor (s : PosixSem) : Nat :=
  min s.counter.toNat (min ((s.site .producer).target s.counter.toNat)
    ((s.site .consumer).target s.counter.toNat))

/-- How many threads are about to set the counter to that value. -/
def lagging (s : PosixSem) : Nat := (s.site .producer).lags s.floor + (s.site .consumer).lags s.floor

/-- The steps that a thread has left if nobody else changes the counter. -/
def work (countLimit : Int) (s : PosixSem) (r : Role) : Nat :=
  11 * (lastCount countLimit + 3 - (s.site r).seen s.counter.toNat) + (s.site r).rank

def totalWork (countLimit : Int) (s : PosixSem) : Nat :=
  s.work countLimit .producer + s.work countLimit .consumer

/-- What goes down with every step, the first component first. -/
def progress (countLimit : Int) (s : PosixSem) : Nat × Nat × Nat :=
  (lastCount countLimit + 3 - s.floor, s.lagging, totalWork countLimit s)

theorem floor_at (r : Role) : s.floor =
    min s.counter.toNat (min ((s.site r).target s.counter.toNat)
      ((s.site r.other).target s.counter.toNat)) := by
  cases r
  · rfl
  · unfold floor
    rw [min_comm ((s.site .producer).target _)]
    rfl

theorem lagging_at (r : Role) :
    s.lagging = (s.site r).lags s.floor + (s.site r.other).lags s.floor :=
  (Role.two.add_other rfl (fun r => (s.site r).lags s.floor) r).symm

theorem totalWork_at (r : Role) :
    totalWork countLimit s = s.work countLimit r + s.work countLimit r.other :=
  (Role.two.add_other rfl (s.work countLimit) r).symm

/-- A thread that is not about to store sees the counter as it is. -/
theorem sees_counter {c f : Nat} (hne : ∀ v, x ≠ .storeCounter v) :
    x.target c = c ∧ x.seen c = c ∧ x.lags f = 0 := by
  cases x with
  | storeCounter v => exact absurd rfl (hne v)
  | _ => exact ⟨rfl, rfl, rfl⟩

theorem floor_le_counter (s : PosixSem) : s.floor ≤ s.counter.toNat := min_le_left ..

/-- A load of the counter leads above the least value. -/
theorem sees_advance {s' : PosixSem} (hadv : Advances s s' r x) :
    s.counter.toNat ≤ x.target s.counter.toNat ∧ x.seen s.counter.toNat = s.counter.toNat ∧
      x.lags s.floor = 0 := by
  by_cases hx : ∃ v, x = .storeCounter v
  · obtain ⟨v, rfl⟩ := hx
    obtain rfl := hadv.loads v rfl
    refine ⟨Nat.le_succ _, rfl, if_neg ?_⟩
    have hle := floor_le_counter s
    omega
  · obtain ⟨htarget, hseen, hlags⟩ := sees_counter (c := s.counter.toNat) (f := s.floor)
      (fun v hv => hx ⟨v, hv⟩)
    exact ⟨htarget.ge, hseen, hlags⟩

/-- To go on and leave the counter: the thread has less to do. -/
theorem progress_advance (hne : ∀ v, s.site r ≠ .storeCounter v) {s' : PosixSem}
    (hadv : Advances s s' r x) : Machine.Descent (progress countLimit s') (progress countLimit s) := by
  have hother : s'.site r.other = s.site r.other := by rw [hadv.site, goto_site_other]
  have hr : s'.site r = x := by rw [hadv.site, goto_site]
  obtain ⟨htarget, hseen, hlags⟩ := sees_counter (c := s.counter.toNat) (f := s.floor) hne
  obtain ⟨htarget', hseen', hlags'⟩ := sees_advance hadv
  have hfloor : s'.floor = s.floor := by
    rw [floor_at r, floor_at (s := s) r, hadv.counter, hr, hother, htarget]
    omega
  have hlagging : s'.lagging = s.lagging := by
    rw [lagging_at r, lagging_at (s := s) r, hfloor, hr, hother, hlags, hlags']
  have hwork : totalWork countLimit s' < totalWork countLimit s := by
    have hrank := hadv.rank
    rw [totalWork_at r, totalWork_at (s := s) r]
    unfold work
    rw [hadv.counter, hr, hother, hseen, hseen']
    omega
  refine Machine.descent_iff.mpr (Or.inr ⟨?_, Or.inr ⟨hlagging, hwork⟩⟩)
  rw [hfloor]

/-- The state after a store of the counter. -/
def stored (s : PosixSem) (r : Role) (x : Site) (v : BitVec 16) : PosixSem :=
  { s.goto r x with counter := v + 1 }

section Store

variable {v : BitVec 16} (hat : s.site r = .storeCounter v) (hx : ∀ w, x ≠ .storeCounter w)
  (hadd : (v + 1).toNat = v.toNat + 1)

theorem stored_site : (stored s r x v).site r = x ∧
    (stored s r x v).site r.other = s.site r.other := ⟨goto_site .., goto_site_other ..⟩

include hat in
theorem floor_before : s.floor = min s.counter.toNat (min (v.toNat + 1)
    ((s.site r.other).target s.counter.toNat)) := by
  rw [floor_at r, hat]
  rfl

include hx hadd in
theorem floor_after : (stored s r x v).floor =
    min (v.toNat + 1) ((s.site r.other).target (v.toNat + 1)) := by
  have hcounter : (stored s r x v).counter.toNat = v.toNat + 1 := hadd
  rw [floor_at r, stored_site.1, stored_site.2, hcounter, (sees_counter (f := 0) hx).1, ← min_assoc,
    min_self]

include hat in
theorem lagging_before : s.lagging =
    (if v.toNat + 1 = s.floor then 1 else 0) + (s.site r.other).lags s.floor := by
  rw [lagging_at r, hat]
  rfl

include hx in
theorem lagging_after :
    (stored s r x v).lagging = (s.site r.other).lags (stored s r x v).floor := by
  rw [lagging_at r, stored_site.1, stored_site.2, (sees_counter (c := 0) hx).2.2, Nat.zero_add]

include hat hx hadd in
/-- The thread that stores sees more than before. -/
theorem work_after (hbound : v.toNat + 1 ≤ lastCount countLimit + 2) (hrank : x.rank ≤ 11) :
    (stored s r x v).work countLimit r < s.work countLimit r := by
  have hcounter : (stored s r x v).counter.toNat = v.toNat + 1 := hadd
  unfold work
  rw [stored_site.1, (sees_counter (f := 0) hx).2.1, hcounter, hat, Site.seen, Site.rank]
  omega

include hat hx hadd in
/-- To store, while the other is about to store as well. -/
theorem progress_store_pending {w : BitVec 16} (hw : s.site r.other = .storeCounter w)
    (hbound : v.toNat + 1 ≤ lastCount countLimit + 2) (hrank : x.rank ≤ 11) :
    Machine.Descent (progress countLimit (stored s r x v)) (progress countLimit s) := by
  have htarget : ∀ c, (Site.storeCounter w).target c = w.toNat + 1 := fun _ => rfl
  have hfloor := floor_before hat
  have hfloor' := floor_after (s := s) (r := r) hx hadd
  have hwork := work_after hat hx hadd hbound hrank
  have hsame : (stored s r x v).work countLimit r.other = s.work countLimit r.other := by
    unfold work
    rw [stored_site.2, hw]
    rfl
  rw [hw, htarget] at hfloor hfloor'
  unfold progress
  rw [Machine.descent_iff, totalWork_at r, totalWork_at (s := s) r, lagging_before hat, lagging_after hx,
    hsame]
  by_cases hup : s.floor < (stored s r x v).floor
  · exact Or.inl (by omega)
  · -- the least value stays: this was a store to it, or one above it
    have heq : (stored s r x v).floor = s.floor := by omega
    rw [heq]
    refine Or.inr ⟨rfl, ?_⟩
    by_cases hlag : v.toNat + 1 = s.floor
    · rw [if_pos hlag]
      exact Or.inl (by omega)
    · rw [if_neg hlag]
      exact Or.inr ⟨(Nat.zero_add _).symm, by omega⟩

include hat hx hadd in
/-- To store, while the other is not about to. -/
theorem progress_store_alone (hnone : ∀ w, s.site r.other ≠ .storeCounter w)
    (hbound : v.toNat + 1 ≤ lastCount countLimit + 2) :
    Machine.Descent (progress countLimit (stored s r x v)) (progress countLimit s) := by
  have hfloor := floor_before hat
  have hfloor' := floor_after (s := s) (r := r) hx hadd
  rw [(sees_counter (f := 0) hnone).1] at hfloor hfloor'
  unfold progress
  rw [Machine.descent_iff, lagging_before hat, lagging_after hx, (sees_counter (c := 0) hnone).2.2,
    (sees_counter (c := 0) hnone).2.2]
  by_cases hup : s.floor < (stored s r x v).floor
  · exact Or.inl (by omega)
  · have heq : (stored s r x v).floor = s.floor := by omega
    rw [heq, if_pos (by omega)]
    exact Or.inr ⟨rfl, Or.inl Nat.one_pos⟩

end Store

/-- **Every step goes down.** -/
theorem descends (hlimit : countLimit + 3 < 2 ^ 16) :
    (machine countLimit).Descends (InvImage Machine.Descent (progress countLimit)) := by
  intro s r hs ha
  show Machine.Descent (progress countLimit (s.step countLimit r)) (progress countLimit s)
  rcases step_cases countLimit ha with ⟨v, hat, hstep⟩ | ⟨hne, x, hadv⟩
  · have h := counted hlimit hs
    have hadd := toNat_succ h hlimit hat
    have hbound := (h.succ_lt hlimit hat).1
    have hx : ∀ w, (if r.goes countLimit v then Site.wait else .finalPost) ≠ .storeCounter w := by
      intro w
      split <;> exact Site.noConfusion
    have hrank : (if r.goes countLimit v then Site.wait else .finalPost).rank ≤ 11 := by
      split <;> decide
    rw [hstep]
    by_cases hpending : ∃ w, s.site r.other = .storeCounter w
    · obtain ⟨w, hw⟩ := hpending
      exact progress_store_pending hat hx hadd hw hbound hrank
    · exact progress_store_alone hat hx hadd (fun w hw => hpending ⟨w, hw⟩) hbound
  · exact progress_advance hne hadv

/-! ### Where nobody has a next step -/

/-- A thread without a next step has exited or waits for a permit. -/
theorem stuck_site (h : ¬ s.enabled r) :
    s.site r = .exited ∨ s.site r = .wait ∧ s.sem = 0 := by
  unfold enabled at h
  cases hat : s.site r with
  | exited => exact Or.inl rfl
  | wait =>
      rw [hat] at h
      exact Or.inr ⟨rfl, Nat.eq_zero_of_not_pos h⟩
  | _ =>
      rw [hat] at h
      exact absurd trivial h

/-- Nobody waits for ever: the permits are with a thread inside, or in the semaphore. -/
theorem exited_of_stuck (h : (machine countLimit).Reachable s)
    (hstuck : (machine countLimit).Stuck s) (r : Role) : s.site r = .exited := by
  have hout : ∀ r, (s.site r).permits = 0 := by
    intro r
    rcases stuck_site (hstuck r) with hat | ⟨hat, -⟩ <;> rw [hat] <;> rfl
  refine (stuck_site (hstuck r)).resolve_right fun ⟨_, hsem⟩ => ?_
  have hpermits := (permitted h).permits
  unfold permits at hpermits
  rw [hout, hout, hsem] at hpermits
  omega

/--
**The program terminates.**  Where the counter cannot wrap around by the limit, there is no
endless run however the increments are lost, the counter does not wrap around, and the threads
stop only after their last posts.
-/
theorem loops_terminate (countLimit : Int) (hlimit : countLimit + 3 < 2 ^ 16) :
    (∀ run, ¬ (machine countLimit).Endless run) ∧
    (∀ s, (machine countLimit).Reachable s →
      ∀ r v, s.site r = .storeCounter v → (v + 1).toNat = v.toNat + 1) ∧
    ∀ s, (machine countLimit).Reachable s → (machine countLimit).Stuck s →
      ∀ r, s.site r = .exited := by
  refine ⟨fun run => ?_, fun s hs r v hat => ?_, fun s hs hstuck => exited_of_stuck hs hstuck⟩
  · exact (descends hlimit).not_endless (InvImage.wf _ Machine.descent_wf)
  · exact toNat_succ (counted hlimit hs) hlimit hat

/-- With the limit of the program. -/
theorem loops_terminate_source : (∀ run, ¬ (machine 100).Endless run) ∧
    (∀ s, (machine 100).Reachable s →
      ∀ r v, s.site r = .storeCounter v → (v + 1).toNat = v.toNat + 1) ∧
    ∀ s, (machine 100).Reachable s → (machine 100).Stuck s → ∀ r, s.site r = .exited :=
  loops_terminate 100 (by decide)

end LinuxSystems.PosixSem
