/-
What the counter with the mutex counts.

A thread between its load and its store has the mutex, so nobody stores in between and what it
loaded is what the counter still has.  Then the store does what the atomic increment does, and
the other steps around it are not seen: whatever the program with the mutex does, the one with
the atomic counter can do, with the same counter, indices and output.
-/
import LinuxSystems.Increment.Atomic
import LinuxSystems.Machine.Monitor

namespace LinuxSystems.Increment

namespace Mutex

variable {ι : Type*} [DecidableEq ι] {limit : BitVec 32} {s : Mutex ι} {a : Action ι} {t u : ι}
  {x : Site} {v : BitVec 32} {c : Counter ι}

@[simp] theorem goto_site (s : Mutex ι) (c : Counter ι) (t : ι) (x : Site) :
    (s.goto c t x).site t = x := Function.update_self ..

theorem goto_site_of_ne (h : u ≠ t) (s : Mutex ι) (c : Counter ι) (x : Site) :
    (s.goto c t x).site u = s.site u := Function.update_of_ne h ..

/-! ### The mutex -/

/-- Who has the mutex. -/
def Site.stand : Site → Stand
  | .load | .store _ | .unlock => .inside
  | .test | .lock | .next | .finish | .returned => .outside

/-- What the mutex sees of the threads. -/
def monitor (s : Mutex ι) : Monitor ι := ⟨s.owner, fun t => (s.site t).stand⟩

/-- The steps that take the mutex or give it up. -/
def Action.toMonitor : Action ι → Option (Monitor.Action ι)
  | .lock t => some (.lock t)
  | .unlock t => some (.unlock t)
  | .test _ | .load _ | .store _ _ | .next _ | .finish _ => none

theorem stand_goto (s : Mutex ι) (c : Counter ι) (t : ι) (x : Site) :
    (fun u => ((s.goto c t x).site u).stand) =
      Function.update (fun u => (s.site u).stand) t x.stand :=
  Function.comp_update Site.stand s.site t x

/-- A step on the same side of the mutex. -/
theorem monitor_goto (hx : x.stand = (s.site t).stand) : (s.goto c t x).monitor = s.monitor := by
  unfold monitor
  rw [stand_goto, hx]
  exact congrArg (Monitor.mk s.owner) (Function.update_eq_self t fun u => (s.site u).stand)

theorem simulates_monitor (limit : BitVec 32) :
    Machine.Simulates (machine (ι := ι) limit) (Monitor.machine ι) Action.toMonitor
      fun s m => s.monitor = m := by
  refine ⟨rfl, ?_, ?_⟩
  · intro s m a b hab hsm ha
    subst hsm
    cases a with
    | lock t =>
        obtain rfl : Monitor.Action.lock t = b := Option.some.inj hab
        have hat : s.site t = .lock := ha.1
        exact ⟨⟨congrArg Site.stand hat, ha.2⟩,
          congrArg (Monitor.mk (some t)) (stand_goto s s.counter t .load)⟩
    | unlock t =>
        obtain rfl : Monitor.Action.unlock t = b := Option.some.inj hab
        have hat : s.site t = .unlock := ha
        exact ⟨congrArg Site.stand hat,
          congrArg (Monitor.mk none) (stand_goto s s.counter t .next)⟩
    | test t | load t | store t v | next t | finish t => exact nomatch hab
  · intro s m a hab hsm ha
    subst hsm
    cases a with
    | lock t | unlock t => exact nomatch hab
    | test t =>
        refine monitor_goto ?_
        rw [ha]
        cases goes limit (s.counter.i t) <;> rfl
    | load t | store t v | next t | finish t =>
        refine monitor_goto ?_
        rw [ha]
        rfl

/-- The mutex is used as it should be, and what was loaded is what there is. -/
structure Guarded (s : Mutex ι) : Prop where
  monitor : (Monitor.machine ι).Reachable s.monitor
  loaded : ∀ t v, s.site t = .store v → v = s.counter.sharedResource

/-- A thread that goes on and leaves `shared_resource` alone. -/
theorem Guarded.loaded_goto (h : Guarded s)
    (hshared : c.sharedResource = s.counter.sharedResource)
    (hx : ∀ v, x = .store v → v = s.counter.sharedResource) :
    ∀ u v, (s.goto c t x).site u = .store v → v = c.sharedResource := by
  intro u v hu
  rw [hshared]
  by_cases hut : u = t
  · rw [hut, goto_site] at hu
    exact hx v hu
  · rw [goto_site_of_ne hut] at hu
    exact h.loaded u v hu

/-- **Nobody else is between its load and its store.** -/
theorem Guarded.loaded_store (h : Guarded s) (hat : s.site t = .store v) (c : Counter ι) :
    ∀ u w, (s.goto c t .unlock).site u = .store w → w = c.sharedResource := by
  intro u w hu
  by_cases hut : u = t
  · rw [hut, goto_site] at hu
    exact Site.noConfusion hu
  · rw [goto_site_of_ne hut] at hu
    have hinside : ∀ {y : ι} {z : BitVec 32}, s.site y = .store z →
        s.monitor.stand y = .inside := fun hy => congrArg Site.stand hy
    exact absurd (Monitor.inside_unique h.monitor (hinside hu) (hinside hat)) hut

theorem Guarded.step (limit : BitVec 32) (h : Guarded s) (ha : s.enabled a) : Guarded (s.step limit a) := by
  have hmonitor : (Monitor.machine ι).Reachable (s.step limit a).monitor := by
    cases hab : a.toMonitor with
    | none => exact (simulates_monitor limit).stutter hab rfl ha ▸ h.monitor
    | some b =>
        obtain ⟨hb, hnext⟩ := (simulates_monitor limit).step hab rfl ha
        exact hnext ▸ h.monitor.next hb
  refine ⟨hmonitor, ?_⟩
  cases a with
  | store t v => exact h.loaded_store ha _
  | load t => exact h.loaded_goto rfl fun v hv => (Site.store.inj hv).symm
  | test t =>
      refine h.loaded_goto rfl fun v hv => ?_
      cases hgoes : goes limit (s.counter.i t) <;> simp [hgoes] at hv
  | lock t | unlock t | next t | finish t =>
      exact h.loaded_goto rfl fun v hv => Site.noConfusion hv

/-! ### The atomic counter behind -/

/-- Where the thread stands with the atomic counter. -/
def Site.toAtomic : Site → Atomic.Site
  | .test => .test
  | .lock | .load | .store _ => .add
  | .unlock | .next => .next
  | .finish => .finish
  | .returned => .returned

def atomic (s : Mutex ι) : Atomic ι := ⟨s.counter, fun t => (s.site t).toAtomic⟩

/-- The steps that the atomic counter sees: the store is the increment. -/
def Action.toAtomic : Action ι → Option (Atomic.Action ι)
  | .test t => some (.test t)
  | .store t _ => some (.add t)
  | .next t => some (.next t)
  | .finish t => some (.finish t)
  | .lock _ | .load _ | .unlock _ => none

theorem atomic_goto (s : Mutex ι) (c : Counter ι) (t : ι) (x : Site) :
    (s.goto c t x).atomic = s.atomic.goto c t x.toAtomic := by
  refine congrArg (Atomic.mk c) ?_
  funext u
  by_cases hut : u = t
  · subst hut
    show _ = Function.update s.atomic.site u x.toAtomic u
    rw [goto_site, Function.update_self]
  · show _ = Function.update s.atomic.site t x.toAtomic u
    rw [goto_site_of_ne hut, Function.update_of_ne hut]
    rfl

/-- A step that the atomic counter does not see. -/
theorem atomic_goto_self (hx : x.toAtomic = (s.site t).toAtomic) :
    (s.goto s.counter t x).atomic = s.atomic := by
  rw [atomic_goto, hx]
  exact congrArg (Atomic.mk s.counter) (Function.update_eq_self t s.atomic.site)

/-- **The atomic counter simulates the one with the mutex.** -/
theorem simulates (limit : BitVec 32) :
    Machine.Simulates (machine (ι := ι) limit) (Atomic.machine limit) Action.toAtomic
      fun s a => Guarded s ∧ s.atomic = a := by
  refine ⟨⟨⟨Machine.Reachable.init, fun t v hv => Site.noConfusion hv⟩, rfl⟩, ?_, ?_⟩
  · intro s m a b hab ⟨hs, hsm⟩ ha
    subst hsm
    cases a with
    | lock t | load t | unlock t => exact nomatch hab
    | test t =>
        obtain rfl : Atomic.Action.test t = b := Option.some.inj hab
        refine ⟨congrArg Site.toAtomic ha, hs.step limit (a := .test t) ha, ?_⟩
        refine (atomic_goto s s.counter t _).trans ?_
        show s.atomic.goto _ _ _ =
          s.atomic.goto _ _ (if goes limit (s.counter.i t) then .add else .finish)
        cases goes limit (s.counter.i t) <;> rfl
    | store t v =>
        obtain rfl : Atomic.Action.add t = b := Option.some.inj hab
        have hv : v = s.counter.sharedResource := hs.loaded t v ha
        refine ⟨congrArg Site.toAtomic ha, hs.step limit (a := .store t v) ha, ?_⟩
        rw [hv]
        exact atomic_goto s _ t .unlock
    | next t =>
        obtain rfl : Atomic.Action.next t = b := Option.some.inj hab
        exact ⟨congrArg Site.toAtomic ha, hs.step limit (a := .next t) ha, atomic_goto s _ t .test⟩
    | finish t =>
        obtain rfl : Atomic.Action.finish t = b := Option.some.inj hab
        exact ⟨congrArg Site.toAtomic ha, hs.step limit (a := .finish t) ha, atomic_goto s _ t .returned⟩
  · intro s m a hab ⟨hs, hsm⟩ ha
    subst hsm
    refine ⟨hs.step limit ha, ?_⟩
    cases a with
    | test t | store t v | next t | finish t => exact nomatch hab
    | lock t =>
        show (s.goto s.counter t .load).atomic = s.atomic
        refine atomic_goto_self ?_
        rw [ha.1]
        rfl
    | load t =>
        refine atomic_goto_self ?_
        rw [ha]
        rfl
    | unlock t =>
        show (s.goto s.counter t .next).atomic = s.atomic
        refine atomic_goto_self ?_
        rw [ha]
        rfl

theorem guarded (h : (machine limit).Reachable s) :
    Guarded s ∧ (Atomic.machine limit).Reachable s.atomic := by
  obtain ⟨m, hm, hs, rfl⟩ := (simulates limit).reachable h
  exact ⟨hs, hm⟩

/-! ### The end -/

/-- The steps of an iteration that are left. -/
def Site.left : Site → Nat
  | .test => 6
  | .lock => 5
  | .load => 4
  | .store _ => 3
  | .unlock => 2
  | .next => 1
  | .finish => 1
  | .returned => 0

/-- The steps that a thread can take at most. -/
def left (limit : BitVec 32) (s : Mutex ι) (t : ι) : Nat :=
  6 * (limit.toNat - s.counter.i t).toNat + (s.site t).left

/-- Who takes the step. -/
def Action.actor : Action ι → ι
  | .test t | .lock t | .load t | .store t _ | .unlock t | .next t | .finish t => t

/-- A thread that goes on inside its iteration has less left of it. -/
theorem left_goto (hi : c.i = s.counter.i) (hx : x.left < (s.site t).left) :
    (s.goto c t x).left limit t < s.left limit t := by
  unfold left
  rw [goto_site]
  show 6 * (limit.toNat - c.i t).toNat + _ < _
  rw [hi]
  exact Nat.add_lt_add_left hx _

theorem left_step (h : Atomic.Counted limit s.atomic) (ha : s.enabled a) :
    (s.step limit a).left limit a.actor < s.left limit a.actor := by
  cases a with
  | test t =>
      refine left_goto rfl ?_
      rw [ha]
      cases goes limit (s.counter.i t) <;> decide
  | lock t =>
      show (s.goto s.counter t .load).left limit t < s.left limit t
      refine left_goto rfl ?_
      rw [ha.1]
      exact Nat.lt_succ_self _
  | load t | store t v | finish t =>
      refine left_goto rfl ?_
      rw [ha]
      exact Nat.lt_succ_self _
  | unlock t =>
      show (s.goto s.counter t .next).left limit t < s.left limit t
      refine left_goto rfl ?_
      rw [ha]
      exact Nat.lt_succ_self _
  | next t =>
      have hat : s.site t = .next := ha
      have hknows : Atomic.Knows limit (s.counter.i t) (s.site t).toAtomic := (h.stands t).knows
      rw [hat] at hknows
      have hlt : s.counter.i t < limit.toNat := hknows
      have hi : (s.counter.next t).i t = s.counter.i t + 1 := Function.update_self ..
      show 6 * (limit.toNat - (s.counter.next t).i t).toNat + ((s.goto _ t .test).site t).left <
        s.left limit t
      unfold left
      rw [goto_site, hat, hi]
      simp only [Site.left]
      omega

theorem left_other (limit : BitVec 32) (s : Mutex ι) (a : Action ι) (hta : t ≠ a.actor) :
    (s.step limit a).left limit t = s.left limit t := by
  have hsite : (s.step limit a).site t = s.site t := by
    cases a <;> exact Function.update_of_ne hta ..
  have hi : (s.step limit a).counter.i t = s.counter.i t := by
    cases a with
    | next u => exact Function.update_of_ne hta ..
    | test u | lock u | load u | store u v | unlock u | finish u => rfl
  unfold left
  rw [hsite, hi]

theorem descends [Fintype ι] (hlimit : (limit.toNat : Int) ≤ intMax) :
    (machine (ι := ι) limit).Descends (InvImage (· < ·) fun s => ∑ t, s.left limit t) :=
  Machine.descends_sum (left limit) Action.actor
    (fun _ _ hs ha => left_step (Atomic.counted hlimit (guarded hs).2) ha)
    (fun s a _ _ _ hta => (left_other limit s a hta).le)

/-- Who has not returned has a next step, or waits for somebody who has. -/
theorem returned_of_stuck (hs : Guarded s) (h : ∀ a, ¬ s.enabled a) (t : ι) :
    s.site t = .returned := by
  -- nobody is inside, so the mutex is free
  have hfree : s.owner = none := by
    cases howner : s.owner with
    | none => rfl
    | some u =>
        have hinside : (s.site u).stand = .inside :=
          (Monitor.reachable_owned hs.monitor u).mpr howner
        cases hu : s.site u with
        | load => exact absurd hu (h (.load u))
        | store v => exact absurd hu (h (.store u v))
        | unlock => exact absurd hu (h (.unlock u))
        | test | lock | next | finish | returned =>
            rw [hu] at hinside
            exact Stand.noConfusion hinside
  cases hat : s.site t with
  | test => exact absurd hat (h (.test t))
  | lock => exact absurd ⟨hat, hfree⟩ (h (.lock t))
  | load => exact absurd hat (h (.load t))
  | store v => exact absurd hat (h (.store t v))
  | unlock => exact absurd hat (h (.unlock t))
  | next => exact absurd hat (h (.next t))
  | finish => exact absurd hat (h (.finish t))
  | returned => rfl

/-- **The counter with the mutex counts.** -/
theorem counts [Fintype ι] (hlimit : (limit.toNat : Int) ≤ intMax) :
    Counts limit (machine (ι := ι) limit) counter fun s => ∀ t, s.site t = .returned where
  counted _ hs := (Atomic.counted hlimit (guarded hs).2).counted
  inRange _ hs := (Atomic.counted hlimit (guarded hs).2).inRange hlimit
  total _ hs hall :=
    (Atomic.counted hlimit (guarded hs).2).total fun t => congrArg Site.toAtomic (hall t)
  ends _ := (descends hlimit).not_endless (InvImage.wf _ Nat.lt_wfRel.wf)
  returns _ hs hstuck := returned_of_stuck (guarded hs).1 hstuck

end Mutex

/-! ### The two counters -/

variable {ι : Type*} [DecidableEq ι]

/-- The increment of an atomic counter that does not wrap around. -/
def Atomic.NeverWraps (limit : BitVec 32) (ι : Type*) [DecidableEq ι] : Prop :=
  ∀ s : Atomic ι, (Atomic.machine limit).Reachable s → ∀ t, s.site t = .add →
    (s.counter.sharedResource + 1).toNat = s.counter.sharedResource.toNat + 1

/-- Nor does one with the mutex. -/
def Mutex.NeverWraps (limit : BitVec 32) (ι : Type*) [DecidableEq ι] : Prop :=
  ∀ s : Mutex ι, (Mutex.machine limit).Reachable s → ∀ t v, s.site t = .store v →
    (v + 1).toNat = v.toNat + 1

/--
**The two counters behave alike.**  Every run with the mutex is one with the atomic counter, with
the same counter, indices and output; either counts all increments, without an index that
overflows, and ends; and where all increments fit into the counter it never wraps around.
-/
theorem counters_agree [Fintype ι] (limit : BitVec 32)
    (hlimit : (limit.toNat : Int) ≤ intMax) :
    (∀ tr, (Mutex.machine (ι := ι) limit).Legal (Mutex.machine limit).init tr →
      (Atomic.machine limit).Legal (Atomic.machine limit).init
        (tr.filterMap Mutex.Action.toAtomic) ∧
      ((Atomic.machine limit).after (Atomic.machine limit).init
        (tr.filterMap Mutex.Action.toAtomic)).counter =
          ((Mutex.machine limit).after (Mutex.machine limit).init tr).counter) ∧
    Counts limit (Mutex.machine (ι := ι) limit) Mutex.counter
      (fun s => ∀ t, s.site t = .returned) ∧
    Counts limit (Atomic.machine (ι := ι) limit) Atomic.counter
      (fun s => ∀ t, s.site t = .returned) ∧
    (Fintype.card ι * limit.toNat < 2 ^ 32 →
      Mutex.NeverWraps limit ι ∧ Atomic.NeverWraps limit ι) := by
  refine ⟨fun tr hl => ?_, Mutex.counts hlimit, Atomic.counts hlimit, fun hfits => ⟨?_, ?_⟩⟩
  · obtain ⟨hlegal, -, heq⟩ := (Mutex.simulates limit).run hl
    exact ⟨hlegal, congrArg Atomic.counter heq.symm⟩
  · intro s hs t v hat
    obtain ⟨hguarded, hatomic⟩ := Mutex.guarded hs
    rw [hguarded.loaded t v hat]
    exact (Atomic.counted hlimit hatomic).not_wrap hfits (congrArg Mutex.Site.toAtomic hat)
  · intro s hs t hat
    exact (Atomic.counted hlimit hs).not_wrap hfits hat

/-- The two threads of `main`, and its limit. -/
theorem counters_agree_main :
    Mutex.NeverWraps 0x7fffffff#32 (Fin 2) ∧ Atomic.NeverWraps 0x7fffffff#32 (Fin 2) :=
  (counters_agree 0x7fffffff#32 (by decide)).2.2.2 (by decide)

end LinuxSystems.Increment
