/-
Who is inside.

With respect to the mutex and the condition variable every step of a call is a step of
the monitor, or none: the calls refine it.  What comes out is that the thread inside is
the owner of the mutex, so there is never a second one, and what a call found of
`work_done` stays so until it changes it itself.
-/
import LinuxSystems.SharedMemory.Model

namespace LinuxSystems.SharedMem

variable {ι T : Type*} [DecidableEq ι] {call : ι → Call T} {s : SharedMem ι T} {a : Action ι}
  {t u : ι} {x : Site}

/-! ### Going from place to place -/

@[simp] theorem goto_site (s : SharedMem ι T) (t : ι) (x : Site) :
    (s.goto t x).site t = x := Function.update_self ..

theorem goto_site_of_ne (h : u ≠ t) (s : SharedMem ι T) (x : Site) :
    (s.goto t x).site u = s.site u := Function.update_of_ne h ..

/-- Whoever is at a place after a step to another one was there before. -/
theorem site_of_goto {y : Site} (h : (s.goto t x).site u = y) (hne : x ≠ y) : s.site u = y := by
  by_cases hu : u = t
  · rw [hu, goto_site] at h
    exact absurd h hne
  · rwa [goto_site_of_ne hu] at h

omit [DecidableEq ι] in
/-- Two threads at different places are different. -/
theorem ne_of_site (hu : s.site u = x) (ht : s.site t ≠ x) : u ≠ t := by
  intro hut
  rw [hut] at hu
  exact ht hu

/-! ### The monitor -/

/-- What the mutex and the condition variable see of the calls. -/
def monitor (s : SharedMem ι T) : Monitor ι := ⟨s.owner, fun t => (s.site t).stand⟩

theorem stand_goto (s : SharedMem ι T) (t : ι) (x : Site) :
    (fun u => ((s.goto t x).site u).stand) =
      Function.update (fun u => (s.site u).stand) t x.stand :=
  Function.comp_update Site.stand s.site t x

theorem monitor_goto (s : SharedMem ι T) (t : ι) (x : Site) :
    (s.goto t x).monitor = { s.monitor with stand := Function.update s.monitor.stand t x.stand } :=
  congrArg (Monitor.mk s.owner) (stand_goto s t x)

/-- A step from place to place that the monitor does not see. -/
theorem monitor_goto_self (h : (s.site t).stand = x.stand) : (s.goto t x).monitor = s.monitor := by
  have hself : Function.update s.monitor.stand t x.stand = s.monitor.stand := by
    rw [← h]
    exact Function.update_eq_self t s.monitor.stand
  rw [monitor_goto, hself]

/-- To take the mutex is a step of the monitor. -/
theorem monitor_enter (h : (Monitor.machine ι).Reachable s.monitor)
    (hat : s.site t = .lock ∨ s.site t = .woken) (hfree : s.owner = none) :
    (Monitor.machine ι).Reachable (SharedMem.monitor { s.goto t .test with owner := some t }) := by
  have hmon : SharedMem.monitor { s.goto t .test with owner := some t } =
      s.monitor.step (.lock t) := congrArg (Monitor.mk (some t)) (stand_goto s t .test)
  rw [hmon]
  rcases hat with hat | hat
  · exact h.next (a := .lock t) ⟨congrArg Site.stand hat, hfree⟩
  · exact h.next (a := .relock t) ⟨congrArg Site.stand hat, hfree⟩

/-- To give it up is one. -/
theorem monitor_exit (h : (Monitor.machine ι).Reachable s.monitor)
    (hat : (s.site t).stand = .inside) (hx : x.stand = .outside) :
    (Monitor.machine ι).Reachable (SharedMem.monitor { s.goto t x with owner := none }) := by
  have hmon : SharedMem.monitor { s.goto t x with owner := none } = s.monitor.step (.unlock t) := by
    refine congrArg (Monitor.mk none) ?_
    rw [← hx]
    exact stand_goto s t x
  rw [hmon]
  exact h.next (a := .unlock t) hat

/-- To give it up and go to sleep is one. -/
theorem monitor_wait (h : (Monitor.machine ι).Reachable s.monitor)
    (hat : (s.site t).stand = .inside) :
    (Monitor.machine ι).Reachable (SharedMem.monitor { s.goto t .waiting with owner := none }) := by
  have hmon : SharedMem.monitor { s.goto t .waiting with owner := none } =
      s.monitor.step (.wait t) := congrArg (Monitor.mk none) (stand_goto s t .waiting)
  rw [hmon]
  exact h.next (a := .wait t) hat

/-- To be woken is one. -/
theorem monitor_wake (h : (Monitor.machine ι).Reachable s.monitor) (hat : s.site t = .waiting) :
    (Monitor.machine ι).Reachable (s.goto t .woken).monitor := by
  rw [monitor_goto]
  exact h.next (a := .wake t) (congrArg Site.stand hat)

/-- A step on the same side of the mutex is none. -/
theorem monitor_stay (h : (Monitor.machine ι).Reachable s.monitor) {y : Site}
    (hat : s.site t = x) (hxy : x.stand = y.stand) :
    (Monitor.machine ι).Reachable (s.goto t y).monitor := by
  rw [monitor_goto_self (hat ▸ hxy)]
  exact h

/-- **Every step is a step of the monitor, or none.** -/
theorem monitor_reachable (h : (machine call).Reachable s) :
    (Monitor.machine ι).Reachable s.monitor := by
  refine h.invariant (P := fun s => (Monitor.machine ι).Reachable s.monitor)
    Machine.Reachable.init ?_
  intro s a _ hs ha
  cases a with
  | lock t => exact monitor_enter hs (Or.inl ha.1) ha.2
  | relock t => exact monitor_enter hs (Or.inr ha.1) ha.2
  | test t =>
      have hat : s.site t = .test := ha
      show (Monitor.machine ι).Reachable (SharedMem.monitor (if _ then _ else _))
      split
      · exact monitor_stay hs hat rfl
      · exact monitor_wait hs (congrArg Site.stand hat)
  | spurious t => exact monitor_wake hs ha
  | shmOpen t ok =>
      refine monitor_stay hs ha ?_
      cases ok <;> rfl
  | mmap t ok =>
      refine monitor_stay hs ha ?_
      cases ok
      · rfl
      · show Stand.inside = Site.stand (if (call t).isProducer then _ else _)
        split <;> rfl
  | place t => exact monitor_stay (y := .setDone) hs ha rfl
  | setDone t => exact monitor_stay (y := .unlock) hs ha rfl
  | clearDone t => exact monitor_stay (y := .leave s.taken) hs ha rfl
  | unlock t => exact monitor_exit hs (congrArg Site.stand ha) rfl
  | leave t i => exact monitor_exit hs (congrArg Site.stand ha) rfl
  | unwind t => exact monitor_exit hs (congrArg Site.stand ha) rfl
  | notify t w =>
      obtain ⟨hat, hw⟩ := ha
      cases w with
      | none => exact monitor_stay (y := .published) hs hat rfl
      | some u =>
          have hne : t ≠ u := ne_of_site hat (by simp [show s.site u = .waiting from hw])
          have hat' : (s.goto u .woken).site t = .notify := by rw [goto_site_of_ne hne, hat]
          exact monitor_stay (y := .published) (monitor_wake hs hw) hat' rfl
  | destroy t =>
      refine monitor_stay (y := .finished) hs rfl ?_
      have hlive : (s.site t).isLive := ha
      cases hat : s.site t <;> simp_all [Site.isLive, Site.stand]

theorem owner_iff (h : (machine call).Reachable s) (t : ι) :
    (s.site t).stand = .inside ↔ s.owner = some t :=
  Monitor.reachable_owned (monitor_reachable h) t

/-- Two threads are not inside at the same time. -/
theorem inside_unique (h : (machine call).Reachable s) (ht : (s.site t).stand = .inside)
    (hu : (s.site u).stand = .inside) : t = u :=
  Monitor.inside_unique (monitor_reachable h) ht hu

/-! ### What a call found -/

/-- The call has found its predicate true, and not yet changed `work_done`. -/
def Site.isGranted : Site → Prop
  | .shmOpen | .mmap | .place | .setDone | .clearDone => True
  | .lock | .test | .waiting | .woken | .unlock | .notify | .leave _ | .throwing | .published
  | .received _ | .finished | .threw => False

theorem inside_of_granted {x : Site} (h : x.isGranted) : x.stand = .inside := by
  cases x <;> first | rfl | exact h.elim

/-- The predicate is true of a call that has found it so. -/
def Granted (call : ι → Call T) (s : SharedMem ι T) : Prop :=
  ∀ t, (s.site t).isGranted → (call t).isReady s.workDone = true

/-- A step that leaves `work_done`, to a place where nothing more is found. -/
theorem Granted.goto (h : Granted call s) {s' : SharedMem ι T} (hsite : s'.site = (s.goto t x).site)
    (hdone : s'.workDone = s.workDone) (hx : x.isGranted → (s.site t).isGranted) :
    Granted call s' := by
  intro u hu
  rw [hsite] at hu
  rw [hdone]
  by_cases hut : u = t
  · subst hut
    rw [goto_site] at hu
    exact h u (hx hu)
  · rw [goto_site_of_ne hut] at hu
    exact h u hu

/-- Only the thread inside changes `work_done`, and it leaves the granted places with that. -/
theorem granted_of_alone (hin : (s.site t).stand = .inside) (hr : (machine call).Reachable s)
    {s' : SharedMem ι T} (hsite : s'.site = (s.goto t x).site) (hx : ¬ x.isGranted) :
    Granted call s' := by
  intro u hu
  rw [hsite] at hu
  by_cases hut : u = t
  · rw [hut, goto_site] at hu
    exact absurd hu hx
  · rw [goto_site_of_ne hut] at hu
    exact absurd (inside_unique hr (inside_of_granted hu) hin) hut

theorem Granted.step (h : Granted call s) (hr : (machine call).Reachable s) (ha : s.enabled a) :
    Granted call (s.step call a) := by
  cases a with
  | lock t | relock t | unlock t | leave t i | unwind t => exact h.goto rfl rfl False.elim
  | spurious t | destroy t => exact h.goto rfl rfl False.elim
  | test t =>
      show Granted call (if _ then _ else _)
      split
      case isFalse => exact h.goto rfl rfl False.elim
      case isTrue hready =>
        intro u hu
        by_cases hut : u = t
        · rw [hut]
          exact hready
        · rw [goto_site_of_ne hut] at hu
          exact h u hu
  | shmOpen t ok =>
      have hat : s.site t = .shmOpen := ha
      exact h.goto rfl rfl fun _ => hat ▸ trivial
  | mmap t ok =>
      have hat : s.site t = .mmap := ha
      exact h.goto rfl rfl fun _ => hat ▸ trivial
  | place t =>
      have hat : s.site t = .place := ha
      exact h.goto rfl rfl fun _ => hat ▸ trivial
  | setDone t => exact granted_of_alone (congrArg Site.stand ha) hr rfl id
  | clearDone t => exact granted_of_alone (congrArg Site.stand ha) hr rfl id
  | notify t w =>
      cases w with
      | none => exact h.goto rfl rfl False.elim
      | some u =>
          have hwoken : Granted call (s.goto u .woken) := h.goto rfl rfl False.elim
          exact hwoken.goto rfl rfl False.elim

theorem granted (h : (machine call).Reachable s) : Granted call s := by
  refine h.invariant (P := Granted call) ?_ ?_
  · exact fun _ hg => False.elim hg
  · exact fun s a hr hs ha => hs.step hr ha

end LinuxSystems.SharedMem
