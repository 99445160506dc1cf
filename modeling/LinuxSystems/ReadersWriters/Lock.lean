/-
Who is inside.

A call holds the lock from its first step to its last, shared or exclusively as it took it.
So what a writer does it does while nobody else is inside, and a reader inside sees nothing
change: the vector, and the order of the writers, are left alone by all other steps.
-/
import LinuxSystems.ReadersWriters.Model

namespace LinuxSystems.ReadersWriters

variable {ι : Type*} [DecidableEq ι] {call : ι → Call} {s : ReadersWriters ι} {a : Action ι}
  {t u : ι} {x : Site} {v : View} {book : Book}

/-! ### Going from place to place -/

@[simp] theorem goto_site (s : ReadersWriters ι) (t : ι) (x : Site) : (s.goto t x).site t = x :=
  Function.update_self ..

theorem goto_site_of_ne (h : u ≠ t) (s : ReadersWriters ι) (x : Site) :
    (s.goto t x).site u = s.site u := Function.update_of_ne h ..

/-- Who takes the step. -/
def Action.actor : Action ι → ι
  | .lock t | .run t => t

/-- The call has the lock. -/
def Site.isInside : Site → Prop
  | .lock | .finished => False
  | .header | .begin | .look _ _ | .write _ _ | .emplaceBack | .sleep | .unlock => True

theorem inside_iff : x.isInside ↔ x ≠ .lock ∧ x ≠ .finished := by
  cases x <;> simp [Site.isInside]

/-! ### What a step does -/

/-- The thread `t` goes on to `x`, inside still. -/
structure GoesOn (s s' : ReadersWriters ι) (t : ι) (x : Site) : Prop where
  site : s'.site = (s.goto t x).site
  inside : x.isInside
  mutex : s'.shresMutex = s.shresMutex
  writers : s'.writers = s.writers
  seen : s'.seen = s.seen

/-- The state after `t` has given up the lock. -/
def unlocked (s : ReadersWriters ι) (t : ι) : ReadersWriters ι :=
  { s.goto t .finished with shresMutex := RwLock.step s.shresMutex (.unlock t) }

/-- A step that does nothing. -/
theorem GoesOn.refl (hin : (s.site t).isInside) : GoesOn s s t (s.site t) :=
  ⟨(Function.update_eq_self t s.site).symm, hin, rfl, rfl, rfl⟩

theorem reader_cases (v : View) (hin : (s.site t).isInside) :
    s.site t = .unlock ∧ s.readerStep t v = s.unlocked t ∨
      ∃ x, GoesOn s (s.readerStep t v) t x := by
  have hstay := GoesOn.refl hin
  unfold readerStep
  cases hat : s.site t with
  | unlock => exact Or.inl ⟨rfl, rfl⟩
  | header => exact Or.inr ⟨.begin, rfl, trivial, rfl, rfl, rfl⟩
  | begin => exact Or.inr ⟨.look _ _, rfl, trivial, rfl, rfl, rfl⟩
  | write k n => exact Or.inr ⟨.look (k + 1) n, rfl, trivial, rfl, rfl, rfl⟩
  | look k n =>
      by_cases hk : k < n
      · simp only [hk, if_true]
        cases s.load v n k with
        | none => exact Or.inr ⟨.write k n, rfl, trivial, rfl, rfl, rfl⟩
        | some book =>
            refine Or.inr ⟨if v.keeps book then .write k n else .look (k + 1) n, rfl, ?_, rfl, rfl,
              rfl⟩
            cases v.keeps book <;> trivial
      · simp only [hk, if_false]
        exact Or.inr ⟨.unlock, rfl, trivial, rfl, rfl, rfl⟩
  | lock | finished | emplaceBack | sleep =>
      rw [hat] at hstay
      exact Or.inr ⟨_, hstay⟩

theorem writer_cases (book : Book) (hin : (s.site t).isInside) :
    s.site t = .unlock ∧ s.writerStep t book = s.unlocked t ∨
      ∃ x, GoesOn s (s.writerStep t book) t x := by
  have hstay := GoesOn.refl hin
  unfold writerStep
  cases hat : s.site t with
  | unlock => exact Or.inl ⟨rfl, rfl⟩
  | header => exact Or.inr ⟨.emplaceBack, rfl, trivial, rfl, rfl, rfl⟩
  | emplaceBack => exact Or.inr ⟨.sleep, rfl, trivial, rfl, rfl, rfl⟩
  | sleep => exact Or.inr ⟨.unlock, rfl, trivial, rfl, rfl, rfl⟩
  | lock | finished | begin | look k n | write k n =>
      rw [hat] at hstay
      exact Or.inr ⟨_, hstay⟩

/-- **A step inside.**  The thread gives up the lock, or goes on inside. -/
theorem run_cases (b : Body) (hin : (s.site t).isInside) :
    s.site t = .unlock ∧ s.runStep t b = s.unlocked t ∨ ∃ x, GoesOn s (s.runStep t b) t x := by
  cases b with
  | reader v => exact reader_cases v hin
  | writer book => exact writer_cases book hin

/-! ### The lock -/

/-- How a call holds the lock while it is inside. -/
def Body.hold : Body → Hold
  | .reader _ => .shared
  | .writer _ => .exclusive

/-- How it holds the lock at a place. -/
def Body.holdAt (b : Body) : Site → Hold
  | .lock | .finished => .outside
  | .header | .begin | .look _ _ | .write _ _ | .emplaceBack | .sleep | .unlock => b.hold

theorem Body.holdAt_of_inside (b : Body) (hin : x.isInside) : b.holdAt x = b.hold := by
  cases x <;> first | rfl | exact hin.elim

/-- The lock is held by those inside. -/
structure Held (call : ι → Call) (s : ReadersWriters ι) : Prop where
  mutex : (RwLock.machine ι).Reachable s.shresMutex
  hold : ∀ t, s.shresMutex t = (call t).body.holdAt (s.site t)

theorem Held.lock (h : Held call s) (ha : s.enabled call (.lock t)) :
    Held call (s.lockStep t (call t).body) := by
  have hmutex : (s.lockStep t (call t).body).shresMutex =
      RwLock.step s.shresMutex ((call t).body.lock t) := by
    unfold lockStep Body.lock
    cases (call t).body <;> rfl
  have hsite : (s.lockStep t (call t).body).site = (s.goto t .header).site := by
    unfold lockStep
    cases (call t).body <;> rfl
  refine ⟨?_, fun u => ?_⟩
  · rw [hmutex]
    exact h.mutex.next ha.2
  · have hstep : RwLock.step s.shresMutex ((call t).body.lock t) =
        Function.update s.shresMutex t (call t).body.hold := by
      unfold Body.lock Body.hold
      cases (call t).body <;> rfl
    rw [hmutex, hsite, hstep]
    by_cases hut : u = t
    · rw [hut, Function.update_self, goto_site]
      rfl
    · rw [Function.update_of_ne hut, goto_site_of_ne hut]
      exact h.hold u

theorem Held.run (h : Held call s) (ha : s.enabled call (.run t)) :
    Held call (s.runStep t (call t).body) := by
  have hin : (s.site t).isInside := inside_iff.mpr ha
  have hhold : s.shresMutex t = (call t).body.hold := by
    rw [h.hold t, Body.holdAt_of_inside _ hin]
  rcases run_cases (call t).body hin with ⟨-, hstep⟩ | ⟨x, hgo⟩
  · rw [hstep]
    refine ⟨h.mutex.next (a := .unlock t) ?_, fun u => ?_⟩
    · show s.shresMutex t ≠ .outside
      rw [hhold]
      unfold Body.hold
      cases (call t).body <;> exact Hold.noConfusion
    · show Function.update s.shresMutex t .outside u = _
      by_cases hut : u = t
      · rw [hut, Function.update_self]
        exact (congrArg (call t).body.holdAt (goto_site s t .finished)).symm
      · rw [Function.update_of_ne hut, h.hold u]
        exact (congrArg (call u).body.holdAt (goto_site_of_ne hut s .finished)).symm
  · refine ⟨hgo.mutex ▸ h.mutex, fun u => ?_⟩
    rw [hgo.mutex, hgo.site]
    by_cases hut : u = t
    · rw [hut, goto_site, hhold, Body.holdAt_of_inside _ hgo.inside]
    · rw [goto_site_of_ne hut]
      exact h.hold u

theorem held (h : (machine call).Reachable s) : Held call s := by
  refine h.invariant (P := Held call) ⟨Machine.Reachable.init, fun _ => rfl⟩ ?_
  intro s a _ hs ha
  cases a with
  | lock t => exact hs.lock ha
  | run t => exact hs.run ha

/-- A writer inside is alone there. -/
theorem Held.alone (h : Held call s) (ht : (call t).body = .writer book)
    (hin : (s.site t).isInside) (hu : (s.site u).isInside) : u = t := by
  refine RwLock.reachable_excludes h.mutex t u ?_ ?_
  · rw [h.hold t, Body.holdAt_of_inside _ hin, ht]
    rfl
  · rw [h.hold u, Body.holdAt_of_inside _ hu]
    unfold Body.hold
    cases (call u).body <;> exact Hold.noConfusion

/-- Nobody is inside when a writer takes the lock. -/
theorem Held.empty (h : Held call s) (ht : (call t).body = .writer book)
    (ha : s.enabled call (.lock t)) (u : ι) : ¬ (s.site u).isInside := by
  intro hin
  have hfree := ha.2
  rw [ht] at hfree
  have hout : s.shresMutex u = .outside := hfree u
  rw [h.hold u, Body.holdAt_of_inside _ hin] at hout
  unfold Body.hold at hout
  cases hb : (call u).body <;> rw [hb] at hout <;> exact Hold.noConfusion hout

end LinuxSystems.ReadersWriters
