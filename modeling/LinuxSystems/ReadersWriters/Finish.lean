/-
How the readers and the writers come to their ends.

Every step brings its thread to a later place of its function, or in the loop of a reader to
a later book, of which there are no more than the vector had when the loop began.  And the lock
is free when nobody is inside: then whoever is at the lock can take it.
-/
import LinuxSystems.ReadersWriters.Linearize
import LinuxSystems.Machine.Endless
import LinuxSystems.Machine.Tally
import LinuxSystems.Machine.Names

namespace LinuxSystems.ReadersWriters

variable {ι : Type*} [DecidableEq ι] {call : ι → Call} {s : ReadersWriters ι} {a : Action ι}
  {t u : ι} {v : View} {book : Book}

/-- The places that come in the function. -/
def Body.Reaches : Body → Site → Prop
  | .reader _, .emplaceBack | .reader _, .sleep => False
  | .writer _, .begin | .writer _, .look _ _ | .writer _, .write _ _ => False
  | _, _ => True

/-- How far a place is from the return. -/
def Site.stage : Site → Nat
  | .lock => 6
  | .header => 5
  | .begin => 4
  | .look _ _ => 3
  | .write _ _ => 3
  | .emplaceBack => 3
  | .sleep => 2
  | .unlock => 1
  | .finished => 0

/-- How far it is from the end of the loop. -/
def Site.toVisit : Site → Nat
  | .look k n => 2 * (n - k)
  | .write k n => 2 * (n - (k + 1)) + 1
  | .lock | .header | .begin | .emplaceBack | .sleep | .unlock | .finished => 0

/-- A place that comes after `x`. -/
def Site.Before (y x : Site) : Prop :=
  y.stage < x.stage ∨ y.stage = x.stage ∧ y.toVisit < x.toVisit

theorem reader_before (v : View) (hin : (s.site t).isInside)
    (hreaches : (Body.reader v).Reaches (s.site t)) :
    Site.Before ((s.readerStep t v).site t) (s.site t) ∧
      (Body.reader v).Reaches ((s.readerStep t v).site t) := by
  unfold readerStep
  cases hat : s.site t with
  | header | begin | unlock => simp [goto, Site.Before, Site.stage, Body.Reaches]
  | write k n => simp [goto, Site.Before, Site.stage, Site.toVisit, Body.Reaches]
  | look k n =>
      by_cases hk : k < n
      · have hvisit : 2 * (n - (k + 1)) + 1 < 2 * (n - k) := by omega
        have hvisit' : 2 * (n - (k + 1)) < 2 * (n - k) := by omega
        simp only [hk, if_true]
        cases s.load v n k with
        | none => simp [Site.Before, Site.stage, Site.toVisit, Body.Reaches, hvisit]
        | some book =>
            cases hkeeps : v.keeps book <;>
              simp [hkeeps, Site.Before, Site.stage, Site.toVisit, Body.Reaches, hvisit, hvisit']
      · simp [hk, Site.Before, Site.stage, Body.Reaches]
  | emplaceBack | sleep =>
      rw [hat] at hreaches
      exact absurd hreaches id
  | lock | finished =>
      rw [hat] at hin
      exact absurd hin id

theorem writer_before (book : Book) (hin : (s.site t).isInside)
    (hreaches : (Body.writer book).Reaches (s.site t)) :
    Site.Before ((s.writerStep t book).site t) (s.site t) ∧
      (Body.writer book).Reaches ((s.writerStep t book).site t) := by
  unfold writerStep
  cases hat : s.site t with
  | header | emplaceBack | sleep | unlock =>
      simp [goto, Site.Before, Site.stage, Body.Reaches]
  | begin | look k n | write k n =>
      rw [hat] at hreaches
      exact absurd hreaches id
  | lock | finished =>
      rw [hat] at hin
      exact absurd hin id

/-- **Every step leads further.** -/
theorem step_before (ha : s.enabled call a) (hreaches : ∀ t, (call t).body.Reaches (s.site t)) :
    Site.Before ((s.step call a).site a.actor) (s.site a.actor) ∧
      ∀ t, (call t).body.Reaches ((s.step call a).site t) := by
  have hactor : Site.Before ((s.step call a).site a.actor) (s.site a.actor) ∧
      (call a.actor).body.Reaches ((s.step call a).site a.actor) := by
    cases a with
    | lock t =>
        have hat : s.site t = .lock := ha.1
        show Site.Before ((s.lockStep t (call t).body).site t) (s.site t) ∧
          (call t).body.Reaches ((s.lockStep t (call t).body).site t)
        cases (call t).body <;> simp [lockStep, hat, Site.Before, Site.stage, Body.Reaches]
    | run t =>
        have hin : (s.site t).isInside := inside_iff.mpr ha
        have hold := hreaches t
        show Site.Before ((s.runStep t (call t).body).site t) (s.site t) ∧
          (call t).body.Reaches ((s.runStep t (call t).body).site t)
        cases hb : (call t).body with
        | reader v =>
            rw [hb] at hold
            exact reader_before v hin hold
        | writer book =>
            rw [hb] at hold
            exact writer_before book hin hold
  refine ⟨hactor.1, fun t => ?_⟩
  by_cases ht : t = a.actor
  · rw [ht]
    exact hactor.2
  · rw [step_site ha ht]
    exact hreaches t

theorem reachable_reaches (hr : (machine call).Reachable s) :
    ∀ t, (call t).body.Reaches (s.site t) := by
  refine hr.invariant (P := fun s => ∀ t, (call t).body.Reaches (s.site t)) (fun t => ?_) ?_
  · show (call t).body.Reaches .lock
    cases (call t).body <;> trivial
  · exact fun s a _ hs ha => (step_before ha hs).2

/-! ### That every run comes to an end -/

section Runs

variable [Fintype ι]

/-- The places of all threads together, and where they are in their loops. -/
def ranks (s : ReadersWriters ι) : Nat × Nat × Nat :=
  (tally Site.stage s.site, tally Site.toVisit s.site, 0)

theorem descends : (machine call).Descends (InvImage Machine.Descent ranks) := by
  intro s a hr ha
  obtain ⟨hbefore, -⟩ := step_before ha (reachable_reaches hr)
  have hsite : (s.step call a).site =
      Function.update s.site a.actor ((s.step call a).site a.actor) := by
    funext t
    by_cases ht : t = a.actor
    · rw [ht, Function.update_self]
    · rw [Function.update_of_ne ht, step_site ha ht]
  have hstage := tally_update Site.stage s.site a.actor ((s.step call a).site a.actor)
  have hvisit := tally_update Site.toVisit s.site a.actor ((s.step call a).site a.actor)
  rw [← hsite] at hstage hvisit
  show Machine.Descent (ranks (s.step call a)) (ranks s)
  unfold ranks
  rw [Machine.descent_iff]
  rcases hbefore with hless | ⟨heq, hless⟩
  · exact Or.inl (by omega)
  · exact Or.inr ⟨by omega, Or.inl (by omega)⟩

omit [Fintype ι] in
/-- Somebody has not returned: then somebody can go on. -/
theorem exists_step (hr : (machine call).Reachable s) (hopen : s.site t ≠ .finished) :
    ∃ a, s.enabled call a := by
  by_cases hin : ∃ u, (s.site u).isInside
  · obtain ⟨u, hu⟩ := hin
    exact ⟨.run u, inside_iff.mp hu⟩
  · simp only [not_exists] at hin
    have hsite : ∀ u, s.site u = .lock ∨ s.site u = .finished := by
      intro u
      by_contra hno
      exact hin u (inside_iff.mpr (not_or.mp hno))
    have hlock : s.site t = .lock := (hsite t).resolve_right hopen
    -- nobody holds the lock
    have hfree : ∀ u, s.shresMutex u = .outside := by
      intro u
      rw [(held hr).hold u]
      rcases hsite u with hu | hu <;> rw [hu] <;> rfl
    refine ⟨.lock t, hlock, ?_⟩
    cases hb : (call t).body with
    | reader v => exact ⟨hfree t, fun u hu => by rw [hfree u] at hu; exact Hold.noConfusion hu⟩
    | writer book => exact hfree

/--
**Every call returns.**  There is no endless run.  Where nobody can do anything all calls have
returned and the lock is free, and behind the books of the start the vector has the book of every
writer once, in the order in which they had the lock.
-/
theorem calls_return (call : ι → Call) :
    (∀ run : ℕ → Action ι, ¬ (machine call).Endless run) ∧
    ∀ s, (machine call).Reachable s → (machine call).Stuck s →
      (∀ t, s.site t = .finished ∧ s.shresMutex t = .outside) ∧
      s.sharedData = initialData ++ books call s.writers ∧ s.writers.Nodup ∧
      ∀ t, t ∈ s.writers ↔ ¬ (call t).isReader := by
  refine ⟨fun run => descends.not_endless (InvImage.wf _ Machine.descent_wf), ?_⟩
  intro s hr hstuck
  have hfinished : ∀ t, s.site t = .finished := by
    intro t
    by_contra hopen
    obtain ⟨a, ha⟩ := exists_step hr hopen
    exact hstuck a ha
  have hshelf := shelf hr
  refine ⟨fun t => ⟨hfinished t, ?_⟩, (hshelf.finished hfinished).1, hshelf.nodup,
    (hshelf.finished hfinished).2⟩
  rw [(held hr).hold t, hfinished t]
  rfl

end Runs

attribute [local instance] neZeroTwo

/-- A reader and a writer, one after the other. -/
def twoCalls : Fin 2 → Call
  | 0 => .dropFirstN 2
  | 1 => .addNewBook [68] [72] 1965

def twoCallsRun : List (Action (Fin 2)) :=
  .lock 1 :: List.replicate 4 (.run 1) ++ .lock 0 :: List.replicate 8 (.run 0)

def twoCallsEnd : ReadersWriters (Fin 2) :=
  (machine twoCalls).after (machine twoCalls).init twoCallsRun

theorem calls_return_two :
    twoCallsEnd.sharedData = initialData ++ books twoCalls twoCallsEnd.writers := by
  have hall : ∀ t, twoCallsEnd.site t = .finished := by decide +kernel
  refine ((calls_return twoCalls).2 twoCallsEnd (Machine.reachable_after (by decide +kernel))
    fun a ha => ?_).2.1
  cases a with
  | lock t => exact Site.noConfusion ((hall t).symm.trans ha.1)
  | run t => exact ha.2 (hall t)

end LinuxSystems.ReadersWriters
