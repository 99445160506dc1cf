/-
Who touches the shared vector at the same time as whom.

A thread that modifies the vector is inside the lock, and so is a thread that looks
at it, with the one exception of `shared_res.empty()`.  So two accesses can only
clash there, and whether they do is decided at the step with which the other thread
starts to modify: a producer that gets through `lock()`, or a consumer that comes to
`clear()`.
-/
import LinuxSystems.TicketLock.Clients
import LinuxSystems.Machine.Names

namespace LinuxSystems.TicketLock.Clients

variable {ι : Type*} {w : Nat}

/-- While one thread is at a step that modifies the vector, no other is at one that
accesses it. -/
def Exclusive (s : Clients ι w) : Prop :=
  ∀ t u, t ≠ u → (s.site t).modifies → ¬ (s.site u).accesses

/-- A producer gets through `lock()`, and a consumer to `clear()`, only while no other
thread stands at its `shared_res.empty()`. -/
def ModifiesAlone (p : Program ι) (s : Clients ι w) : Step ι → Prop
  | .lock (.leave t) => p.role t = .producer → ∀ u, u ≠ t → s.site u ≠ .empty
  | .finish t => p.role t = .consumer → ∀ u, u ≠ t → s.site u ≠ .empty
  | _ => True

instance [DecidableEq ι] [Fintype ι] (p : Program ι) (s : Clients ι w) :
    ∀ a, Decidable (ModifiesAlone p s a)
  | .lock (.leave t) =>
      inferInstanceAs (Decidable (p.role t = .producer → ∀ u, u ≠ t → s.site u ≠ .empty))
  | .finish t =>
      inferInstanceAs (Decidable (p.role t = .consumer → ∀ u, u ≠ t → s.site u ≠ .empty))
  | .loop _ | .lock (.take _) | .lock (.spin _) | .lock (.unlock _) | .emplace1 _ | .emplace2 _
  | .begin _ | .visit _ | .clear _ | .sleep _ | .empty _ => isTrue trivial

variable [DecidableEq ι] {p : Program ι} {s : Clients ι w} {a : Step ι}

/-- A thread comes to `empty()` from `unlock()`. -/
theorem critical_of_empty (ha : s.enabled a) (h : (step p s a).site a.thread = .empty) :
    (s.site a.thread).critical := by
  cases a with
  | lock a =>
      obtain ⟨hsite, -⟩ := ha
      cases a with
      | take t | spin t =>
          have hsame : s.site t = .empty := h
          rw [show s.site t = .locking from hsite] at hsame
          exact absurd hsame (by simp)
      | leave t =>
          have hsite' : (p.role t).afterLock = .empty := by
            simpa [step, goto, Step.thread, Action.thread] using h
          cases hr : p.role t <;> simp [hr, Role.afterLock] at hsite'
      | unlock t =>
          show (s.site t).critical
          rw [show s.site t = .unlocking from hsite]
          trivial
  | visit t =>
      obtain ⟨pos, stop, hsite, -⟩ := Site.looks_iff.mp ha
      show (s.site t).critical
      rw [hsite]
      trivial
  | finish t =>
      obtain ⟨pos, hsite⟩ := Site.ends_iff.mp ha
      show (s.site t).critical
      rw [hsite]
      trivial
  | emplace1 t | emplace2 t | begin t | clear t =>
      show (s.site t).critical
      rw [show s.site t = _ from ha]
      trivial
  | loop t =>
      have h' : (if s.i t < p.limit t then Site.locking else .done) = .empty := by
        simpa [step, goto, Step.thread] using h
      split at h' <;> simp at h'
  | sleep t | empty t => simp [step, goto, Step.thread] at h

/-- A thread that comes to modify the vector without having done so before got there
alone, if the step met the condition. -/
theorem modifies_alone (ha : s.enabled a) (hcond : ModifiesAlone p s a)
    (h : ((step p s a).site a.thread).modifies) :
    (s.site a.thread).modifies ∨ ∀ u, u ≠ a.thread → s.site u ≠ .empty := by
  cases a with
  | lock a =>
      obtain ⟨hsite, -⟩ := ha
      cases a with
      | take t | spin t => exact Or.inl h
      | leave t =>
          refine Or.inr (hcond ?_)
          cases hr : p.role t with
          | producer => rfl
          | consumer =>
              simp [step, goto, Step.thread, Action.thread, hr, Role.afterLock,
                Site.modifies] at h
      | unlock t =>
          cases hr : p.role t <;>
            simp [step, goto, Step.thread, Action.thread, hr, Role.afterUnlock,
              Site.modifies] at h
  | visit t =>
      obtain ⟨pos, stop, hsite, -⟩ := Site.looks_iff.mp ha
      cases hr : p.role t <;>
        simp [step, hsite, hr, goto, Step.thread, Site.modifies] at h
  | finish t =>
      refine Or.inr (hcond ?_)
      cases hr : p.role t with
      | producer =>
          simp [step, goto, Step.thread, hr, Role.afterLoop, Site.modifies] at h
      | consumer => rfl
  | emplace1 t | emplace2 t | clear t =>
      refine Or.inl ?_
      show (s.site t).modifies
      rw [show s.site t = _ from ha]
      trivial
  | loop t =>
      have h' : (if s.i t < p.limit t then Site.locking else .done).modifies := by
        simpa [step, goto, Step.thread] using h
      split at h' <;> exact h'.elim
  | begin t | sleep t | empty t =>
      simp [step, goto, Step.thread, Site.modifies] at h

section Runs

variable [Fintype ι]

/-- **One step.**  From a state whose accesses are apart, a step keeps them apart exactly
when it meets the condition. -/
theorem exclusive_step (hn : Fintype.card ι ≤ 2 ^ w) (hs : (machine p w).Reachable s)
    (he : Exclusive s) (ha : s.enabled a) :
    Exclusive (step p s a) ↔ ModifiesAlone p s a := by
  constructor
  · intro he'
    cases a with
    | lock a =>
        cases a with
        | leave t =>
            intro hr u hu hempty
            refine he' t u hu.symm ?_ ?_
            · simp [step, goto, hr, Role.afterLock, Site.modifies]
            · rw [step_site_of_ne (show u ≠ (Step.lock (.leave t)).thread from hu), hempty]
              trivial
        | take t | spin t | unlock t => trivial
    | finish t =>
        intro hr u hu hempty
        refine he' t u hu.symm ?_ ?_
        · simp [step, goto, hr, Role.afterLoop, Site.modifies]
        · rw [step_site_of_ne (show u ≠ (Step.finish t).thread from hu), hempty]
          trivial
    | _ => trivial
  · intro hcond t u htu hmod hacc
    have hs' : (machine p w).Reachable (step p s a) := hs.next ha
    have hcrit := Site.critical_of_modifies hmod
    rcases Site.critical_or_empty hacc with hu | hempty
    · exact htu (critical_unique hn hs' hcrit hu)
    · -- `u` stands at `empty()`, so it was `t` or `u` that moved
      by_cases hau : u = a.thread
      · subst hau
        rw [step_site_of_ne htu] at hmod
        exact htu (critical_unique hn hs (Site.critical_of_modifies hmod)
          (critical_of_empty ha hempty))
      · rw [step_site_of_ne hau] at hempty
        have hacc' : (s.site u).accesses := by rw [hempty]; trivial
        by_cases hat : t = a.thread
        · subst hat
          rcases modifies_alone ha hcond hmod with hold | hfree
          · exact he a.thread u htu hold hacc'
          · exact hfree u htu.symm hempty
        · rw [step_site_of_ne hat] at hmod
          exact he t u htu hmod hacc'

/--
**The vector is accessed exclusively, except for `empty()`.**  A run keeps a thread that
modifies the vector apart from every other access, in each of its states, exactly
when each of its steps meets `ModifiesAlone`.
-/
theorem exclusive_iff (hn : Fintype.card ι ≤ 2 ^ w) (tr : List (Step ι))
    (hl : (machine p w).Legal (machine p w).init tr) :
    (∀ tr', tr' <+: tr → Exclusive ((machine p w).after (machine p w).init tr')) ↔
      ((machine p w).restrict (ModifiesAlone p)).Legal (machine p w).init tr :=
  Machine.always_iff (fun _ _ _ hmod _ => hmod.elim)
    (fun _ _ hs ha he => exclusive_step hn hs he ha) hl

end Runs

/--
**Exclusive access by the clients of the ticket lock.**  For every number of threads up to
`2 ^ w`, all roles and loop counts and every run: the accesses to the vector are
exclusive in every state of the run if and only if no producer got through `lock()`
and no consumer came to `clear()` while another thread stood at its
`shared_res.empty()`.
-/
theorem clients_exclusive_iff (w n : Nat) (hn : n ≤ 2 ^ w) (p : Program (Fin n))
    (tr : List (Step (Fin n))) (hl : (machine p w).Legal (machine p w).init tr) :
    (∀ tr', tr' <+: tr → Exclusive ((machine p w).after (machine p w).init tr')) ↔
      ((machine p w).restrict (ModifiesAlone p)).Legal (machine p w).init tr :=
  exclusive_iff (by rwa [Fintype.card_fin]) tr hl

attribute [local instance] neZeroTwo

/-- `main`: thread 0 produces and thread 1 consumes, 100 times each. -/
def mainProgram : Program (Fin 2) where
  role t := if t = 0 then .producer else .consumer
  limit _ := 100

/-- The consumer goes once round its loop up to `empty()`, and the producer comes to its
first `emplace_back`. -/
def race : List (Step (Fin 2)) :=
  [.loop 1, .lock (.take 1), .lock (.leave 1), .begin 1, .finish 1, .clear 1, .lock (.unlock 1),
    .loop 0, .lock (.take 0), .lock (.leave 0)]

/-- The program as it stands has a run in which the two accesses meet. -/
theorem mainProgram_race :
    ¬ ∀ s, (machine mainProgram 64).Reachable s → Exclusive s := by
  intro hall
  have hs : (machine mainProgram 64).Reachable ((machine mainProgram 64).after _ race) :=
    Machine.reachable_after (by decide)
  exact hall _ hs 0 1 (by decide) trivial trivial

/-- Up to the producer's last step the same run meets the condition. -/
theorem clients_exclusive_before_race :
    Exclusive ((machine mainProgram 64).after (machine mainProgram 64).init race.dropLast) :=
  (clients_exclusive_iff 64 2 (by decide) mainProgram race.dropLast (by decide)).mpr
    (by decide) race.dropLast (List.prefix_refl _)

end LinuxSystems.TicketLock.Clients
