/-
Concurrent programs as machines.

A program with several threads is given here as one initial state, a guard that
says which atomic action may be taken in which state, and the state each action
leads to.  Whatever the scheduler decides is in the action: which thread moves,
which waiter a notification reaches, whether a system call fails.  A run is then
a list of actions each of which is enabled where it is taken, and a property of
every interleaving is a property of every such list.

Three rules are needed of runs, and every proof about a program goes through one
of them.

  * `Reachable.invariant`: what holds initially and survives a step holds of every
    reachable state.
  * `run_invariant`: the same for a relation between a state and the whole run
    that led to it, which is what a statement about histories needs.
  * `restrict`: the machine whose steps also meet a condition.  Its runs are the
    runs of the program in which every step meets it, so a conditional statement
    about runs is an unconditional one about the restricted machine.
-/
import Mathlib.Data.List.Induction

namespace LinuxSystems

/-! ### Machines -/

/-- A program: where it starts, which actions are enabled, and where they lead. -/
structure Machine (S A : Type*) where
  init : S
  enabled : S → A → Prop
  next : S → A → S

namespace Machine

variable {S A : Type*}

/-- The state a list of actions leads to. -/
def after (m : Machine S A) (s : S) (tr : List A) : S := tr.foldl m.next s

/-- Every action of the list is enabled where it is taken. -/
def Legal (m : Machine S A) : S → List A → Prop
  | _, [] => True
  | s, a :: tr => m.enabled s a ∧ m.Legal (m.next s a) tr

/-- Some run from the initial state ends in `s`. -/
def Reachable (m : Machine S A) (s : S) : Prop :=
  ∃ tr, m.Legal m.init tr ∧ m.after m.init tr = s

/-- No action is enabled. -/
def Stuck (m : Machine S A) (s : S) : Prop := ∀ a, ¬ m.enabled s a

instance decidableLegal (m : Machine S A) [∀ s a, Decidable (m.enabled s a)] :
    ∀ (s : S) (tr : List A), Decidable (m.Legal s tr)
  | _, [] => isTrue trivial
  | s, a :: tr =>
      have := decidableLegal m (m.next s a) tr
      inferInstanceAs (Decidable (m.enabled s a ∧ m.Legal (m.next s a) tr))

variable {m : Machine S A}

/-! ### Runs, one action at a time -/

@[simp] theorem after_nil (s : S) : m.after s [] = s := rfl

@[simp] theorem after_cons (s : S) (a : A) (tr : List A) :
    m.after s (a :: tr) = m.after (m.next s a) tr := rfl

theorem after_append (s : S) (tr tr' : List A) :
    m.after s (tr ++ tr') = m.after (m.after s tr) tr' := by
  simp [after]

@[simp] theorem legal_nil (s : S) : m.Legal s [] := trivial

@[simp] theorem legal_cons {s : S} {a : A} {tr : List A} :
    m.Legal s (a :: tr) ↔ m.enabled s a ∧ m.Legal (m.next s a) tr := Iff.rfl

theorem legal_append {tr tr' : List A} :
    ∀ {s : S}, m.Legal s (tr ++ tr') ↔ m.Legal s tr ∧ m.Legal (m.after s tr) tr' := by
  induction tr with
  | nil => intro s; simp
  | cons a tr ih => intro s; simp [ih, and_assoc]

/-- A run is a run with one more action at its end, or empty. -/
theorem legal_snoc {s : S} {tr : List A} {a : A} :
    m.Legal s (tr ++ [a]) ↔ m.Legal s tr ∧ m.enabled (m.after s tr) a := by
  simp [legal_append]

/-- A beginning of a run is a run. -/
theorem legal_of_prefix {s : S} {pre tr : List A} (hpre : pre <+: tr) (h : m.Legal s tr) :
    m.Legal s pre := by
  obtain ⟨rest, rfl⟩ := hpre
  exact (legal_append.mp h).1

theorem after_snoc (s : S) (tr : List A) (a : A) :
    m.after s (tr ++ [a]) = m.next (m.after s tr) a := by
  simp [after_append]

theorem Reachable.init : m.Reachable m.init := ⟨[], trivial, rfl⟩

theorem Reachable.next {s : S} (h : m.Reachable s) {a : A} (ha : m.enabled s a) :
    m.Reachable (m.next s a) := by
  obtain ⟨tr, hl, rfl⟩ := h
  exact ⟨tr ++ [a], legal_snoc.mpr ⟨hl, ha⟩, after_snoc _ _ _⟩

theorem Reachable.after {s : S} (h : m.Reachable s) {tr : List A} (hl : m.Legal s tr) :
    m.Reachable (m.after s tr) := by
  induction tr generalizing s with
  | nil => exact h
  | cons a tr ih => exact ih (h.next hl.1) hl.2

theorem reachable_after {tr : List A} (hl : m.Legal m.init tr) :
    m.Reachable (m.after m.init tr) := ⟨tr, hl, rfl⟩

/-- What a run shows through `f`, when it is one action longer. -/
theorem filterMap_snoc {B : Type*} (f : A → Option B) (tr : List A) (a : A) :
    (tr ++ [a]).filterMap f = tr.filterMap f ++ (f a).toList := by
  rw [List.filterMap_append]
  cases h : f a <;> simp [h]

/-! ### Invariants -/

/--
**A relation between runs and states.**  What holds of the empty run and survives
one more action holds of every run and the state it leads to.
-/
theorem run_invariant {P : List A → S → Prop} (init : P [] m.init)
    (step : ∀ tr a, m.Legal m.init tr → P tr (m.after m.init tr) →
      m.enabled (m.after m.init tr) a → P (tr ++ [a]) (m.next (m.after m.init tr) a))
    {tr : List A} (hl : m.Legal m.init tr) : P tr (m.after m.init tr) := by
  induction tr using List.reverseRecOn with
  | nil => exact init
  | append_singleton tr a ih =>
      obtain ⟨hl', ha⟩ := legal_snoc.mp hl
      rw [after_snoc]
      exact step tr a hl' (ih hl') ha

/-- **An invariant.**  The step may use that the state it leaves is reachable. -/
theorem Reachable.invariant {P : S → Prop} (init : P m.init)
    (step : ∀ s a, m.Reachable s → P s → m.enabled s a → P (m.next s a))
    {s : S} (h : m.Reachable s) : P s := by
  obtain ⟨tr, hl, rfl⟩ := h
  exact run_invariant (P := fun _ s => P s) init
    (fun tr a hl' hP ha => step _ a (reachable_after hl') hP ha) hl

/-- An invariant from a state on. -/
theorem Reachable.invariant_from {P : S → Prop} {s : S} (hs : m.Reachable s) (h : P s)
    (step : ∀ s a, m.Reachable s → P s → m.enabled s a → P (m.next s a)) {tr : List A}
    (hl : m.Legal s tr) : P (m.after s tr) := by
  induction tr generalizing s with
  | nil => exact h
  | cons a tr ih => exact ih (hs.next hl.1) (step s a hs h hl.1) hl.2

/-! ### Runs whose steps meet a condition -/

/-- The same program, allowed a step only where the condition `g` holds of it. -/
def restrict (m : Machine S A) (g : S → A → Prop) : Machine S A where
  init := m.init
  enabled s a := m.enabled s a ∧ g s a
  next := m.next

variable {g : S → A → Prop}

instance [∀ s a, Decidable (m.enabled s a)] [∀ s a, Decidable (g s a)] (s : S) (a : A) :
    Decidable ((m.restrict g).enabled s a) :=
  inferInstanceAs (Decidable (m.enabled s a ∧ g s a))

@[simp] theorem restrict_init : (m.restrict g).init = m.init := rfl

@[simp] theorem restrict_next : (m.restrict g).next = m.next := rfl

@[simp] theorem restrict_after (s : S) (tr : List A) :
    (m.restrict g).after s tr = m.after s tr := rfl

theorem restrict_enabled {s : S} {a : A} :
    (m.restrict g).enabled s a ↔ m.enabled s a ∧ g s a := Iff.rfl

theorem restrict_legal {tr : List A} :
    ∀ {s : S}, (m.restrict g).Legal s tr → m.Legal s tr := by
  induction tr with
  | nil => intro s _; trivial
  | cons a tr ih => intro s h; exact ⟨h.1.1, ih h.2⟩

/-- A run whose steps meet the condition is a run. -/
theorem Reachable.of_restrict {s : S} (h : (m.restrict g).Reachable s) : m.Reachable s := by
  obtain ⟨tr, hl, rfl⟩ := h
  exact ⟨tr, restrict_legal hl, rfl⟩

/-- What steps that meet the condition keep, from a state on. -/
theorem Reachable.keeps {P : S → Prop} {s : S} (hs : m.Reachable s) (h : P s)
    (step : ∀ s a, m.Reachable s → P s → m.enabled s a → g s a → P (m.next s a)) {tr : List A}
    (hl : (m.restrict g).Legal s tr) : P (m.after s tr) := by
  induction tr generalizing s with
  | nil => exact h
  | cons a tr ih => exact ih (hs.next hl.1.1) (step s a hs h hl.1.1 hl.1.2) hl.2

/-- Where the condition is one on the action alone, every action meets it. -/
theorem restrict_forall {p : A → Prop} {tr : List A} :
    ∀ {s : S}, (m.restrict fun _ => p).Legal s tr → ∀ a ∈ tr, p a := by
  induction tr with
  | nil => exact fun _ a ha => absurd ha List.not_mem_nil
  | cons b tr ih =>
      intro s h a ha
      rcases List.mem_cons.mp ha with rfl | ha
      · exact h.1.2
      · exact ih h.2 a ha

/-- Actions that meet the condition wherever they are taken. -/
theorem restrict_legal_of_forall {p : A → Prop} (hp : ∀ s a, p a → g s a) {tr : List A} :
    ∀ {s : S}, m.Legal s tr → (∀ a ∈ tr, p a) → (m.restrict g).Legal s tr := by
  induction tr with
  | nil => intro s _ _; trivial
  | cons a tr ih =>
      intro s hl hall
      have ha := hp s a (hall a List.mem_cons_self)
      exact ⟨⟨hl.1, ha⟩, ih hl.2 fun b hb => hall b (List.mem_cons_of_mem a hb)⟩

theorem restrict_legal_mono {g' : S → A → Prop} (hg : ∀ s a, g s a → g' s a) {tr : List A} :
    ∀ {s : S}, (m.restrict g).Legal s tr → (m.restrict g').Legal s tr := by
  induction tr with
  | nil => intro s _; trivial
  | cons a tr ih => intro s h; exact ⟨⟨h.1.1, hg s a h.1.2⟩, ih h.2⟩

/-- A weaker condition allows more runs. -/
theorem Reachable.restrict_mono {g' : S → A → Prop} (hg : ∀ s a, g s a → g' s a) {s : S}
    (h : (m.restrict g).Reachable s) : (m.restrict g').Reachable s := by
  obtain ⟨tr, hl, rfl⟩ := h
  exact ⟨tr, restrict_legal_mono hg hl, rfl⟩

/-- Where every step that can be taken meets the condition, nothing is lost by asking it. -/
theorem Reachable.to_restrict (hg : ∀ s a, m.Reachable s → m.enabled s a → g s a) {s : S}
    (h : m.Reachable s) : (m.restrict g).Reachable s := by
  have hinit : (m.restrict g).Reachable m.init := Reachable.init
  refine h.invariant (P := (m.restrict g).Reachable) hinit ?_
  intro s a hs hr ha
  have hen : (m.restrict g).enabled s a := ⟨ha, hg s a hs ha⟩
  exact hr.next hen

/--
**What decides a property of runs.**  Where a step keeps `P` exactly when it meets the
condition, `P` holds at the end of a run exactly when every step of it met the condition.
-/
theorem restrict_legal_iff {P : S → Prop} (init : P m.init)
    (step : ∀ s a, m.Reachable s → m.enabled s a → (P (m.next s a) ↔ P s ∧ g s a))
    {tr : List A} (hl : m.Legal m.init tr) :
    (m.restrict g).Legal m.init tr ↔ P (m.after m.init tr) := by
  induction tr using List.reverseRecOn with
  | nil => exact ⟨fun _ => init, fun _ => trivial⟩
  | append_singleton tr a ih =>
      obtain ⟨hl', ha⟩ := legal_snoc.mp hl
      rw [legal_snoc, restrict_after, restrict_enabled, after_snoc,
        step _ a (reachable_after hl') ha, ih hl']
      exact ⟨fun h => ⟨h.1, h.2.2⟩, fun h => ⟨h.1, ha, h.2⟩⟩

/--
**What decides a property of every state of a run.**  `Q` is what the steps that meet the
condition keep.  Where it implies `P`, and only such a step leads from it to a state with `P`,
`P` holds all along a run exactly when every step of it met the condition.
-/
theorem always_iff_of {P Q : S → Prop} (init : Q m.init) (holds : ∀ s, Q s → P s)
    (keep : ∀ s a, Q s → m.enabled s a → g s a → Q (m.next s a))
    (only : ∀ s a, Q s → m.enabled s a → P (m.next s a) → g s a)
    {tr : List A} (hl : m.Legal m.init tr) :
    (∀ pre, pre <+: tr → P (m.after m.init pre)) ↔ (m.restrict g).Legal m.init tr := by
  have hkept : ∀ {tr : List A}, (m.restrict g).Legal m.init tr → Q (m.after m.init tr) := by
    intro tr hg
    exact Reachable.init.keeps init (fun s a _ hQ ha hg => keep s a hQ ha hg) hg
  constructor
  · intro hall
    induction tr using List.reverseRecOn with
    | nil => trivial
    | append_singleton tr a ih =>
        obtain ⟨hl', ha⟩ := legal_snoc.mp hl
        have hg := ih hl' fun pre hpre => hall pre (hpre.trans (List.prefix_append tr [a]))
        have hnext := hall (tr ++ [a]) List.prefix_rfl
        rw [after_snoc] at hnext
        exact legal_snoc.mpr ⟨hg, ha, only _ a (hkept hg) ha hnext⟩
  · intro hg pre hpre
    have hpart := legal_of_prefix hpre hg
    exact holds _ (hkept hpart)

/-- The same where `P` itself is what is kept. -/
theorem always_iff {P : S → Prop} (init : P m.init)
    (step : ∀ s a, m.Reachable s → m.enabled s a → P s → (P (m.next s a) ↔ g s a))
    {tr : List A} (hl : m.Legal m.init tr) :
    (∀ pre, pre <+: tr → P (m.after m.init pre)) ↔ (m.restrict g).Legal m.init tr := by
  refine always_iff_of (Q := fun s => m.Reachable s ∧ P s) ⟨Reachable.init, init⟩ ?_ ?_ ?_ hl
  · exact fun s hs => hs.2
  · exact fun s a hs ha hg => ⟨hs.1.next ha, (step s a hs.1 ha hs.2).mpr hg⟩
  · exact fun s a hs ha hP => (step s a hs.1 ha hs.2).mp hP

end Machine

end LinuxSystems
