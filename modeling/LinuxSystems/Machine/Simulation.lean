/-
When one machine does what another one does.

A simulation relates the states of a concrete machine to those of an abstract one
and sends each concrete action to the abstract action it performs, or to none when
it is a step the abstract machine does not see: a turn of a spin loop, a step of a
thread outside the component.  The relation is where a proof keeps its invariant,
so a single induction carries both the invariant and the correspondence.

What comes out is about whole runs.  Erasing the unseen actions of a concrete run
leaves a run of the abstract machine, so the order of events proved of abstract
runs is an order of events of concrete ones.
-/
import LinuxSystems.Machine.Run

namespace LinuxSystems.Machine

variable {S T A B : Type*}

/-- What is asked of the actions of a run, where it is the same as to ask something of their
labels. -/
theorem forall_label_iff {m : Machine S A} {label : A → Option B} {p : A → Prop} {q : B → Prop}
    (hp : ∀ {s a}, m.enabled s a → (p a ↔ ∀ b ∈ label a, q b)) {tr : List A}
    (hl : m.Legal m.init tr) : (∀ a ∈ tr, p a) ↔ ∀ b ∈ tr.filterMap label, q b := by
  refine run_invariant (P := fun tr _ => (∀ a ∈ tr, p a) ↔ ∀ b ∈ tr.filterMap label, q b)
    (by simp) ?_ hl
  intro tr a _ htr ha
  rw [filterMap_snoc, List.forall_mem_append, List.forall_mem_append, htr,
    List.forall_mem_singleton, hp ha]
  simp only [Option.mem_toList, Option.mem_def]

/-- Every step of `m` is a step of `n`, or one that `n` does not see. -/
structure Simulates (m : Machine S A) (n : Machine T B) (label : A → Option B)
    (rel : S → T → Prop) : Prop where
  init : rel m.init n.init
  /-- An action with a label is that action of `n`. -/
  step : ∀ {s t a b}, label a = some b → rel s t → m.enabled s a →
    n.enabled t b ∧ rel (m.next s a) (n.next t b)
  /-- An action without one leaves the state of `n` as it is. -/
  stutter : ∀ {s t a}, label a = none → rel s t → m.enabled s a → rel (m.next s a) t

namespace Simulates

variable {m : Machine S A} {n : Machine T B} {label : A → Option B} {rel : S → T → Prop}

/-- **Runs map to runs.**  The labels of a run of `m` are a run of `n`, and the two
end in related states. -/
theorem run (h : Simulates m n label rel) {tr : List A} (hl : m.Legal m.init tr) :
    n.Legal n.init (tr.filterMap label) ∧
      rel (m.after m.init tr) (n.after n.init (tr.filterMap label)) := by
  refine run_invariant (P := fun tr s => n.Legal n.init (tr.filterMap label) ∧
    rel s (n.after n.init (tr.filterMap label))) ⟨trivial, h.init⟩ ?_ hl
  intro tr a _ ⟨hn, hrel⟩ ha
  rw [filterMap_snoc]
  cases hb : label a with
  | none =>
      rw [Option.toList_none, List.append_nil]
      exact ⟨hn, h.stutter hb hrel ha⟩
  | some b =>
      obtain ⟨hen, hrel'⟩ := h.step hb hrel ha
      rw [Option.toList_some, after_snoc]
      exact ⟨legal_snoc.mpr ⟨hn, hen⟩, hrel'⟩

/-- Every reachable state of `m` stands for a reachable state of `n`. -/
theorem reachable (h : Simulates m n label rel) {s : S} (hs : m.Reachable s) :
    ∃ t, n.Reachable t ∧ rel s t := by
  obtain ⟨tr, hl, rfl⟩ := hs
  obtain ⟨hn, hrel⟩ := h.run hl
  exact ⟨_, reachable_after hn, hrel⟩

/-- A component of a machine goes through reachable states of its own. -/
theorem component {proj : S → T} (h : Simulates m n label fun s t => proj s = t) {s : S}
    (hs : m.Reachable s) : n.Reachable (proj s) := by
  obtain ⟨t, ht, rfl⟩ := h.reachable hs
  exact ht

end Simulates

/-- Every step that `n` can take, `m` can take as some steps of its own. -/
structure Realizes (m : Machine S A) (n : Machine T B) (steps : B → List A)
    (rel : S → T → Prop) : Prop where
  init : rel m.init n.init
  step : ∀ {s t b}, rel s t → n.enabled t b →
    m.Legal s (steps b) ∧ rel (m.after s (steps b)) (n.next t b)

namespace Realizes

variable {m : Machine S A} {n : Machine T B} {steps : B → List A} {rel : S → T → Prop}

/-- **Runs come from runs.**  Every run of `n` is what some run of `m` does. -/
theorem run (h : Realizes m n steps rel) {tr : List B} (hl : n.Legal n.init tr) :
    m.Legal m.init (tr.flatMap steps) ∧
      rel (m.after m.init (tr.flatMap steps)) (n.after n.init tr) := by
  refine run_invariant (P := fun tr t => m.Legal m.init (tr.flatMap steps) ∧
    rel (m.after m.init (tr.flatMap steps)) t) ⟨trivial, h.init⟩ ?_ hl
  intro tr b _ ⟨hm, hrel⟩ hb
  obtain ⟨hsteps, hrel'⟩ := h.step hrel hb
  rw [List.flatMap_append, List.flatMap_singleton, after_append]
  exact ⟨legal_append.mpr ⟨hm, hsteps⟩, hrel'⟩

/-- Every reachable state of `n` is realized by a reachable state of `m`. -/
theorem reachable (h : Realizes m n steps rel) {t : T} (ht : n.Reachable t) :
    ∃ s, m.Reachable s ∧ rel s t := by
  obtain ⟨tr, hl, rfl⟩ := ht
  obtain ⟨hm, hrel⟩ := h.run hl
  exact ⟨_, reachable_after hm, hrel⟩

end Realizes

/--
Every step of `m` is what some steps of `n` do together: `proj` is what `n` sees of the
states, and `steps` the actions that an action of `m` stands for.
-/
structure Expands (m : Machine S A) (n : Machine T B) (steps : A → List B) (proj : S → T) :
    Prop where
  init : proj m.init = n.init
  legal : ∀ {s a}, m.enabled s a → n.Legal (proj s) (steps a)
  after : ∀ {s a}, m.enabled s a → n.after (proj s) (steps a) = proj (m.next s a)

namespace Expands

variable {m : Machine S A} {n : Machine T B} {steps : A → List B} {proj : S → T}

/-- What `m` does, `n` can do. -/
theorem realizes (h : Expands m n steps proj) : Realizes n m steps fun t s => t = proj s := by
  refine ⟨h.init.symm, ?_⟩
  rintro _ s a rfl ha
  exact ⟨h.legal ha, h.after ha⟩

/-- The actions that a run of `m` stands for are a run of `n`. -/
theorem run (h : Expands m n steps proj) {tr : List A} (hl : m.Legal m.init tr) :
    n.Legal n.init (tr.flatMap steps) ∧
      n.after n.init (tr.flatMap steps) = proj (m.after m.init tr) :=
  h.realizes.run hl

theorem reachable (h : Expands m n steps proj) {s : S} (hs : m.Reachable s) :
    n.Reachable (proj s) := by
  obtain ⟨tr, hl, rfl⟩ := hs
  obtain ⟨hn, hproj⟩ := h.run hl
  exact ⟨_, hn, hproj⟩

/-- **Conditions carry over.**  Where an action of `m` meets `g` exactly when the actions it
stands for all meet `g'`, so does a run. -/
theorem restrict_iff (h : Expands m n steps proj) {g : S → A → Prop} {g' : T → B → Prop}
    (hg : ∀ {s a}, m.enabled s a → (g s a ↔ (n.restrict g').Legal (proj s) (steps a)))
    {tr : List A} (hl : m.Legal m.init tr) :
    (m.restrict g).Legal m.init tr ↔ (n.restrict g').Legal n.init (tr.flatMap steps) := by
  induction tr using List.reverseRecOn with
  | nil => exact ⟨fun _ => trivial, fun _ => trivial⟩
  | append_singleton tr a ih =>
      obtain ⟨hl', ha⟩ := legal_snoc.mp hl
      rw [legal_snoc, List.flatMap_append, List.flatMap_singleton, legal_append, ih hl',
        restrict_after, restrict_after, (h.run hl').2, restrict_enabled, ← hg ha]
      exact ⟨fun hleg => ⟨hleg.1, hleg.2.2⟩, fun hleg => ⟨hleg.1, ha, hleg.2⟩⟩

end Expands

end LinuxSystems.Machine
