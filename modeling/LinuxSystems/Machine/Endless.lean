/-
Endless runs.

An endless run is a sequence of actions all of whose beginnings are runs.  Three rules are
needed of them.  Where some steps lower a measure and no step but an exempt one raises
it, a run with only finitely many exempt steps takes only finitely many of the steps that
lower it.  And a part of the state that no step changes without making it smaller is in
the end not changed any more.
-/
import LinuxSystems.Machine.Run
import Mathlib.Algebra.Order.BigOperators.Group.Finset
import Mathlib.Data.Fintype.Basic
import Mathlib.Order.Monotone.Basic
import Mathlib.Order.WellFounded
import Mathlib.Data.Prod.Lex

namespace LinuxSystems.Machine

variable {S A : Type*}

/-- The first `n` actions. -/
def upTo (run : Nat → A) (n : Nat) : List A := (List.range n).map run

/-- Every beginning of `run` is a run of the machine. -/
def Endless (m : Machine S A) (run : Nat → A) : Prop := ∀ n, m.Legal m.init (upTo run n)

/-- The state after the first `n` actions. -/
def stateAt (m : Machine S A) (run : Nat → A) (n : Nat) : S := m.after m.init (upTo run n)

/-- Infinitely many of the actions satisfy `p`. -/
def Forever (run : Nat → A) (p : A → Prop) : Prop := ∀ k, ∃ n, k ≤ n ∧ p (run n)

variable {m : Machine S A} {run : Nat → A}

theorem upTo_succ (run : Nat → A) (n : Nat) : upTo run (n + 1) = upTo run n ++ [run n] := by
  simp [upTo, List.range_succ]

theorem stateAt_succ (m : Machine S A) (run : Nat → A) (n : Nat) :
    m.stateAt run (n + 1) = m.next (m.stateAt run n) (run n) := by
  rw [stateAt, upTo_succ, after_snoc]
  rfl

namespace Endless

theorem enabled (h : m.Endless run) (n : Nat) : m.enabled (m.stateAt run n) (run n) := by
  have hl := h (n + 1)
  rw [upTo_succ, legal_snoc] at hl
  exact hl.2

/-- Every step can be taken where it is: then all beginnings are runs. -/
theorem of_enabled (h : ∀ n, m.enabled (m.stateAt run n) (run n)) : m.Endless run := by
  intro n
  induction n with
  | zero => trivial
  | succ n ih =>
      rw [upTo_succ, legal_snoc]
      exact ⟨ih, h n⟩

theorem reachable (h : m.Endless run) (n : Nat) : m.Reachable (m.stateAt run n) :=
  reachable_after (h n)

/-- From where every step keeps `μ` or lowers it, `μ` is never above what it was. -/
theorem measure_le {μ : S → Nat} {k : Nat}
    (hkeep : ∀ n, k ≤ n → μ (m.stateAt run (n + 1)) ≤ μ (m.stateAt run n)) {i j : Nat}
    (hi : k ≤ i) (hij : i ≤ j) : μ (m.stateAt run j) ≤ μ (m.stateAt run i) := by
  induction j, hij using Nat.le_induction with
  | base => exact le_rfl
  | succ j hj ih => exact (hkeep j (hi.trans hj)).trans ih

/-- From where every step keeps `μ` or lowers it, not infinitely many lower it. -/
theorem not_forever_from {μ : S → Nat} {p : A → Prop} {k : Nat}
    (hlower : ∀ n, k ≤ n → p (run n) → μ (m.stateAt run (n + 1)) < μ (m.stateAt run n))
    (hkeep : ∀ n, k ≤ n → μ (m.stateAt run (n + 1)) ≤ μ (m.stateAt run n)) :
    ¬ Forever run p := by
  intro hp
  -- the measure falls below any value
  have hfall : ∀ b n, k ≤ n → μ (m.stateAt run n) < b → False := by
    intro b
    induction b with
    | zero => intro n _ hlt; exact absurd hlt (Nat.not_lt_zero _)
    | succ b ih =>
        intro n hn hlt
        obtain ⟨i, hi, hpi⟩ := hp n
        refine ih (i + 1) (by omega) ?_
        have hstep := hlower i (hn.trans hi) hpi
        have hmono : μ (m.stateAt run i) ≤ μ (m.stateAt run n) := measure_le hkeep hn hi
        omega
  exact hfall _ k le_rfl (Nat.lt_succ_self _)

/--
**A measure bounds the steps that lower it.**  `p` are the steps that lower `μ`, `q` the
exempt ones: without infinitely many of these there are not infinitely many of the others.
-/
theorem not_forever {μ : S → Nat} {p q : A → Prop} (h : m.Endless run)
    (hlower : ∀ s a, m.Reachable s → m.enabled s a → p a → ¬ q a → μ (m.next s a) < μ s)
    (hkeep : ∀ s a, m.Reachable s → m.enabled s a → ¬ q a → μ (m.next s a) ≤ μ s)
    (hq : ¬ Forever run q) : ¬ Forever run p := by
  simp only [Forever, not_forall, not_exists, not_and] at hq
  obtain ⟨k, hk⟩ := hq
  refine not_forever_from (m := m) (μ := μ) (k := k) (fun n hn hpn => ?_) (fun n hn => ?_)
  · rw [stateAt_succ]
    exact hlower _ _ (h.reachable n) (h.enabled n) hpn (hk n hn)
  · rw [stateAt_succ]
    exact hkeep _ _ (h.reachable n) (h.enabled n) (hk n hn)

/-- **Only exempt steps can go on for ever** where all others lower a measure. -/
theorem forever {μ : S → Nat} {q : A → Prop} (h : m.Endless run)
    (hlower : ∀ s a, m.Reachable s → m.enabled s a → ¬ q a → μ (m.next s a) < μ s) :
    Forever run q := by
  by_contra hfew
  refine h.not_forever (p := fun _ => True) (fun s a hs ha _ hno => hlower s a hs ha hno)
    (fun s a hs ha hno => (hlower s a hs ha hno).le) hfew ?_
  exact fun k => ⟨k, le_rfl, trivial⟩

/-- **What only gets smaller settles.** -/
theorem settles {B : Type*} {f : S → B} {μ : B → Nat} (h : m.Endless run)
    (hstep : ∀ s a, m.Reachable s → m.enabled s a →
      f (m.next s a) = f s ∨ μ (f (m.next s a)) < μ (f s)) :
    ∃ k, ∀ n, k ≤ n → f (m.stateAt run n) = f (m.stateAt run k) := by
  have hlater : ∀ i j, i ≤ j → f (m.stateAt run j) = f (m.stateAt run i) ∨
      μ (f (m.stateAt run j)) < μ (f (m.stateAt run i)) := by
    intro i j hij
    induction j, hij using Nat.le_induction with
    | base => exact Or.inl rfl
    | succ j _ ih =>
        rw [stateAt_succ]
        rcases hstep _ _ (h.reachable j) (h.enabled j) with heq | hlt
        · rw [heq]
          exact ih
        · refine Or.inr ?_
          rcases ih with ih | ih
          · rwa [ih] at hlt
          · exact hlt.trans ih
  have hsettle : ∀ b k, μ (f (m.stateAt run k)) < b →
      ∃ k, ∀ n, k ≤ n → f (m.stateAt run n) = f (m.stateAt run k) := by
    intro b
    induction b with
    | zero => intro k hlt; exact absurd hlt (Nat.not_lt_zero _)
    | succ b ih =>
        intro k hlt
        by_cases hconst : ∀ n, k ≤ n → f (m.stateAt run n) = f (m.stateAt run k)
        · exact ⟨k, hconst⟩
        · simp only [not_forall] at hconst
          obtain ⟨j, hj, hne⟩ := hconst
          have hless := (hlater k j hj).resolve_left hne
          exact ih j (by omega)
  exact hsettle _ 0 (Nat.lt_succ_self _)

end Endless

/-! ### Machines that come to an end -/

/-- Every step goes down in `r`. -/
def Descends (m : Machine S A) (r : S → S → Prop) : Prop :=
  ∀ s a, m.Reachable s → m.enabled s a → r (m.next s a) s

variable {r : S → S → Prop}

/-- **No endless run.** -/
theorem Descends.not_endless (h : m.Descends r) (wf : WellFounded r) : ¬ m.Endless run := by
  intro hrun
  have hdown : ∀ n, r (m.stateAt run (n + 1)) (m.stateAt run n) := by
    intro n
    rw [stateAt_succ]
    exact h _ _ (hrun.reachable n) (hrun.enabled n)
  exact (wellFounded_iff_isEmpty_descending_chain.mp wf).elim ⟨m.stateAt run, hdown⟩

/-- **A run as far as it goes.**  With steps that meet the condition `g` alone, from every
reachable state, until no such step is left. -/
theorem Descends.exists_rest (h : m.Descends r) (wf : WellFounded r) (g : S → A → Prop) {s : S}
    (hs : m.Reachable s) : ∃ rest, (m.restrict g).Legal s rest ∧
      ∀ a, m.enabled (m.after s rest) a → ¬ g (m.after s rest) a := by
  induction s using wf.induction with
  | _ s ih =>
      by_cases hend : ∀ a, m.enabled s a → ¬ g s a
      · exact ⟨[], trivial, hend⟩
      · simp only [not_forall, not_not] at hend
        obtain ⟨a, ha, hg⟩ := hend
        obtain ⟨rest, hrest, hlast⟩ := ih _ (h s a hs ha) (hs.next ha)
        exact ⟨a :: rest, ⟨⟨ha, hg⟩, hrest⟩, hlast⟩

/-- **A run to the end.**  From every reachable state some run leads to one without a step. -/
theorem Descends.exists_stuck (h : m.Descends r) (wf : WellFounded r) {s : S}
    (hs : m.Reachable s) : ∃ s', m.Reachable s' ∧ m.Stuck s' := by
  obtain ⟨rest, hrest, hend⟩ := h.exists_rest wf (fun _ _ => True) hs
  exact ⟨_, hs.after (restrict_legal hrest), fun a ha => hend a ha trivial⟩

/-! ### Threads that come to an end -/

/-- **The steps that the threads have left.**  Where a step lowers what its own thread has left
and keeps what the others have, it lowers the sum. -/
theorem descends_sum {ι : Type*} [Fintype ι] (left : S → ι → Nat) (actor : A → ι)
    (hown : ∀ s a, m.Reachable s → m.enabled s a →
      left (m.next s a) (actor a) < left s (actor a))
    (hother : ∀ s a, m.Reachable s → m.enabled s a → ∀ t, t ≠ actor a →
      left (m.next s a) t ≤ left s t) :
    m.Descends (InvImage (· < ·) fun s => ∑ t, left s t) := by
  intro s a hs ha
  refine Finset.sum_lt_sum (fun t _ => ?_) ⟨actor a, Finset.mem_univ _, hown s a hs ha⟩
  by_cases hta : t = actor a
  · rw [hta]
    exact (hown s a hs ha).le
  · exact hother s a hs ha t hta

/-! ### Three ranks -/

/-- The first of three ranks that changes goes down. -/
abbrev Descent : Nat × Nat × Nat → Nat × Nat × Nat → Prop :=
  Prod.Lex (· < ·) (Prod.Lex (· < ·) (· < ·))

theorem descent_wf : WellFounded Descent :=
  WellFounded.prod_lex Nat.lt_wfRel.wf (WellFounded.prod_lex Nat.lt_wfRel.wf Nat.lt_wfRel.wf)

/-- The three ways down. -/
theorem descent_iff {a b c a' b' c' : Nat} : Descent (a', b', c') (a, b, c) ↔
    a' < a ∨ a' = a ∧ (b' < b ∨ b' = b ∧ c' < c) := by
  unfold Descent
  rw [Prod.lex_def, Prod.lex_def]

end LinuxSystems.Machine
