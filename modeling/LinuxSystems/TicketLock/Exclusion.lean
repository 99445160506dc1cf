/-
What the ticket lock guarantees: exclusion, progress and order.

All three are read off the queue the lock stands for.  A thread inside is the
holder, and the queue has one; the ticket being served is the head's, and a queue
that is not empty has one head; the order in which threads leave the loop is the
order of grants, and the queue is first come first served.

The bound on the number of threads is exact.  One thread more than the counters
have values, and the last ticket handed out is the first one again: its owner walks
in next to the first.
-/
import LinuxSystems.TicketLock.Lock
import Mathlib.Data.Fintype.Basic

namespace LinuxSystems.TicketLock

variable {ι : Type*} {w : Nat}

section Guarantees

variable [DecidableEq ι] [Fintype ι] {s : TicketLock ι w}

/-- Two threads inside are one. -/
theorem inside_unique (hn : Fintype.card ι ≤ 2 ^ w) (hs : (machine ι w).Reachable s) {t u : ι}
    (ht : (s.phase t).isInside) (hu : (s.phase u).isInside) : t = u := by
  obtain ⟨q, -, h⟩ := (simulates hn).reachable hs
  exact Option.some.inj (((h.inside t).mp ht).symm.trans ((h.inside u).mp hu))

/-- While a ticket is out, one thread and no other holds the one being served. -/
theorem served_unique (hn : Fintype.card ι ≤ 2 ^ w) (hs : (machine ι w).Reachable s)
    (hout : ∃ t, (s.phase t).ticket ≠ none) : ∃! t, (s.phase t).ticket = some s.serving := by
  obtain ⟨q, -, h⟩ := (simulates hn).reachable hs
  obtain ⟨t, ht⟩ := hout
  obtain ⟨head, rest, hqueue⟩ := List.exists_cons_of_ne_nil (List.ne_nil_of_mem (h.mem_iff.mpr ht))
  have hhead : q.queue[0]? = some head := by rw [hqueue]; rfl
  refine ⟨head, h.served_of_head hhead, ?_⟩
  intro u hu
  exact Option.some.inj ((h.head_of_served hn hu).symm.trans hhead)

omit [Fintype ι] [DecidableEq ι] in
/-- Who holds the served ticket is inside, or leaves the loop at its next test. -/
theorem served_moves {t : ι} (ht : (s.phase t).ticket = some s.serving) :
    (s.phase t).isInside ∨ s.enabled (.leave t) := by
  cases hp : s.phase t with
  | outside => rw [hp] at ht; simp [Phase.ticket] at ht
  | spinning k =>
      rw [hp] at ht
      exact Or.inr (enabled_leave.mpr (by rw [hp, Option.some.inj ht]))
  | inside k => exact Or.inl trivial

end Guarantees

/-! ### One thread too many -/

theorem leave_isInside [DecidableEq ι] {s : TicketLock ι w} {t : ι} :
    ((s.step (.leave t)).phase t).isInside := by
  simp [step]

/-- The first `j` of `2 ^ w + 1` threads have taken their tickets, and all of them spin. -/
def crowd (w j : Nat) : TicketLock (Fin (2 ^ w + 1)) w where
  serving := 0
  next := BitVec.ofNat w j
  phase t := if t.val < j then .spinning (BitVec.ofNat w t.val) else .outside

theorem crowd_reachable (w : Nat) :
    ∀ j, j ≤ 2 ^ w + 1 → (machine (Fin (2 ^ w + 1)) w).Reachable (crowd w j) := by
  intro j
  induction j with
  | zero => intro _; simpa [crowd, machine] using Machine.Reachable.init
  | succ j ih =>
      intro hj
      have hen : (crowd w j).enabled (.take ⟨j, hj⟩) := by simp [enabled, crowd]
      have hstep : (crowd w j).step (.take ⟨j, hj⟩) = crowd w (j + 1) := by
        simp only [step, crowd, TicketLock.mk.injEq, true_and]
        refine ⟨by rw [BitVec.ofNat_add]; rfl, ?_⟩
        funext t
        by_cases ht : t = ⟨j, hj⟩
        · simp [ht]
        · have hne : t.val ≠ j := fun hc => ht (Fin.ext hc)
          rw [Function.update_of_ne ht]
          simp only [Nat.lt_succ_iff_lt_or_eq, hne, or_false]
      rw [← hstep]
      exact (ih (by omega)).next (a := .take ⟨j, hj⟩) hen

/-- **The bound is exact.**  With `2 ^ w + 1` threads two of them can be inside at once. -/
theorem overrun (w : Nat) : ∃ s, (machine (Fin (2 ^ w + 1)) w).Reachable s ∧
    ∃ t u, t ≠ u ∧ (s.phase t).isInside ∧ (s.phase u).isInside := by
  have hpos := Nat.two_pow_pos w
  set first : Fin (2 ^ w + 1) := ⟨0, by omega⟩ with hfirst
  set last : Fin (2 ^ w + 1) := ⟨2 ^ w, by omega⟩ with hlast
  have hne : last ≠ first := by
    intro hc
    have := congrArg Fin.val hc
    simp [hfirst, hlast] at this
  set s := crowd w (2 ^ w + 1) with hs
  have hleave : s.enabled (.leave first) := by simp [hs, crowd, hfirst]
  -- the last ticket has wrapped round to the one being served
  have hleave' : (s.step (.leave first)).enabled (.leave last) := by
    rw [enabled_leave, step_phase_of_ne (show last ≠ Action.thread (.leave first) from hne)]
    show s.phase last = .spinning s.serving
    have hwrap : BitVec.ofNat w (2 ^ w) = 0 := by
      apply BitVec.eq_of_toNat_eq
      rw [BitVec.toNat_ofNat, Nat.mod_self]
      rfl
    simp [hs, crowd, hlast, hwrap]
  have hcrowd := crowd_reachable w _ (Nat.le_refl _)
  refine ⟨_, (hcrowd.next (a := .leave first) hleave).next (a := .leave last) hleave',
    last, first, hne, leave_isInside, ?_⟩
  show (((s.step (.leave first)).step (.leave last)).phase first).isInside
  rw [step_phase_of_ne (show first ≠ Action.thread (.leave last) from hne.symm)]
  exact leave_isInside

/-! ### The guarantees together -/

/--
**Exclusion and progress of the ticket lock.**  With at most `2 ^ w` threads, in every
reachable state at most one thread is inside; and while some ticket is out, exactly
one thread holds the ticket being served, and that thread is inside or gets through
the loop at its next test.  One thread more and exclusion fails.
-/
theorem ticket_lock_exclusive (w : Nat) :
    (∀ n, n ≤ 2 ^ w → ∀ s, (machine (Fin n) w).Reachable s →
      (∀ t u, (s.phase t).isInside → (s.phase u).isInside → t = u) ∧
      ((∃ t, (s.phase t).ticket ≠ none) → ∃! t, (s.phase t).ticket = some s.serving) ∧
      ∀ t, (s.phase t).ticket = some s.serving →
        (s.phase t).isInside ∨ s.enabled (.leave t)) ∧
    ∃ s, (machine (Fin (2 ^ w + 1)) w).Reachable s ∧
      ∃ t u, t ≠ u ∧ (s.phase t).isInside ∧ (s.phase u).isInside := by
  refine ⟨?_, overrun w⟩
  intro n hn s hs
  have hcard : Fintype.card (Fin n) ≤ 2 ^ w := by rwa [Fintype.card_fin]
  exact ⟨fun _ _ => inside_unique hcard hs, served_unique hcard hs, fun _ => served_moves⟩

/-- Two threads on a one-bit lock, the first of them inside. -/
theorem ticket_lock_exclusive_two :
    ∃! t : Fin 2, (((machine (Fin 2) 1).after (machine (Fin 2) 1).init
      [.take 0, .take 1, .spin 1, .leave 0]).phase t).ticket = some 0 :=
  ((ticket_lock_exclusive 1).1 2 (by decide) _
    ⟨[.take 0, .take 1, .spin 1, .leave 0], by decide, rfl⟩).2.1 ⟨0, by decide⟩

/-- The thread a step starts `lock()` for. -/
def Action.requester : Action ι → Option ι
  | .take t => some t
  | .spin _ | .leave _ | .unlock _ => none

/-- The thread a step lets out of the loop of `lock()`. -/
def Action.leaver : Action ι → Option ι
  | .leave t => some t
  | .take _ | .spin _ | .unlock _ => none

theorem requester_eq (a : Action ι) : a.requester = a.label.bind FifoLock.Action.requested := by
  cases a <;> rfl

theorem leaver_eq (a : Action ι) : a.leaver = a.label.bind FifoLock.Action.granted := by
  cases a <;> rfl

/--
**First come, first served.**  In every run, the threads in the order in which they leave
the loop of `lock()` are a prefix of the threads in the order of their
`next.fetch_add`, however often the counters have wrapped.
-/
theorem ticket_lock_fcfs (w n : Nat) (hn : n ≤ 2 ^ w) (tr : List (Action (Fin n)))
    (hl : (machine (Fin n) w).Legal (machine (Fin n) w).init tr) :
    tr.filterMap Action.leaver <+: tr.filterMap Action.requester := by
  have hcard : Fintype.card (Fin n) ≤ 2 ^ w := by rwa [Fintype.card_fin]
  have h := FifoLock.grants_prefix ((simulates hcard).run hl).1
  rw [List.filterMap_filterMap, List.filterMap_filterMap] at h
  simpa only [leaver_eq, requester_eq] using h

/-- Three requests on a one-bit lock: `next` has wrapped, and the order is kept. -/
theorem ticket_lock_fcfs_wrapped :
    ([.take 0, .leave 0, .unlock 0, .take 1, .take 0, .spin 0, .leave 1] :
        List (Action (Fin 2))).filterMap Action.leaver
      <+: ([.take 0, .leave 0, .unlock 0, .take 1, .take 0, .spin 0, .leave 1] :
        List (Action (Fin 2))).filterMap Action.requester :=
  ticket_lock_fcfs 1 2 (by decide) _ (by decide)

end LinuxSystems.TicketLock
