/-
A request to stop, and the callbacks that wait for it.

Any thread may ask to stop, and the first one that does is the one whose request counts.
Callbacks are enrolled by the thread that constructs them.  While nobody has asked they are
kept, and the thread whose request counts executes them one at a time, in any order.  A callback
that comes too late to be kept is executed by the thread that enrolls it.  A callback may be
withdrawn, but not while it is being executed.

So a callback is executed once at most, never before the request, and by nobody but the
requester and the one that enrolled it.  And none is forgotten: what is neither withdrawn nor
kept any more has been executed.
-/
import LinuxSystems.Machine.Run
import Mathlib.Data.List.Nodup

namespace LinuxSystems

structure StopState (T C : Type*) where
  /-- Whose request it was that counted. -/
  requester : Option T
  /-- Enrolled and still kept. -/
  kept : List C
  running : Option C
  /-- Each with the thread that executed it. -/
  executed : List (C × T)
  /-- Withdrawn before they were executed. -/
  withdrawn : List C

namespace StopState

variable {T C : Type*}

inductive Action (T C : Type*) where
  | request (t : T)
  | enroll (t : T) (c : C)
  /-- The requester begins with `c`. -/
  | start (c : C)
  | finish
  | withdraw (c : C)

/-- Nobody has enrolled `c`. -/
def Fresh (s : StopState T C) (c : C) : Prop :=
  c ∉ s.kept ∧ c ∉ s.executed.map Prod.fst ∧ c ∉ s.withdrawn

/-- All that was enrolled has been executed or withdrawn. -/
def Settled (s : StopState T C) : Prop := s.kept = [] ∧ s.running = none

def enabled (s : StopState T C) : Action T C → Prop
  | .request _ => True
  | .enroll _ c => s.Fresh c
  | .start c => s.requester ≠ none ∧ s.running = none ∧ c ∈ s.kept
  | .finish => s.running ≠ none
  | .withdraw c => s.running ≠ some c

variable [DecidableEq C]

instance (s : StopState T C) : Decidable s.Settled :=
  decidable_of_iff (s.kept.isEmpty = true ∧ s.running.isNone = true) (by simp [Settled])

def step (s : StopState T C) : Action T C → StopState T C
  | .request t => { s with requester := s.requester.or (some t) }
  | .enroll t c =>
      match s.requester with
      | none => { s with kept := s.kept ++ [c] }
      | some _ => { s with executed := s.executed ++ [(c, t)] }
  | .start c =>
      { s with
        kept := s.kept.erase c
        running := some c
        executed := s.executed ++ (s.requester.map fun t => (c, t)).toList }
  | .finish => { s with running := none }
  | .withdraw c =>
      { s with
        kept := s.kept.erase c
        withdrawn := s.withdrawn ++ if c ∈ s.kept then [c] else [] }

/-- Nobody has asked, and nothing is enrolled. -/
def machine (T C : Type*) [DecidableEq C] : Machine (StopState T C) (Action T C) where
  init := ⟨none, [], none, [], []⟩
  enabled := enabled
  next := step

variable {s : StopState T C} {a : Action T C} {t : T} {c : C}

/-- Nobody has asked: the callback is kept. -/
theorem step_enroll_of_none (hreq : s.requester = none) :
    s.step (.enroll t c) = { s with kept := s.kept ++ [c] } := by
  simp [step, hreq]

/-- Somebody has: the callback is executed at once. -/
theorem step_enroll_of_some {r : T} (hreq : s.requester = some r) :
    s.step (.enroll t c) = { s with executed := s.executed ++ [(c, t)] } := by
  simp [step, hreq]

theorem step_start {r : T} (hreq : s.requester = some r) : s.step (.start c) =
    { s with
      kept := s.kept.erase c
      running := some c
      executed := s.executed ++ [(c, r)] } := by
  simp [step, hreq]

theorem step_request_of_none (hreq : s.requester = none) :
    s.step (.request t) = { s with requester := some t } := by
  simp [step, hreq]

/-- A second request does nothing. -/
theorem step_request_of_some {r : T} (hreq : s.requester = some r) :
    s.step (.request t) = s := by
  cases s
  simp_all [step]

/-- What is not kept need not be withdrawn. -/
theorem step_withdraw_of_notMem (hmem : c ∉ s.kept) : s.step (.withdraw c) = s := by
  simp [step, hmem, List.erase_of_not_mem hmem]

/-! ### What every operation keeps -/

structure Once (s : StopState T C) : Prop where
  /-- A callback is kept, executed or withdrawn, and only one of these. -/
  nodup : (s.kept ++ s.executed.map Prod.fst ++ s.withdrawn).Nodup
  /-- What is being executed has been counted as executed. -/
  running : ∀ c, s.running = some c → c ∈ s.executed.map Prod.fst
  /-- Nothing is executed before the request. -/
  requested : s.executed ≠ [] → s.requester ≠ none

omit [DecidableEq C] in
theorem Once.insert {kept ex wd : List C} (hs : (kept ++ ex ++ wd).Nodup) (hk : c ∉ kept)
    (hex : c ∉ ex) (hwd : c ∉ wd) : (c :: (kept ++ ex ++ wd)).Nodup := by
  refine List.nodup_cons.mpr ⟨?_, hs⟩
  rw [List.mem_append, List.mem_append]
  exact fun hmem => hmem.elim (fun hmem => hmem.elim hk hex) hwd

/-- **Once at most.** -/
theorem Once.step (hs : Once s) (ha : enabled s a) : Once (s.step a) := by
  cases a with
  | request t =>
      refine ⟨hs.nodup, hs.running, fun hex => ?_⟩
      have hreq := hs.requested hex
      show s.requester.or (some t) ≠ none
      simp
  | enroll t c =>
      obtain ⟨hk, hex, hwd⟩ := ha
      have hins := Once.insert hs.nodup hk hex hwd
      cases hreq : s.requester with
      | none =>
          rw [step_enroll_of_none hreq]
          refine ⟨?_, hs.running, hs.requested⟩
          have hperm : (c :: (s.kept ++ s.executed.map Prod.fst ++ s.withdrawn)).Perm
              (s.kept ++ [c] ++ s.executed.map Prod.fst ++ s.withdrawn) := by
            simp only [List.append_assoc]
            exact List.perm_middle.symm
          exact hperm.nodup_iff.mp hins
      | some r =>
          rw [step_enroll_of_some hreq]
          refine ⟨?_, ?_, fun _ => by simp [hreq]⟩
          · have hperm : (c :: (s.kept ++ s.executed.map Prod.fst ++ s.withdrawn)).Perm
                (s.kept ++ (s.executed ++ [(c, t)]).map Prod.fst ++ s.withdrawn) := by
              rw [List.map_append, ← List.append_assoc, List.append_assoc (s.kept ++ _)]
              exact List.perm_middle.symm
            exact hperm.nodup_iff.mp hins
          · intro d hd
            rw [List.map_append]
            exact List.mem_append_left _ (hs.running d hd)
  | start c =>
      obtain ⟨hreq, -, hmem⟩ := ha
      obtain ⟨r, hr⟩ := Option.ne_none_iff_exists'.mp hreq
      rw [step_start hr]
      refine ⟨?_, ?_, fun _ => hreq⟩
      · have hperm : (s.kept ++ s.executed.map Prod.fst ++ s.withdrawn).Perm
            (s.kept.erase c ++ (s.executed ++ [(c, r)]).map Prod.fst ++ s.withdrawn) := by
          refine List.Perm.append_right _ ?_
          rw [List.map_append, ← List.append_assoc]
          refine ((List.perm_cons_erase hmem).append_right _).trans ?_
          exact (List.perm_append_singleton c _).symm
        exact hperm.nodup_iff.mp hs.nodup
      · intro d hd
        obtain rfl : c = d := Option.some.inj hd
        simp
  | finish =>
      refine ⟨hs.nodup, fun d hd => ?_, hs.requested⟩
      cases hd
  | withdraw c =>
      refine ⟨?_, hs.running, hs.requested⟩
      show (s.kept.erase c ++ s.executed.map Prod.fst ++
        (s.withdrawn ++ if c ∈ s.kept then [c] else [])).Nodup
      by_cases hmem : c ∈ s.kept
      · rw [if_pos hmem, ← List.append_assoc]
        have hperm : (s.kept ++ s.executed.map Prod.fst ++ s.withdrawn).Perm
            (s.kept.erase c ++ s.executed.map Prod.fst ++ s.withdrawn ++ [c]) := by
          refine List.Perm.trans ?_ (List.perm_append_singleton c _).symm
          exact ((List.perm_cons_erase hmem).append_right _).append_right _
        exact hperm.nodup_iff.mp hs.nodup
      · rw [if_neg hmem, List.append_nil, List.erase_of_not_mem hmem]
        exact hs.nodup

theorem reachable_once (hr : (machine T C).Reachable s) : Once s := by
  refine hr.invariant (P := Once) ⟨?_, fun c hc => ?_, fun h => absurd rfl h⟩ ?_
  · simp [machine]
  · cases hc
  · exact fun s a _ hs ha => hs.step ha

end StopState

end LinuxSystems
