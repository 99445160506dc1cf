/-
What the consumers take out is what the producers put in.

The record of turns says, in the order in which the lock was acquired, what each
thread did with the vector while it held it.  `Settled` is what holds of the record
and the vector while nobody is inside: the batches the consumers iterated over,
followed by what is in the vector now, are the pairs the producers appended.  While
somebody is inside, the record without its last turn is settled for the vector as
that thread found it, and `Progress` says how far the thread has come since.

Nobody else can disturb it.  The other threads are not at critical steps, since the
lock admits one at a time, and the steps that are left to them touch neither the
vector nor the record.
-/
import LinuxSystems.TicketLock.Clients
import LinuxSystems.Machine.Names
import Mathlib.Algebra.Group.Nat.Even

namespace LinuxSystems.TicketLock.Clients

variable {ι : Type*} {w : Nat}

/-! ### Batches and pairs -/

/-- What one iteration of a producer appends. -/
def pair (t : ι) (i : Nat) : List (Elem ι) := [⟨t, i, "test1"⟩, ⟨t, i, "test2"⟩]

/-- A sequence of whole pairs. -/
def WholePairs (b : List (Elem ι)) : Prop :=
  ∃ ps : List (ι × Nat), b = ps.flatMap fun q => pair q.1 q.2

theorem WholePairs.nil : WholePairs ([] : List (Elem ι)) := ⟨[], rfl⟩

theorem WholePairs.append_pair {b : List (Elem ι)} (h : WholePairs b) (t : ι) (i : Nat) :
    WholePairs (b ++ pair t i) := by
  obtain ⟨ps, rfl⟩ := h
  exact ⟨ps ++ [(t, i)], by simp⟩

theorem WholePairs.even_length {b : List (Elem ι)} (h : WholePairs b) : Even b.length := by
  obtain ⟨ps, rfl⟩ := h
  refine ⟨ps.length, ?_⟩
  rw [List.length_flatMap]
  induction ps with
  | nil => rfl
  | cons q ps ih =>
      rw [List.map_cons, List.sum_cons, ih, List.length_cons]
      simp only [pair, List.length_cons, List.length_nil]
      omega

/-- The batches the consumers iterated over, in the order of their turns. -/
def batches (p : Program ι) (L : List (Turn ι)) : List (List (Elem ι)) :=
  (L.filter fun e => p.role e.who = .consumer).map Turn.items

/-- What the producers appended, in the order of their turns. -/
def appended (p : Program ι) (L : List (Turn ι)) : List (List (Elem ι)) :=
  (L.filter fun e => p.role e.who = .producer).map Turn.items

section Snoc

variable {p : Program ι} {e : Turn ι} (L : List (Turn ι))

theorem batches_producer (h : p.role e.who = .producer) :
    batches p (L ++ [e]) = batches p L := by
  simp [batches, h]

theorem appended_producer (h : p.role e.who = .producer) :
    appended p (L ++ [e]) = appended p L ++ [e.items] := by
  simp [appended, h]

theorem batches_consumer (h : p.role e.who = .consumer) :
    batches p (L ++ [e]) = batches p L ++ [e.items] := by
  simp [batches, h]

theorem appended_consumer (h : p.role e.who = .consumer) :
    appended p (L ++ [e]) = appended p L := by
  simp [appended, h]

end Snoc

/-- The turns of `L` are over and have left the vector as `v`. -/
structure Settled (p : Program ι) (L : List (Turn ι)) (v : List (Elem ι)) : Prop where
  produced : ∀ e ∈ L, p.role e.who = .producer → e.items = pair e.who e.iter
  balance : (batches p L).flatten ++ v = (appended p L).flatten
  whole : ∀ b ∈ batches p L, WholePairs b
  rest : WholePairs v

namespace Settled

variable {p : Program ι} {L : List (Turn ι)} {v : List (Elem ι)}

theorem nil : Settled p [] [] where
  produced := by simp
  balance := rfl
  whole := by simp [batches]
  rest := .nil

/-- A producer's turn adds its pair. -/
theorem produce (h : Settled p L v) {t : ι} {i : Nat} (ht : p.role t = .producer) :
    Settled p (L ++ [⟨t, i, pair t i⟩]) (v ++ pair t i) where
  produced := by
    intro e he hr
    rcases List.mem_append.mp he with he | he
    · exact h.produced e he hr
    · rw [List.mem_singleton.mp he]
  balance := by
    rw [batches_producer L (e := ⟨t, i, pair t i⟩) ht, appended_producer L ht,
      List.flatten_append, ← h.balance]
    simp
  whole := by
    rw [batches_producer L (e := ⟨t, i, pair t i⟩) ht]
    exact h.whole
  rest := h.rest.append_pair t i

/-- A consumer's turn takes what it found. -/
theorem consume (h : Settled p L v) {t : ι} {i : Nat} (ht : p.role t = .consumer) :
    Settled p (L ++ [⟨t, i, v⟩]) [] where
  produced := by
    intro e he hr
    rcases List.mem_append.mp he with he | he
    · exact h.produced e he hr
    · rw [List.mem_singleton.mp he, ht] at hr
      exact absurd hr (by simp)
  balance := by
    rw [batches_consumer L (e := ⟨t, i, v⟩) ht, appended_consumer L (e := ⟨t, i, v⟩) ht,
      List.flatten_append, ← h.balance]
    simp
  whole := by
    rw [batches_consumer L (e := ⟨t, i, v⟩) ht]
    intro b hb
    rcases List.mem_append.mp hb with hb | hb
    · exact h.whole b hb
    · rw [List.mem_singleton.mp hb]
      exact h.rest
  rest := .nil

end Settled

/-! ### How far the thread inside has come -/

/-- Thread `t` found the vector as `v` and has recorded `items`. -/
def Progress (p : Program ι) (s : Clients ι w) (t : ι) (v items : List (Elem ι)) : Prop :=
  match p.role t, s.site t with
  | .producer, .emplace1 => items = [] ∧ s.sharedRes = v
  | .producer, .emplace2 => items = [⟨t, s.i t, "test1"⟩] ∧ s.sharedRes = v ++ items
  | .producer, .begin | .producer, .iterate _ _ | .producer, .unlocking =>
      items = pair t (s.i t) ∧ s.sharedRes = v ++ items
  | .consumer, .begin => items = [] ∧ s.sharedRes = v
  | .consumer, .iterate pos stop =>
      stop = v.length ∧ pos ≤ stop ∧ items = v.take pos ∧ s.sharedRes = v
  | .consumer, .clear => items = v ∧ s.sharedRes = v
  | .consumer, .unlocking => items = v ∧ s.sharedRes = []
  | _, _ => False

/-- The last turn is `t`'s and still open; those before it are settled. -/
def Busy (p : Program ι) (s : Clients ι w) (t : ι) : Prop :=
  ∃ L v items, s.turns = L ++ [⟨t, s.i t, items⟩] ∧ Settled p L v ∧
    (∀ e ∈ L, ¬ (e.who = t ∧ e.iter = s.i t)) ∧ Progress p s t v items

/-- The invariant of the handover. -/
structure Handed (p : Program ι) (s : Clients ι w) : Prop where
  fresh : ∀ e ∈ s.turns, e.iter ≤ s.i e.who ∧ (e.iter = s.i e.who → (s.site e.who).entered)
  idle : (∀ t, ¬ (s.site t).critical) → Settled p s.turns s.sharedRes
  busy : ∀ t, (s.site t).critical → Busy p s t

/-! ### What each step does to the invariant -/

section Steps

variable [DecidableEq ι] {p : Program ι} {s : Clients ι w} {a : Step ι} {t : ι}

/-- Recording adds to the open turn and to no other. -/
theorem record_turns {L : List (Turn ι)} {items : List (Elem ι)}
    (hturns : s.turns = L ++ [⟨t, s.i t, items⟩])
    (hL : ∀ e ∈ L, ¬ (e.who = t ∧ e.iter = s.i t)) (more : List (Elem ι)) :
    (s.record t more).turns = L ++ [⟨t, s.i t, items ++ more⟩] := by
  have hkeep : L.map (fun e => if e.who = t ∧ e.iter = s.i t then
      { e with items := e.items ++ more } else e) = L := by
    conv_rhs => rw [← List.map_id L]
    exact List.map_congr_left fun e he => if_neg (hL e he)
  simp only [record, hturns, List.map_append, hkeep]
  simp

/-- Recording changes what a turn contains, not whose it is. -/
theorem record_keys (t : ι) (more : List (Elem ι)) :
    (s.record t more).turns.map (fun e => (e.who, e.iter))
      = s.turns.map fun e => (e.who, e.iter) := by
  rw [record, List.map_map]
  refine List.map_congr_left fun e _ => ?_
  simp only [Function.comp]
  split <;> rfl

/-- In its next iteration a thread has not had its turn. -/
theorem Handed.fresh_next (h : Handed p s) (t : ι) : ∀ e ∈ s.turns, e.who = t →
    e.iter ≤ Function.update s.i t (s.i t + 1) t ∧
      (e.iter = Function.update s.i t (s.i t + 1) t →
        (Function.update s.site t .loop t).entered) := by
  intro e he hw
  have hold := (h.fresh e he).1
  rw [hw] at hold
  rw [Function.update_self]
  exact ⟨by omega, fun heq => by omega⟩

omit [DecidableEq ι] in
/-- What `Busy` says depends on the record, the vector and the thread itself. -/
theorem Busy.congr {s' : Clients ι w} (h : Busy p s t) (hturns : s'.turns = s.turns)
    (hres : s'.sharedRes = s.sharedRes) (hi : s'.i t = s.i t) (hsite : s'.site t = s.site t) :
    Busy p s' t := by
  obtain ⟨L, v, items, h1, h2, h3, h4⟩ := h
  refine ⟨L, v, items, by rw [hturns, h1, hi], h2, by rwa [hi], ?_⟩
  unfold Progress at h4 ⊢
  rwa [hsite, hi, hres]

/-- A step of a thread that is outside the lock, before and after, changes nothing. -/
theorem Handed.frame (h : Handed p s) (ha : ¬ (s.site a.thread).critical)
    (ha' : ¬ ((step p s a).site a.thread).critical)
    (hturns : (step p s a).turns = s.turns) (hres : (step p s a).sharedRes = s.sharedRes)
    (hfresh : ∀ e ∈ s.turns, e.who = a.thread → e.iter ≤ (step p s a).i a.thread ∧
      (e.iter = (step p s a).i a.thread → ((step p s a).site a.thread).entered)) :
    Handed p (step p s a) where
  fresh := by
    rw [hturns]
    intro e he
    by_cases hw : e.who = a.thread
    · rw [hw]
      exact hfresh e he hw
    · rw [step_i_of_ne hw, step_site_of_ne hw]
      exact h.fresh e he
  idle := by
    intro hidle
    rw [hturns, hres]
    refine h.idle fun u hu => ?_
    by_cases hua : u = a.thread
    · exact ha (hua ▸ hu)
    · exact hidle u (by rwa [step_site_of_ne hua])
  busy := by
    intro u hu
    have hua : u ≠ a.thread := fun hc => ha' (hc ▸ hu)
    rw [step_site_of_ne hua] at hu
    exact (h.busy u hu).congr hturns hres (step_i_of_ne hua) (step_site_of_ne hua)

/-- A step of the thread inside that keeps it inside carries its progress on. -/
theorem Handed.advance (h : Handed p s)
    (hone : ∀ t u, (s.site t).critical → (s.site u).critical → t = u)
    (ha : (s.site a.thread).critical) (ha' : ((step p s a).site a.thread).critical)
    (hturns : (step p s a).turns.map (fun e => (e.who, e.iter))
      = s.turns.map fun e => (e.who, e.iter))
    (hi : (step p s a).i a.thread = s.i a.thread) (hbusy : Busy p (step p s a) a.thread) :
    Handed p (step p s a) where
  fresh := by
    intro e he
    have hmem : (e.who, e.iter) ∈ s.turns.map fun e => (e.who, e.iter) := by
      rw [← hturns]
      exact List.mem_map_of_mem he
    obtain ⟨e₀, he₀, heq⟩ := List.mem_map.mp hmem
    obtain ⟨hwho, hiter⟩ := Prod.mk.inj heq
    have hold := h.fresh e₀ he₀
    rw [hwho, hiter] at hold
    by_cases hw : e.who = a.thread
    · rw [hw] at hold ⊢
      rw [hi]
      refine ⟨hold.1, fun _ => ?_⟩
      exact Site.entered_of_critical ha'
    · rwa [step_i_of_ne hw, step_site_of_ne hw]
  idle := fun hidle => absurd ha' (hidle _)
  busy := by
    intro u hu
    by_cases hua : u = a.thread
    · rw [hua]
      exact hbusy
    · rw [step_site_of_ne hua] at hu
      exact absurd (hone u a.thread hu ha) hua

/-! ### The thread inside, step by step -/

theorem Busy.emplace1 (h : Busy p s t) (hsite : s.site t = .emplace1) :
    Busy p (step p s (.emplace1 t)) t := by
  obtain ⟨L, v, items, hturns, hset, hL, hprog⟩ := h
  cases hr : p.role t with
  | consumer => simp [Progress, hr, hsite] at hprog
  | producer =>
      obtain ⟨rfl, hres⟩ : items = [] ∧ s.sharedRes = v := by
        simpa [Progress, hr, hsite] using hprog
      refine ⟨L, v, _, record_turns hturns hL _, hset, hL, ?_⟩
      simp [Progress, step, goto, emplaceBack, record, hr, hres]

theorem Busy.emplace2 (h : Busy p s t) (hsite : s.site t = .emplace2) :
    Busy p (step p s (.emplace2 t)) t := by
  obtain ⟨L, v, items, hturns, hset, hL, hprog⟩ := h
  cases hr : p.role t with
  | consumer => simp [Progress, hr, hsite] at hprog
  | producer =>
      obtain ⟨rfl, hres⟩ : items = [⟨t, s.i t, "test1"⟩] ∧ s.sharedRes = v ++ items := by
        simpa [Progress, hr, hsite] using hprog
      refine ⟨L, v, _, record_turns hturns hL _, hset, hL, ?_⟩
      simp [Progress, step, goto, emplaceBack, record, hr, hres, pair]

theorem Busy.begin (h : Busy p s t) (hsite : s.site t = .begin) :
    Busy p (step p s (.begin t)) t := by
  obtain ⟨L, v, items, hturns, hset, hL, hprog⟩ := h
  refine ⟨L, v, items, hturns, hset, hL, ?_⟩
  cases hr : p.role t with
  | producer => simpa [Progress, step, goto, hr, hsite] using hprog
  | consumer =>
      obtain ⟨rfl, hres⟩ : items = [] ∧ s.sharedRes = v := by
        simpa [Progress, hr, hsite] using hprog
      simp [Progress, step, goto, hr, hres]

/-- The consumer reads the next element of the vector it found. -/
theorem Busy.visit (h : Busy p s t) (ha : s.enabled (.visit t)) :
    Busy p (step p s (.visit t)) t := by
  obtain ⟨L, v, items, hturns, hset, hL, hprog⟩ := h
  obtain ⟨pos, stop, hsite, hne⟩ := Site.looks_iff.mp ha
  cases hr : p.role t with
  | producer =>
      have hstep : step p s (.visit t) = s.goto t (.iterate (pos + 1) stop) := by
        simp only [step, hsite, hr]
      rw [hstep]
      refine ⟨L, v, items, hturns, hset, hL, ?_⟩
      simpa [Progress, goto, hr, hsite] using hprog
  | consumer =>
      have hstep : step p s (.visit t)
          = (s.record t s.sharedRes[pos]?.toList).goto t (.iterate (pos + 1) stop) := by
        simp only [step, hsite, hr]
      obtain ⟨hstop, hpos, hitems, hres⟩ :
          stop = v.length ∧ pos ≤ stop ∧ items = v.take pos ∧ s.sharedRes = v := by
        simpa [Progress, hr, hsite] using hprog
      have htake : items ++ s.sharedRes[pos]?.toList = v.take (pos + 1) := by
        rw [hitems, hres, List.take_add_one]
      rw [hstep]
      refine ⟨L, v, _, record_turns hturns hL _, hset, hL, ?_⟩
      have hlt : pos + 1 ≤ v.length := by omega
      simp only [Progress, goto, record, hr, Function.update_self]
      exact ⟨hstop, by omega, htake, hres⟩

/-- The consumer has read the whole vector when its loop ends. -/
theorem Busy.finish (h : Busy p s t) (ha : s.enabled (.finish t)) :
    Busy p (step p s (.finish t)) t := by
  obtain ⟨L, v, items, hturns, hset, hL, hprog⟩ := h
  obtain ⟨pos, hsite⟩ := Site.ends_iff.mp ha
  refine ⟨L, v, items, hturns, hset, hL, ?_⟩
  cases hr : p.role t with
  | producer => simpa [Progress, step, goto, hr, hsite, Role.afterLoop] using hprog
  | consumer =>
      obtain ⟨hstop, -, hitems, hres⟩ :
          pos = v.length ∧ pos ≤ pos ∧ items = v.take pos ∧ s.sharedRes = v := by
        simpa [Progress, hr, hsite] using hprog
      have hall : items = v := by rw [hitems, hstop, List.take_length]
      simp [Progress, step, goto, hr, Role.afterLoop, hall, hres]

theorem Busy.clear (h : Busy p s t) (hsite : s.site t = .clear) :
    Busy p (step p s (.clear t)) t := by
  obtain ⟨L, v, items, hturns, hset, hL, hprog⟩ := h
  refine ⟨L, v, items, hturns, hset, hL, ?_⟩
  cases hr : p.role t with
  | producer => simp [Progress, hr, hsite] at hprog
  | consumer =>
      obtain ⟨rfl, -⟩ : items = v ∧ s.sharedRes = v := by
        simpa [Progress, hr, hsite] using hprog
      simp [Progress, step, goto, hr]

omit [DecidableEq ι] in
/-- With the thread at `unlock()`, its turn is over and settled. -/
theorem Busy.settled (h : Busy p s t) (hsite : s.site t = .unlocking) :
    Settled p s.turns s.sharedRes := by
  obtain ⟨L, v, items, hturns, hset, hL, hprog⟩ := h
  rw [hturns]
  cases hr : p.role t with
  | producer =>
      obtain ⟨rfl, hres⟩ : items = pair t (s.i t) ∧ s.sharedRes = v ++ items := by
        simpa [Progress, hr, hsite] using hprog
      rw [hres]
      exact hset.produce hr
  | consumer =>
      obtain ⟨rfl, hres⟩ : items = v ∧ s.sharedRes = [] := by
        simpa [Progress, hr, hsite] using hprog
      rw [hres]
      exact hset.consume hr

/-! ### The two ends of a turn -/

/-- Getting through `lock()` opens a turn on what the others have left. -/
theorem Handed.leave (h : Handed p s) (hsite : s.site t = .locking)
    (hfree : ∀ u, ¬ (s.site u).critical) : Handed p (step p s (.lock (.leave t))) where
  fresh := by
    intro e he
    have hold : ∀ e ∈ s.turns, e.iter ≤ s.i e.who ∧
        (e.iter = s.i e.who → ((step p s (.lock (.leave t))).site e.who).entered) := by
      intro e he
      refine ⟨(h.fresh e he).1, fun heq => ?_⟩
      have hent := (h.fresh e he).2 heq
      have hne : e.who ≠ t := by
        intro hc
        rw [hc, hsite] at hent
        exact hent
      rwa [step_site_of_ne (show e.who ≠ (Step.lock (.leave t)).thread from hne)]
    rcases List.mem_append.mp he with he | he
    · exact hold e he
    · rw [List.mem_singleton.mp he]
      refine ⟨Nat.le_refl _, fun _ => ?_⟩
      simp only [step, goto, Function.update_self]
      cases p.role t <;> trivial
  idle := by
    intro hidle
    refine absurd ?_ (hidle t)
    simp only [step, goto, Function.update_self]
    cases p.role t <;> trivial
  busy := by
    intro u hu
    by_cases hut : u = t
    · subst hut
      refine ⟨s.turns, s.sharedRes, [], rfl, h.idle hfree, ?_, ?_⟩
      · rintro e he ⟨hwho, hiter⟩
        have hent := (h.fresh e he).2 (by rw [hwho]; exact hiter)
        rw [hwho, hsite] at hent
        exact hent
      · cases hr : p.role u <;> simp [Progress, step, goto, hr, Role.afterLock]
    · rw [step_site_of_ne (show u ≠ (Step.lock (.leave t)).thread from hut)] at hu
      exact absurd hu (hfree u)

/-- `unlock()` closes it. -/
theorem Handed.unlock (h : Handed p s) (hsite : s.site t = .unlocking)
    (hone : ∀ u, (s.site u).critical → u = t) : Handed p (step p s (.lock (.unlock t))) where
  fresh := by
    intro e he
    have hold := h.fresh e he
    by_cases hw : e.who = t
    · refine ⟨hold.1, fun _ => ?_⟩
      simp only [step, goto, hw, Function.update_self]
      cases p.role t <;> trivial
    · rwa [step_i_of_ne (show e.who ≠ (Step.lock (.unlock t)).thread from hw),
        step_site_of_ne (show e.who ≠ (Step.lock (.unlock t)).thread from hw)]
  idle := fun _ => (h.busy t (by rw [hsite]; trivial)).settled hsite
  busy := by
    intro u hu
    by_cases hut : u = t
    · subst hut
      simp only [step, goto, Function.update_self] at hu
      cases hr : p.role u <;> rw [hr] at hu <;> exact hu.elim
    · rw [step_site_of_ne (show u ≠ (Step.lock (.unlock t)).thread from hut)] at hu
      exact absurd (hone u hu) hut

omit [DecidableEq ι] in
theorem critical_of_site {x : Site} (hsite : s.site t = x) (hx : x.critical) :
    (s.site t).critical := hsite ▸ hx

omit [DecidableEq ι] in
theorem not_critical_of_site {x : Site} (hsite : s.site t = x) (hx : ¬ x.critical) :
    ¬ (s.site t).critical := hsite ▸ hx

/-- The steps of the lock: only who enters and who leaves change what is handed over. -/
theorem Handed.lock [Fintype ι] (hn : Fintype.card ι ≤ 2 ^ w) (hs : (machine p w).Reachable s)
    (h : Handed p s) {a : TicketLock.Action ι} (ha : s.enabled (.lock a)) :
    Handed p (step p s (.lock a)) := by
  obtain ⟨hsite, hlock⟩ := ha
  cases a with
  | take t | spin t =>
      have hnot : ¬ (s.site t).critical := not_critical_of_site hsite id
      refine h.frame hnot hnot rfl rfl fun e he hw => ?_
      have hold := h.fresh e he
      rwa [hw] at hold
  | leave t =>
      refine h.leave hsite fun u hu => ?_
      -- a thread inside already would be inside together with `t`
      have hut : u ≠ t := by
        intro hc
        rw [hc, show s.site t = .locking from hsite] at hu
        exact hu
      have hs' : (machine p w).Reachable (Clients.step p s (.lock (.leave t))) :=
        hs.next (a := .lock (.leave t)) ⟨hsite, hlock⟩
      refine hut (critical_unique hn hs' ?_ ?_)
      · rwa [step_site_of_ne (show u ≠ (Step.lock (.leave t)).thread from hut)]
      · simp only [Clients.step, goto, Function.update_self]
        cases p.role t <;> trivial
  | unlock t =>
      refine h.unlock hsite fun u hu => critical_unique hn hs hu ?_
      rw [show s.site t = .unlocking from hsite]
      trivial

/-- **Every step keeps the invariant.** -/
theorem Handed.step [Fintype ι] (hn : Fintype.card ι ≤ 2 ^ w) (hs : (machine p w).Reachable s)
    (h : Handed p s) (ha : s.enabled a) : Handed p (step p s a) := by
  have hone : ∀ t u, (s.site t).critical → (s.site u).critical → t = u :=
    fun t u => critical_unique hn hs
  cases a with
  | loop t =>
      have hsite : s.site t = .loop := ha
      refine h.frame (a := .loop t) (not_critical_of_site hsite id) ?_ rfl rfl ?_
      · simp only [Clients.step, goto, Step.thread, Function.update_self]
        split <;> exact id
      · intro e he hw
        have hold := h.fresh e he
        rw [hw] at hold
        refine ⟨hold.1, fun heq => ?_⟩
        have := hold.2 heq
        rw [show s.site (Step.thread (.loop t)) = .loop from hsite] at this
        exact this.elim
  | lock a => exact h.lock hn hs ha
  | emplace1 t =>
      have hsite : s.site t = .emplace1 := ha
      have hcrit := critical_of_site hsite trivial
      refine h.advance (a := .emplace1 t) hone hcrit ?_ ?_ rfl ((h.busy t hcrit).emplace1 hsite)
      · simp [Clients.step, goto, Step.thread, Site.critical]
      · exact record_keys t _
  | emplace2 t =>
      have hsite : s.site t = .emplace2 := ha
      have hcrit := critical_of_site hsite trivial
      refine h.advance (a := .emplace2 t) hone hcrit ?_ ?_ rfl ((h.busy t hcrit).emplace2 hsite)
      · simp [Clients.step, goto, Step.thread, Site.critical]
      · exact record_keys t _
  | begin t =>
      have hsite : s.site t = .begin := ha
      have hcrit := critical_of_site hsite trivial
      refine h.advance (a := .begin t) hone hcrit ?_ rfl rfl ((h.busy t hcrit).begin hsite)
      simp [Clients.step, goto, Step.thread, Site.critical]
  | visit t =>
      obtain ⟨pos, stop, hsite, hne⟩ := Site.looks_iff.mp ha
      have hcrit := critical_of_site hsite trivial
      refine h.advance (a := .visit t) hone hcrit ?_ ?_ ?_ ((h.busy t hcrit).visit ha)
      all_goals cases hr : p.role t
      · simp [Clients.step, hsite, hr, goto, Step.thread, Site.critical]
      · simp [Clients.step, hsite, hr, goto, Step.thread, Site.critical]
      · simp only [Clients.step, hsite, hr, goto]
      · simp only [Clients.step, hsite, hr, goto]
        exact record_keys t _
      · simp only [Clients.step, hsite, hr, goto]
      · simp only [Clients.step, hsite, hr, goto, record]
  | finish t =>
      obtain ⟨pos, hsite⟩ := Site.ends_iff.mp ha
      have hcrit := critical_of_site hsite trivial
      refine h.advance (a := .finish t) hone hcrit ?_ rfl rfl ((h.busy t hcrit).finish ha)
      simp only [Clients.step, goto, Step.thread, Function.update_self]
      cases p.role t <;> trivial
  | clear t =>
      have hsite : s.site t = .clear := ha
      have hcrit := critical_of_site hsite trivial
      refine h.advance (a := .clear t) hone hcrit ?_ rfl rfl ((h.busy t hcrit).clear hsite)
      simp [Clients.step, goto, Step.thread, Site.critical]
  | sleep t =>
      have hsite : s.site t = .sleep := ha
      refine h.frame (a := .sleep t) (not_critical_of_site hsite id) ?_ rfl rfl ?_
      · simp [Clients.step, goto, Step.thread, Site.critical]
      · exact h.fresh_next t
  | empty t =>
      have hsite : s.site t = .empty := ha
      refine h.frame (a := .empty t) (not_critical_of_site hsite id) ?_ rfl rfl ?_
      · simp [Clients.step, goto, Step.thread, Site.critical]
      · exact h.fresh_next t

/-- The invariant holds of every reachable state. -/
theorem reachable_handed [Fintype ι] (hn : Fintype.card ι ≤ 2 ^ w)
    (hs : (machine p w).Reachable s) : Handed p s := by
  refine hs.invariant (P := Handed p) ?_ fun s a hs h ha => h.step hn hs ha
  refine ⟨by simp [machine], fun _ => .nil, ?_⟩
  intro t ht
  exact ht.elim

/-! ### The record of turns is the order of acquisition -/

/-- The thread a step lets through `lock()`. -/
def Step.acquirer (a : Step ι) : Option ι := a.lockAction.bind Action.leaver

theorem turns_step (p : Program ι) (s : Clients ι w) (a : Step ι) :
    (step p s a).turns.map Turn.who = s.turns.map Turn.who ++ a.acquirer.toList := by
  have hrecord : ∀ t more, (s.record t more).turns.map Turn.who = s.turns.map Turn.who := by
    intro t more
    have := congrArg (List.map Prod.fst) (record_keys (s := s) t more)
    simpa only [List.map_map, Function.comp_def] using this
  cases a with
  | lock a => cases a <;> simp [step, goto, Step.acquirer, Step.lockAction, Action.leaver]
  | emplace1 t | emplace2 t =>
      simpa [step, goto, emplaceBack, Step.acquirer, Step.lockAction] using hrecord t _
  | visit t =>
      simp only [step]
      split
      · simp [goto, Step.acquirer, Step.lockAction]
      · simpa [goto, Step.acquirer, Step.lockAction] using hrecord t _
      · simp [Step.acquirer, Step.lockAction]
  | loop t | begin t | finish t | clear t | sleep t | empty t =>
      simp [step, goto, Step.acquirer, Step.lockAction]

/-- Turns are recorded in the order in which the threads get through `lock()`. -/
theorem turns_order {tr : List (Step ι)} (hl : (machine p w).Legal (machine p w).init tr) :
    ((machine p w).after (machine p w).init tr).turns.map Turn.who
      = tr.filterMap Step.acquirer := by
  refine Machine.run_invariant (m := machine p w)
    (P := fun tr s => s.turns.map Turn.who = tr.filterMap Step.acquirer) rfl ?_ hl
  intro tr a _ ih _
  rw [Machine.filterMap_snoc, ← ih]
  exact turns_step p _ a

end Steps

/--
**Nothing is lost, duplicated, reordered or split.**  For up to `2 ^ w` producers and
consumers with any loop counts, at the end of every run that leaves nobody inside the
lock: the batches the consumers iterated over, followed by what is in the vector,
are the pairs the producers appended, both in the order in which the lock was
acquired; and every batch consists of whole pairs.
-/
theorem clients_handover (w n : Nat) (hn : n ≤ 2 ^ w) (p : Program (Fin n))
    (tr : List (Step (Fin n))) (hl : (machine p w).Legal (machine p w).init tr)
    (hidle : ∀ t, ¬ (((machine p w).after (machine p w).init tr).spinlock.phase t).isInside) :
    let s := (machine p w).after (machine p w).init tr
    s.turns.map Turn.who = tr.filterMap Step.acquirer ∧
    (∀ e ∈ s.turns, p.role e.who = .producer → e.items = pair e.who e.iter) ∧
    (batches p s.turns).flatten ++ s.sharedRes = (appended p s.turns).flatten ∧
    ∀ b ∈ batches p s.turns, Even b.length ∧ WholePairs b := by
  intro s
  have hcard : Fintype.card (Fin n) ≤ 2 ^ w := by rwa [Fintype.card_fin]
  have hs : (machine p w).Reachable s := Machine.reachable_after hl
  have hset : Settled p s.turns s.sharedRes :=
    (reachable_handed hcard hs).idle fun t ht => hidle t ((critical_iff_inside hs t).mp ht)
  exact ⟨turns_order hl, hset.produced, hset.balance,
    fun b hb => ⟨(hset.whole b hb).even_length, hset.whole b hb⟩⟩

attribute [local instance] neZeroTwo

/-- One producer and one consumer on a lock of one bit: the consumer comes by after each
of the producer's two iterations. -/
def twoRounds : Program (Fin 2) where
  role t := if t = 0 then .producer else .consumer
  limit _ := 2

/-- The producer appends a pair while the consumer already waits, and the consumer takes it. -/
def handoverRun : List (Step (Fin 2)) :=
  [.loop 0, .lock (.take 0), .loop 1, .lock (.take 1), .lock (.leave 0), .emplace1 0,
    .lock (.spin 1), .emplace2 0, .begin 0, .visit 0, .visit 0, .finish 0, .lock (.unlock 0),
    .lock (.leave 1), .begin 1, .visit 1, .visit 1, .finish 1, .clear 1, .lock (.unlock 1)]

theorem clients_handover_run :
    let s := (machine twoRounds 1).after (machine twoRounds 1).init handoverRun
    (batches twoRounds s.turns).flatten ++ s.sharedRes
      = (appended twoRounds s.turns).flatten :=
  (clients_handover 1 2 (by decide) twoRounds handoverRun (by decide) (by decide)).2.2.1

end LinuxSystems.TicketLock.Clients
