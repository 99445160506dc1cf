/-
Whether each consumer sees the buffer of its own producer.

`work_done` and the mutex make the completions alternate, and when a consumer succeeds the
region holds the buffer of the producer before it.  But the consumer resets `work_done`
and releases the mutex before its caller has looked at anything: the pointer that it
returns shows the region, and the next producer may write there at once.

So a pointer shows the right buffer for as long as it is used exactly when no producer
writes another one while it is.
-/
import LinuxSystems.SharedMemory.Mutex
import Mathlib.Data.Fintype.Basic

namespace LinuxSystems.SharedMem

variable {ι T : Type*} [DecidableEq ι] {call : ι → Call T} {s : SharedMem ι T} {a : Action ι}
  {t u : ι} {x : Site}

/-! ### What is wanted of the handoff -/

/-- The first `n` completions where producers and consumers take turns. -/
def turns : Nat → List Completion
  | 0 => []
  | n + 1 => turns n ++ [if n % 2 = 0 then .producer else .consumer]

/-- Every pointer that a consumer returned and that is not destroyed shows the buffer of the
producer with the same number. -/
def Sees (s : SharedMem ι T) : Prop := ∀ t i, s.site t = .received i → s.cell = s.placed[i]?

/-- A producer writes only what the pointers in use show already. -/
def Spares (call : ι → Call T) (s : SharedMem ι T) : Action ι → Prop
  | .place t => ∀ u i, s.site u = .received i → (call t).buffer = s.placed[i]?
  | _ => True

instance [DecidableEq T] (o : Option T) (l : List T) :
    ∀ x : Site, Decidable (∀ i, x = .received i → o = l[i]?)
  | .received i => decidable_of_iff (o = l[i]?)
      ⟨fun h _ hj => Site.received.inj hj ▸ h, fun h => h i rfl⟩
  | .lock | .test | .waiting | .woken | .shmOpen | .mmap | .place | .setDone | .unlock | .notify
  | .clearDone | .leave _ | .throwing | .published | .finished | .threw => isTrue nofun

instance [Fintype ι] [DecidableEq T] (call : ι → Call T) (s : SharedMem ι T) :
    ∀ a, Decidable (Spares call s a)
  | .place _ => inferInstanceAs (Decidable (∀ u i, s.site u = .received i → _))
  | .lock _ | .test _ | .spurious _ | .relock _ | .shmOpen _ _ | .mmap _ _ | .setDone _ | .unlock _
  | .notify _ _ | .clearDone _ | .leave _ _ | .unwind _ | .destroy _ => isTrue trivial

/-! ### What a completion finds -/

/-- Where the calls are, and what `work_done` says of the region. -/
structure Handed (call : ι → Call T) (s : SharedMem ι T) : Prop where
  producer : ∀ t, s.site t = .place ∨ s.site t = .setDone → ∃ b, call t = .producer b
  consumer : ∀ t, s.site t = .clearDone → call t = .consumer
  written : ∀ t, s.site t = .setDone → s.cell = (call t).buffer
  full : s.workDone = true → s.placed.length = s.taken + 1 ∧ s.cell = s.placed[s.taken]?
  empty : s.workDone = false → s.placed.length = s.taken
  leaving : ∀ t i, s.site t = .leave i → i < s.placed.length ∧ s.cell = s.placed[i]?
  received : ∀ t i, s.site t = .received i → i < s.placed.length
  completions : s.completions = turns (s.placed.length + s.taken)

/-- A step from place to place that leaves `work_done` and the region. -/
theorem Handed.goto (h : Handed call s) {o : Option ι}
    (hplace : x = .place → ∃ b, call t = .producer b) (hclear : x = .clearDone → call t = .consumer)
    (hset : x ≠ .setDone) (hleave : ∀ i, x ≠ .leave i)
    (hreceived : ∀ i, x = .received i → i < s.placed.length) :
    Handed call { s.goto t x with owner := o } := by
  have split : ∀ {u y}, (s.goto t x).site u = y → x = y ∧ u = t ∨ s.site u = y := by
    intro u y hu
    by_cases hxy : x = y
    · by_cases hut : u = t
      · exact Or.inl ⟨hxy, hut⟩
      · rw [goto_site_of_ne hut] at hu
        exact Or.inr hu
    · exact Or.inr (site_of_goto hu hxy)
  refine ⟨?_, ?_, ?_, h.full, h.empty, ?_, ?_, h.completions⟩
  · intro u hu
    rcases hu with hu | hu
    · rcases split hu with ⟨hx, rfl⟩ | hu
      · exact hplace hx
      · exact h.producer u (Or.inl hu)
    · exact h.producer u (Or.inr ((split hu).resolve_left fun hx => hset hx.1))
  · intro u hu
    rcases split hu with ⟨hx, rfl⟩ | hu
    · exact hclear hx
    · exact h.consumer u hu
  · exact fun u hu => h.written u ((split hu).resolve_left fun hx => hset hx.1)
  · exact fun u i hu => h.leaving u i ((split hu).resolve_left fun hx => hleave i hx.1)
  · intro u i hu
    rcases split hu with ⟨hx, rfl⟩ | hu
    · exact hreceived i hx
    · exact h.received u i hu

/-- Such a step to a place that says nothing. -/
theorem Handed.goto_plain (h : Handed call s) {o : Option ι} (hx : ¬ x.isGranted)
    (hleave : ∀ i, x ≠ .leave i) (hreceived : ∀ i, x ≠ .received i) :
    Handed call { s.goto t x with owner := o } := by
  refine h.goto ?_ ?_ ?_ hleave fun i hi => absurd hi (hreceived i)
  · rintro rfl
    exact (hx trivial).elim
  · rintro rfl
    exact (hx trivial).elim
  · rintro rfl
    exact hx trivial

/-- After a step of the thread inside, nobody else is inside. -/
theorem eq_of_inside (hr : (machine call).Reachable s) (hin : (s.site t).stand = .inside)
    (hu : ((s.goto t x).site u).stand = .inside) : u = t := by
  by_cases hut : u = t
  · exact hut
  · rw [goto_site_of_ne hut] at hu
    exact inside_unique hr hu hin

theorem Handed.place (h : Handed call s) (hr : (machine call).Reachable s)
    (hat : s.site t = .place) : Handed call (s.step call (.place t)) := by
  have hin : (s.site t).stand = .inside := congrArg Site.stand hat
  have here : ∀ {u}, ((s.goto t .setDone).site u).stand = .inside → u = t := eq_of_inside hr hin
  obtain ⟨b, hb⟩ := h.producer t (Or.inl hat)
  have hfree : s.workDone = false := by
    have hready := granted hr t (hat ▸ trivial)
    simpa [hb, Call.isReady] using hready
  refine ⟨?_, ?_, ?_, ?_, h.empty, ?_, ?_, h.completions⟩
  · intro u hu
    have hut : u = t := by
      rcases hu with hu | hu
      · exact here (congrArg Site.stand hu)
      · exact here (congrArg Site.stand hu)
    exact ⟨b, hut ▸ hb⟩
  · intro u hu
    obtain rfl := here (congrArg Site.stand hu)
    exact absurd ((goto_site s u .setDone).symm.trans hu) (by simp)
  · intro u hu
    obtain rfl := here (congrArg Site.stand hu)
    rfl
  · intro hdone
    exact absurd (hfree.symm.trans hdone) (by simp)
  · intro u i hu
    obtain rfl := here (congrArg Site.stand hu)
    exact absurd ((goto_site s u .setDone).symm.trans hu) (by simp)
  · exact fun u i hu => h.received u i (site_of_goto hu (by simp))

theorem Handed.setDone (h : Handed call s) (hr : (machine call).Reachable s)
    (hat : s.site t = .setDone) : Handed call (s.step call (.setDone t)) := by
  have hin : (s.site t).stand = .inside := congrArg Site.stand hat
  have gone : ∀ {u y}, (s.goto t .unlock).site u = y → y.stand = .inside → y = .unlock := by
    intro u y hu hy
    obtain rfl := eq_of_inside hr hin (hu ▸ hy)
    exact hu.symm.trans (goto_site s u .unlock)
  obtain ⟨b, hb⟩ := h.producer t (Or.inr hat)
  have hfree : s.workDone = false := by
    have hready := granted hr t (hat ▸ trivial)
    simpa [hb, Call.isReady] using hready
  have hlength : s.placed.length = s.taken := h.empty hfree
  have hcell : s.cell = some b := by
    rw [h.written t hat, hb]
    rfl
  have hplaced : (s.step call (.setDone t)).placed = s.placed ++ [b] := by
    show s.placed ++ (call t).buffer.toList = _
    rw [hb]
    rfl
  refine ⟨?_, ?_, ?_, ?_, ?_, ?_, ?_, ?_⟩
  · intro u hu
    rcases hu with hu | hu
    · exact nomatch gone hu rfl
    · exact nomatch gone hu rfl
  · exact fun u hu => nomatch gone hu rfl
  · exact fun u hu => nomatch gone hu rfl
  · intro _
    rw [hplaced]
    refine ⟨by simp [hlength, SharedMem.step, SharedMem.goto], ?_⟩
    show s.cell = (s.placed ++ [b])[s.taken]?
    rw [hcell, ← hlength, List.getElem?_concat_length]
  · exact fun hdone => absurd hdone (by simp [SharedMem.step])
  · exact fun u i hu => nomatch gone hu rfl
  · intro u i hu
    have hlt := h.received u i (site_of_goto hu (by simp))
    rw [hplaced, List.length_append]
    omega
  · show s.completions ++ [.producer] = turns ((s.step call (.setDone t)).placed.length + s.taken)
    have hturn : s.placed.length + 1 + s.taken = s.placed.length + s.taken + 1 := by omega
    have heven : (s.placed.length + s.taken) % 2 = 0 := by omega
    rw [hplaced, List.length_append, List.length_singleton, hturn, turns, if_pos heven,
      h.completions]

theorem Handed.clearDone (h : Handed call s) (hr : (machine call).Reachable s)
    (hat : s.site t = .clearDone) : Handed call (s.step call (.clearDone t)) := by
  have hin : (s.site t).stand = .inside := congrArg Site.stand hat
  have gone : ∀ {u y}, (s.goto t (.leave s.taken)).site u = y → y.stand = .inside →
      y = .leave s.taken := by
    intro u y hu hy
    obtain rfl := eq_of_inside hr hin (hu ▸ hy)
    exact hu.symm.trans (goto_site s u (.leave s.taken))
  have hdone : s.workDone = true := by
    have hready := granted hr t (hat ▸ trivial)
    simpa [h.consumer t hat, Call.isReady] using hready
  obtain ⟨hlength, hcell⟩ := h.full hdone
  refine ⟨?_, ?_, ?_, ?_, fun _ => hlength, ?_, ?_, ?_⟩
  · intro u hu
    rcases hu with hu | hu
    · exact nomatch gone hu rfl
    · exact nomatch gone hu rfl
  · exact fun u hu => nomatch gone hu rfl
  · exact fun u hu => nomatch gone hu rfl
  · exact fun hset => absurd hset (by simp [SharedMem.step])
  · intro u i hu
    obtain rfl : i = s.taken := Site.leave.inj (gone hu rfl)
    exact ⟨by show s.taken < s.placed.length; omega, hcell⟩
  · exact fun u i hu => h.received u i (site_of_goto hu (by simp))
  · show s.completions ++ [.consumer] = turns (s.placed.length + (s.taken + 1))
    have hodd : ¬ (s.placed.length + s.taken) % 2 = 0 := by omega
    rw [← Nat.add_assoc, turns, if_neg hodd, h.completions]

theorem Handed.step (h : Handed call s) (hr : (machine call).Reachable s) (ha : s.enabled a) :
    Handed call (s.step call a) := by
  cases a with
  | lock t | relock t | spurious t | unlock t | unwind t | destroy t =>
      exact h.goto_plain id (by simp) (by simp)
  | test t =>
      show Handed call (if _ then _ else _)
      split
      · exact h.goto (o := s.owner) (by simp) (by simp) (by simp) (by simp) (by simp)
      · exact h.goto_plain id (by simp) (by simp)
  | shmOpen t ok =>
      cases ok with
      | false => exact h.goto_plain (o := s.owner) id (by simp) (by simp)
      | true => exact h.goto (o := s.owner) (by simp) (by simp) (by simp) (by simp) (by simp)
  | mmap t ok =>
      cases ok with
      | false => exact h.goto_plain (o := s.owner) id (by simp) (by simp)
      | true =>
          show Handed call (s.goto t (if (call t).isProducer then _ else _))
          cases hcall : call t with
          | producer b =>
              exact h.goto (o := s.owner) (x := .place) (fun _ => ⟨b, hcall⟩) (by simp) (by simp)
                (by simp) (by simp)
          | consumer =>
              exact h.goto (o := s.owner) (x := .clearDone) (by simp) (fun _ => hcall) (by simp)
                (by simp) (by simp)
  | place t => exact h.place hr ha
  | setDone t => exact h.setDone hr ha
  | clearDone t => exact h.clearDone hr ha
  | leave t i =>
      have hat : s.site t = .leave i := ha
      refine h.goto (by simp) (by simp) (by simp) (by simp) ?_
      intro j hj
      obtain rfl := Site.received.inj hj
      exact (h.leaving t i hat).1
  | notify t w =>
      cases w with
      | none => exact h.goto_plain (o := s.owner) id (by simp) (by simp)
      | some u =>
          have hwoken : Handed call (s.goto u .woken) :=
            h.goto_plain (o := s.owner) id (by simp) (by simp)
          exact hwoken.goto_plain (o := s.owner) id (by simp) (by simp)

theorem handed (h : (machine call).Reachable s) : Handed call s := by
  refine h.invariant (P := Handed call) ?_ ?_
  · exact ⟨by simp [machine], by simp [machine], by simp [machine], by simp [machine],
      fun _ => rfl, by simp [machine], by simp [machine], rfl⟩
  · exact fun s a hr hs ha => hs.step hr ha

/-! ### What a pointer shows -/

omit [DecidableEq ι] in
/-- A step that leaves the region, and after which no other pointer is in use. -/
theorem Sees.of_sites (h : Sees s) {s' : SharedMem ι T} (hcell : s'.cell = s.cell)
    (hplaced : s'.placed = s.placed)
    (hsite : ∀ u i, s'.site u = .received i → s.site u = .received i) : Sees s' := by
  intro u i hu
  rw [hcell, hplaced]
  exact h u i (hsite u i hu)

/-- **Only a producer that writes the region can spoil what a pointer shows.** -/
theorem sees_step (hr : (machine call).Reachable s) (ha : s.enabled a) (h : Sees s) :
    Sees (s.step call a) ↔ Spares call s a := by
  have hand := handed hr
  -- a step of `t` to another place than that of a consumer that has returned
  have keep : ∀ {s' : SharedMem ι T} {t x}, s'.site = (s.goto t x).site → s'.cell = s.cell →
      s'.placed = s.placed → (∀ i, x ≠ .received i) → (Sees s' ↔ True) := by
    intro s' t x hsite hcell hplaced hx
    refine iff_true_intro (h.of_sites hcell hplaced fun u i hu => ?_)
    rw [hsite] at hu
    exact site_of_goto hu (hx i)
  cases a with
  | lock t | relock t | spurious t | unlock t | unwind t | destroy t | clearDone t =>
      exact keep rfl rfl rfl (by simp)
  | test t =>
      show Sees (if _ then _ else _) ↔ True
      split
      · exact keep rfl rfl rfl (by simp)
      · exact keep rfl rfl rfl (by simp)
  | shmOpen t ok => cases ok <;> exact keep rfl rfl rfl (by simp)
  | mmap t ok =>
      refine keep rfl rfl rfl fun i => ?_
      cases ok
      · simp
      · cases (call t).isProducer <;> simp
  | notify t w =>
      cases w with
      | none => exact keep rfl rfl rfl (by simp)
      | some u =>
          refine iff_true_intro (h.of_sites rfl rfl fun v i hv => ?_)
          exact site_of_goto (site_of_goto hv (by simp)) (by simp)
  | leave t i =>
      refine iff_true_intro fun u j hu => ?_
      by_cases hut : u = t
      · subst hut
        obtain rfl := Site.received.inj ((goto_site s u (.received i)).symm.trans hu)
        exact (hand.leaving u i ha).2
      · rw [show (s.step call (.leave t i)).site u = s.site u from goto_site_of_ne hut ..] at hu
        exact h u j hu
  | setDone t =>
      refine iff_true_intro fun u i hu => ?_
      have hu' : s.site u = .received i := site_of_goto hu (by simp)
      show s.cell = (s.placed ++ (call t).buffer.toList)[i]?
      rw [List.getElem?_append_left (hand.received u i hu')]
      exact h u i hu'
  | place t =>
      have hat : s.site t = .place := ha
      refine forall_congr' fun u => forall_congr' fun i => imp_congr_left ?_
      show (s.goto t .setDone).site u = .received i ↔ s.site u = .received i
      by_cases hut : u = t
      · rw [hut, goto_site, hat]
        simp
      · rw [goto_site_of_ne hut]

/-! ### The handoff -/

/--
**Each consumer sees the buffer of its own producer exactly where no producer writes another
one while it looks.**  In every run the completions take turns.  Every pointer that a consumer
returned shows the buffer of its producer, all along a run, exactly when each producer of
the run writes only what the pointers in use show already.
-/
theorem own_buffer_seen (call : ι → Call T) (tr : List (Action ι))
    (hl : (machine call).Legal (machine call).init tr) :
    (∃ n, ((machine call).after (machine call).init tr).completions = turns n) ∧
    ((∀ pre, pre <+: tr → Sees ((machine call).after (machine call).init pre)) ↔
      ((machine call).restrict (Spares call)).Legal (machine call).init tr) := by
  refine ⟨⟨_, (handed (Machine.reachable_after hl)).completions⟩, ?_⟩
  refine Machine.always_iff ?_ ?_ hl
  · exact fun t i hat => nomatch hat
  · intro s a hr ha h
    exact sees_step hr ha h

/-- Two producers with a consumer between them. -/
def thereAndAgain : Fin 3 → Call Nat
  | 0 => .producer 7
  | 1 => .consumer
  | 2 => .producer 8

/-- The first buffer is handed over. -/
def handedOver : List (Action (Fin 3)) :=
  [.lock 0, .test 0, .shmOpen 0 true, .mmap 0 true, .place 0, .setDone 0, .unlock 0, .notify 0 none,
    .lock 1, .test 1, .shmOpen 1 true, .mmap 1 true, .clearDone 1, .leave 1 0]

/-- The second producer comes as far as to write its buffer. -/
def overwriting : List (Action (Fin 3)) :=
  [.lock 2, .test 2, .shmOpen 2 true, .mmap 2 true, .place 2]

theorem own_buffer_seen_handedOver :
    (∃ n, ((machine thereAndAgain).after (machine thereAndAgain).init
      (handedOver ++ .destroy 1 :: overwriting)).completions = turns n) ∧
    ∀ pre, pre <+: handedOver ++ .destroy 1 :: overwriting →
      Sees ((machine thereAndAgain).after (machine thereAndAgain).init pre) := by
  obtain ⟨hturns, hsees⟩ := own_buffer_seen thereAndAgain (handedOver ++ .destroy 1 :: overwriting)
    (by decide +kernel)
  exact ⟨hturns, hsees.mpr (by decide +kernel)⟩

/-- Before the pointer is destroyed, it shows the second buffer. -/
theorem other_buffer_seen : ¬ ∀ s, (machine thereAndAgain).Reachable s → Sees s := by
  intro hall
  have hl : (machine thereAndAgain).Legal (machine thereAndAgain).init
      (handedOver ++ overwriting) := by decide +kernel
  have hsees := hall _ (Machine.reachable_after hl) 1 0 (by decide +kernel)
  revert hsees
  decide +kernel

end LinuxSystems.SharedMem
