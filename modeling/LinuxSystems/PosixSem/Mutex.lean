/-
Whether the semaphore is a mutex.

Its value and the threads between a wait and the post that belongs to it add up to the
permits there ever were: the one of `sem_init`, and one for every post outside the loops.
So it is a mutex up to the first of these, which the consumer makes before anything else.
After it a thread that waits is alone exactly where it finds more permits than posts
outside the loops were made.
-/
import LinuxSystems.PosixSem.Model
import LinuxSystems.Machine.TwoParties

namespace LinuxSystems.PosixSem

variable {value : Nat} {countLimit : Int} {s : PosixSem} {r u : Role} {x : Site}

/-! ### What is wanted of the semaphore -/

/-- Between a `sem_wait` and the `sem_post` that belongs to it. -/
def Site.isInside : Site → Prop
  | .announce | .testFlag | .load | .store _ | .report _ | .setFlag | .post => True
  | .entryPost | .loadCounter | .storeCounter _ | .wait | .yield | .finalPost | .exited => False

/-- At most one thread is inside. -/
def Exclusive (s : PosixSem) : Prop := ∀ r, (s.site r).isInside → ¬ (s.site r.other).isInside

/-- The posts outside the loop that a thread has made. -/
def Role.extraPosts : Role → Site → Nat
  | .producer, .exited => 1
  | .producer, _ => 0
  | .consumer, .entryPost => 0
  | .consumer, .exited => 2
  | .consumer, _ => 1

def extraPosts (s : PosixSem) : Nat :=
  Role.producer.extraPosts (s.site .producer) + Role.consumer.extraPosts (s.site .consumer)

/-- A thread that passes its wait finds more permits than there were extra posts. -/
def FindsSpare (s : PosixSem) (r : Role) : Prop := s.site r = .wait → s.extraPosts < s.sem

instance (s : PosixSem) (r : Role) : Decidable (FindsSpare s r) :=
  inferInstanceAs (Decidable (s.site r = .wait → s.extraPosts < s.sem))

/-! ### The two threads -/

theorem Role.two : TwoParties Role.other where
  ne r := by cases r <;> exact fun h => Role.noConfusion h
  eq_or r u := by cases r <;> cases u <;> simp [Role.other]

@[simp] theorem Role.other_ne (r : Role) : r.other ≠ r := Role.two.ne r

@[simp] theorem Role.other_other (r : Role) : r.other.other = r := Role.two.other_other r

@[simp] theorem goto_site (s : PosixSem) (r : Role) (x : Site) : (s.goto r x).site r = x :=
  Function.update_self ..

@[simp] theorem goto_site_other (s : PosixSem) (r : Role) (x : Site) :
    (s.goto r x).site r.other = s.site r.other := Function.update_of_ne r.other_ne ..

/-- The thread that does not move stays where it is. -/
theorem step_site_other (countLimit : Int) (s : PosixSem) (r : Role) :
    (s.step countLimit r).site r.other = s.site r.other := by
  unfold step
  cases s.site r <;> first | rfl | exact goto_site_other ..

/-! ### The permits -/

/-- The permits with a thread. -/
def Site.permits : Site → Nat
  | .announce | .testFlag | .load | .store _ | .report _ | .setFlag | .post => 1
  | .entryPost | .loadCounter | .storeCounter _ | .wait | .yield | .finalPost | .exited => 0

theorem permits_of_inside (h : x.isInside) : x.permits = 1 := by
  cases x <;> first | rfl | exact h.elim

theorem inside_of_permits (h : x.permits ≠ 0) : x.isInside := by
  cases x with
  | announce | testFlag | load | store v | report v | setFlag | post => trivial
  | _ => exact absurd rfl h

/-- The permits in the semaphore and with the threads. -/
def permits (s : PosixSem) : Nat :=
  s.sem + ((s.site .producer).permits + (s.site .consumer).permits)

theorem permits_at (r : Role) :
    s.permits = s.sem + ((s.site r).permits + (s.site r.other).permits) :=
  congrArg (s.sem + ·) (Role.two.add_other rfl (fun r => (s.site r).permits) r).symm

theorem extraPosts_at (r : Role) :
    s.extraPosts = r.extraPosts (s.site r) + r.other.extraPosts (s.site r.other) :=
  (Role.two.add_other rfl (fun r => r.extraPosts (s.site r)) r).symm

/-- Each permit is the first one or comes from an extra post. -/
structure Permitted (value : Nat) (s : PosixSem) : Prop where
  permits : s.permits = value + s.extraPosts
  /-- Only the consumer posts before its loop. -/
  entry : s.site .producer ≠ .entryPost

/-- A step changes the permits by its extra posts. -/
theorem permits_step (countLimit : Int) (hentry : s.site .producer ≠ .entryPost) (ha : s.enabled r) :
    (s.step countLimit r).sem + ((s.step countLimit r).site r).permits +
        r.extraPosts (s.site r) =
      s.sem + (s.site r).permits + r.extraPosts ((s.step countLimit r).site r) := by
  unfold enabled at ha
  unfold step
  cases hat : s.site r with
  | entryPost =>
      cases r with
      | producer => exact absurd hat hentry
      | consumer => simp [goto, Site.permits, Role.extraPosts]
  | wait =>
      rw [hat] at ha
      have hpos : 0 < s.sem := ha
      cases r <;> simp [goto, Site.permits, Role.extraPosts] <;> omega
  | exited =>
      rw [hat] at ha
      exact ha.elim
  | storeCounter v =>
      cases hgoes : r.goes countLimit v <;> cases r <;>
        simp [goto, hgoes, Site.permits, Role.extraPosts]
  | testFlag =>
      by_cases hflag : s.fullFlag = r.expects <;> cases r <;>
        simp [goto, hflag, Site.permits, Role.extraPosts]
  | loadCounter | announce | load | store v | report v | setFlag | post | yield | finalPost =>
      cases r <;> simp [goto, Site.permits, Role.extraPosts]

/-- No step leads to the post before the loop. -/
theorem step_site_entry (hne : s.site r ≠ .entryPost) :
    (s.step countLimit r).site r ≠ .entryPost := by
  unfold step
  cases hat : s.site r with
  | entryPost => exact absurd hat hne
  | storeCounter v => cases hgoes : r.goes countLimit v <;> simp [goto, hgoes]
  | testFlag => by_cases hflag : s.fullFlag = r.expects <;> simp [goto, hflag]
  | exited => simp [hat]
  | loadCounter | wait | announce | load | store v | report v | setFlag | post | yield
  | finalPost => simp [goto]

theorem Permitted.step (h : Permitted value s) (ha : s.enabled r) :
    Permitted value (s.step countLimit r) := by
  have hother := step_site_other countLimit s r
  refine ⟨?_, ?_⟩
  · have hstep := permits_step countLimit h.entry ha
    have hpermits := h.permits
    rw [permits_at r, extraPosts_at r] at hpermits
    rw [permits_at r, extraPosts_at r, hother]
    omega
  · cases r with
    | producer => exact step_site_entry h.entry
    | consumer =>
        rw [show Role.producer = Role.consumer.other from rfl, hother]
        exact h.entry

theorem permitted (h : (machineFrom value countLimit).Reachable s) : Permitted value s := by
  refine h.invariant (P := Permitted value) ⟨rfl, Site.noConfusion⟩ ?_
  exact fun s r _ hs ha => hs.step ha

/-! ### Being alone -/

theorem Site.permits_le (x : Site) : x.permits ≤ 1 := by
  cases x <;> simp [Site.permits]

theorem exclusive_iff (r : Role) :
    Exclusive s ↔ (s.site r).permits + (s.site r.other).permits ≤ 1 := by
  constructor
  · intro h
    by_contra hlt
    have hr := (s.site r).permits_le
    have ho := (s.site r.other).permits_le
    have hin : (s.site r).isInside := inside_of_permits (by omega)
    exact h r hin (inside_of_permits (by omega))
  · intro h u hin hother
    have hsum : (s.site u).permits + (s.site u.other).permits ≤ 1 := by
      rcases Role.two.eq_or r u with rfl | rfl
      · exact h
      · rw [Role.other_other, Nat.add_comm]
        exact h
    rw [permits_of_inside hin, permits_of_inside hother] at hsum
    omega

/-- Only a wait lets a thread in. -/
theorem permits_step_le (countLimit : Int) (hwait : s.site r ≠ .wait) :
    ((s.step countLimit r).site r).permits ≤ (s.site r).permits := by
  unfold step
  cases hat : s.site r with
  | wait => exact absurd hat hwait
  | storeCounter v => cases hgoes : r.goes countLimit v <;> simp [goto, hgoes, Site.permits]
  | testFlag => by_cases hflag : s.fullFlag = r.expects <;> simp [goto, hflag, Site.permits]
  | exited => simp [hat]
  | entryPost | loadCounter | announce | load | store v | report v | setFlag | post | yield
  | finalPost => simp [goto, Site.permits]

/-- A step from where at most one is inside leads to where two are exactly when it passes a
wait and finds no permit to spare. -/
theorem exclusive_step (hs : (machine countLimit).Reachable s) (h : Exclusive s) :
    Exclusive (s.step countLimit r) ↔ FindsSpare s r := by
  have hper := (permitted hs).permits
  have hsum := (exclusive_iff r).mp h
  rw [exclusive_iff r, step_site_other]
  by_cases hwait : s.site r = .wait
  · have hsite : (s.step countLimit r).site r = .announce := by
      unfold step
      rw [hwait]
      exact goto_site ..
    have hin : Site.announce.permits = 1 := rfl
    have hout : Site.wait.permits = 0 := rfl
    rw [permits_at r, hwait, hout] at hper
    rw [hsite, hin]
    constructor
    · intro hle _
      omega
    · intro hspare
      have hlt := hspare hwait
      omega
  · have hle := permits_step_le countLimit hwait
    exact ⟨fun _ hat => absurd hat hwait, fun _ => by omega⟩

/-- The producer passes its test and its wait, and then the consumer does. -/
def bothIn : List Role :=
  [.producer, .producer, .producer, .consumer, .consumer, .consumer, .consumer]

theorem bothIn_legal (h : 0 < countLimit) :
    (machine countLimit).Legal (machine countLimit).init bothIn ∧
      ¬ Exclusive ((machine countLimit).after (machine countLimit).init bothIn) := by
  have hp : Role.producer.goes countLimit 0#16 = true := decide_eq_true h
  have hc : Role.consumer.goes countLimit 1#16 = true := by
    refine decide_eq_true ?_
    show (1 : Int) ≤ countLimit
    omega
  refine ⟨?_, fun hexcl => hexcl .producer ?_ ?_⟩
  · simp [bothIn, machineFrom, enabled, step, goto, Role.entry, Site.Passable, hp, hc]
  · simp [bothIn, machineFrom, step, goto, Role.entry, hp, hc, Site.isInside]
  · simp [bothIn, machineFrom, step, goto, Role.entry, Role.other, hp, hc, Site.isInside]

/-- Without an iteration of its own the producer is never inside. -/
theorem producer_outside (hlimit : countLimit ≤ 0) (h : (machine countLimit).Reachable s) :
    ¬ (s.site .producer).isInside ∧ s.site .producer ≠ .wait := by
  refine h.invariant (P := fun s => ¬ (s.site .producer).isInside ∧ s.site .producer ≠ .wait)
    ⟨id, Site.noConfusion⟩ ?_
  intro s r _ ⟨hin, hwait⟩ _
  show ¬ ((s.step countLimit r).site .producer).isInside ∧ (s.step countLimit r).site .producer ≠ .wait
  cases r with
  | consumer =>
      rw [show Role.producer = Role.consumer.other from rfl, step_site_other]
      exact ⟨hin, hwait⟩
  | producer =>
      unfold step
      cases hat : s.site .producer with
      | storeCounter v =>
          have hgoes : Role.producer.goes countLimit v = false := by
            refine decide_eq_false ?_
            omega
          simp [goto, hgoes, Site.isInside]
      | wait => exact absurd hat hwait
      | announce | testFlag | load | store v | report v | setFlag | post =>
          rw [hat] at hin
          exact absurd trivial hin
      | exited => simp [hat, Site.isInside]
      | entryPost | loadCounter | yield | finalPost => simp [goto, Site.isInside]

theorem exclusive_always_iff :
    (∀ s, (machine countLimit).Reachable s → Exclusive s) ↔ countLimit ≤ 0 := by
  constructor
  · intro h
    by_contra hpos
    have hlimit : 0 < countLimit := by omega
    obtain ⟨hlegal, hboth⟩ := bothIn_legal hlimit
    exact hboth (h _ (Machine.reachable_after hlegal))
  · intro hlimit s hs r hin hother
    have hout := (producer_outside hlimit hs).1
    cases r
    · exact hout hin
    · exact hout hother

/--
**When the semaphore is a mutex.**  In a run there is never more than one thread inside exactly
when every thread that passes its wait finds more permits than extra posts were made.  All
runs are such only where the producer's loop has no iteration.
-/
theorem semaphore_excludes (countLimit : Int) :
    (∀ tr, (machine countLimit).Legal (machine countLimit).init tr →
      ((∀ pre, pre <+: tr → Exclusive ((machine countLimit).after (machine countLimit).init pre)) ↔
        ((machine countLimit).restrict FindsSpare).Legal (machine countLimit).init tr)) ∧
    ((∀ s, (machine countLimit).Reachable s → Exclusive s) ↔ countLimit ≤ 0) := by
  refine ⟨fun tr hl => ?_, exclusive_always_iff⟩
  exact Machine.always_iff (P := Exclusive) (fun r hin => by cases r <;> exact hin.elim)
    (fun s r hs _ h => exclusive_step hs h) hl

/-- The producer goes in and out, and the consumer after it. -/
def inTurn : List Role := List.replicate 10 .producer ++ List.replicate 4 .consumer

theorem semaphore_excludes_inTurn :
    Exclusive ((machine 100).after (machine 100).init inTurn) :=
  ((semaphore_excludes 100).1 inTurn (by decide +kernel)).mpr (by decide +kernel) _ List.prefix_rfl

/-- With the limit of the program. -/
theorem semaphore_admits_both : (machine 100).Legal (machine 100).init bothIn ∧
    ¬ Exclusive ((machine 100).after (machine 100).init bothIn) :=
  bothIn_legal (by decide)

end LinuxSystems.PosixSem
