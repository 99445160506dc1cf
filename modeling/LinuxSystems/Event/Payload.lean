/-
What the receivers read, where the calls are made one after another.

The shared memory object is a sequence of bytes that are zero until they are written, the same
for every mapping.  A call of `notify` sets the length of the object, maps it and constructs its
buffer at the front; then it resumes the coroutine, which sets the length, maps the object on its
own account and prints what it finds at the front.  Whether `ftruncate` and `mmap` succeed is part
of the action.  A length that has room for the buffer cuts nothing off it, so only `mmap` matters.

A call whose `mmap` failed writes that to the error output, and resumes the coroutine all the
same.  What the coroutine reads then is what the object held before: zeros, or the buffer of an
earlier call.
-/
import LinuxSystems.Event.Model
import LinuxSystems.Machine.Simulation
import Mathlib.Data.Fintype.Basic

namespace LinuxSystems

namespace Event

/-- The arguments of the calls: a type of `n` bytes, the buffer of each `notify`, and the sizes, in
which the buffer has room. -/
structure Arguments (R N : Type*) where
  n : Nat
  buffer : N → Fin n → UInt8
  notifySize : N → Nat
  receiverSize : R → Nat
  le_notifySize : ∀ j, n ≤ notifySize j
  le_receiverSize : ∀ r, n ≤ receiverSize r

/-- Which of the two calls that map the object succeed. -/
structure Mapping where
  truncated : Bool
  mapped : Bool

/-- A receiver that read the object, the call of `notify` that continued it, and what it read. -/
structure Read (R N : Type*) (n : Nat) where
  receiver : R
  call : Option N
  value : Fin n → UInt8

end Event

open Event

/-- The event, the receivers and the shared memory object between two calls. -/
structure EventCalls (R N : Type*) (n : Nat) where
  suspended : Option R
  notified : Bool
  frame : R → Frame
  /-- The calls of `notify` that were made. -/
  called : N → Bool
  bytes : Nat → UInt8
  reads : List (Read R N n)

namespace EventCalls

variable {R N : Type*} {n : Nat}

/-- `ftruncate`, or nothing where it fails: what lies behind the new end is gone. -/
def truncate (ok : Bool) (size : Nat) (bytes : Nat → UInt8) : Nat → UInt8 :=
  fun i => if ok = true ∧ size ≤ i then 0 else bytes i

/-- `new (ptr) T(buffer)`. -/
def write (buffer : Fin n → UInt8) (bytes : Nat → UInt8) : Nat → UInt8 :=
  fun i => if h : i < n then buffer ⟨i, h⟩ else bytes i

/-- `*res`. -/
def value (n : Nat) (bytes : Nat → UInt8) : Fin n → UInt8 := fun i => bytes i

/-- What a call of `notify` finds in `suspended`. -/
inductive Found (R : Type*) where
  | nobody
  | waiter (r : R)
  /-- The awaiter of a coroutine that is not suspended any more. -/
  | stale (r : R)

inductive Action (R N : Type*) where
  /-- A receiver is called; `read` is of use only if it does not wait. -/
  | await (r : R) (read : Mapping)
  | notify (j : N) (found : Found R) (write read : Mapping)

def Finds (s : EventCalls R N n) : Found R → Prop
  | .nobody => s.suspended = none
  | .waiter r => s.suspended = some r ∧ s.frame r = .suspended
  | .stale r => s.suspended = some r ∧ s.frame r ≠ .suspended

def enabled (s : EventCalls R N n) : Action R N → Prop
  | .await r _ => s.frame r = .running
  | .notify j found _ _ => s.called j = false ∧ s.Finds found

instance [DecidableEq R] (s : EventCalls R N n) : ∀ found, Decidable (s.Finds found)
  | .nobody => inferInstanceAs (Decidable (s.suspended = none))
  | .waiter r => inferInstanceAs (Decidable (s.suspended = some r ∧ s.frame r = _))
  | .stale r => inferInstanceAs (Decidable (s.suspended = some r ∧ s.frame r ≠ _))

instance [DecidableEq R] (s : EventCalls R N n) : ∀ a, Decidable (s.enabled a)
  | .await r _ => inferInstanceAs (Decidable (s.frame r = _))
  | .notify _ found _ _ => inferInstanceAs (Decidable (_ ∧ s.Finds found))

variable [DecidableEq R] [DecidableEq N]

/-- The rest of `receiver`, which the call `j` has continued: the object is printed if it can be
mapped, and the frame is destroyed. -/
def continues (args : Arguments R N) (s : EventCalls R N args.n) (r : R) (j : Option N)
    (read : Mapping) : EventCalls R N args.n :=
  let bytes := truncate read.truncated (args.receiverSize r) s.bytes
  let s' := { s with bytes, frame := Function.update s.frame r .destroyed }
  if read.mapped then { s' with reads := s.reads ++ [⟨r, j, value args.n bytes⟩] } else s'

/-- `receiver` up to the point where it waits. -/
def await (args : Arguments R N) (s : EventCalls R N args.n) (r : R) (read : Mapping) :
    EventCalls R N args.n :=
  if s.notified then s.continues args r none read
  else { s with frame := Function.update s.frame r .suspended, suspended := some r }

/-- The call `j` writes its buffer to the object, if it can map it. -/
def publish (args : Arguments R N) (s : EventCalls R N args.n) (j : N) (write : Mapping) :
    EventCalls R N args.n :=
  let bytes := truncate write.truncated (args.notifySize j) s.bytes
  { s with bytes := if write.mapped then EventCalls.write (args.buffer j) bytes else bytes }

/-- `notify`.  A coroutine that is not suspended must not be resumed; what comes of it is left open
here, and nothing is read. -/
def notify (args : Arguments R N) (s : EventCalls R N args.n) (j : N) (write read : Mapping) :
    EventCalls R N args.n :=
  let s' := { s with notified := false, called := Function.update s.called j true }
  match s.suspended with
  | none => s'
  | some r =>
      let s'' := s'.publish args j write
      if s.frame r = .suspended then s''.continues args r (some j) read else s''

def step (args : Arguments R N) (s : EventCalls R N args.n) : Action R N → EventCalls R N args.n
  | .await r read => s.await args r read
  | .notify j _ write read => s.notify args j write read

/-- `Event event{}`, and an object that reads as zeros. -/
def machine (args : Arguments R N) : Machine (EventCalls R N args.n) (Action R N) where
  init := ⟨none, false, fun _ => .running, fun _ => false, fun _ => 0, []⟩
  enabled := enabled
  next := step args

instance (args : Arguments R N) (s : EventCalls R N args.n) (a : Action R N) :
    Decidable ((machine args).enabled s a) :=
  inferInstanceAs (Decidable (s.enabled a))

variable {args : Arguments R N} {s : EventCalls R N args.n} {a : Action R N} {tr : List (Action R N)}

/-! ### The bytes of the object -/

omit [DecidableEq R] [DecidableEq N] in
/-- To cut off what lies behind the value leaves the value. -/
theorem value_truncate {size : Nat} (h : n ≤ size) (ok : Bool) (bytes : Nat → UInt8) :
    value n (truncate ok size bytes) = value n bytes := by
  funext i
  refine if_neg fun hcut => ?_
  exact absurd i.isLt (Nat.not_lt.mpr (h.trans hcut.2))

omit [DecidableEq R] [DecidableEq N] in
theorem value_write (buffer : Fin n → UInt8) (bytes : Nat → UInt8) :
    value n (write buffer bytes) = buffer := by
  funext i
  exact dif_pos i.isLt

omit [DecidableEq R] [DecidableEq N] in
/-- What the object holds once the call `j` has tried to write its buffer there. -/
theorem value_publish (j : N) (m : Mapping) :
    value args.n (s.publish args j m).bytes =
      if m.mapped then args.buffer j else value args.n s.bytes := by
  unfold publish
  dsimp only
  split
  · exact value_write _ _
  · exact value_truncate (args.le_notifySize j) _ _

/-! ### One call after another -/

omit [DecidableEq N] in
/-- What a receiver that is continued adds to what was read. -/
theorem continues_reads (r : R) (j : Option N) (read : Mapping) :
    (s.continues args r j read).reads =
      s.reads ++ if read.mapped then [⟨r, j, value args.n s.bytes⟩] else [] := by
  unfold continues
  cases read.mapped with
  | true => simp only [if_true, value_truncate (args.le_receiverSize r)]
  | false => simp

theorem notify_nobody {j : N} {write read : Mapping} (hnone : s.suspended = none) :
    s.notify args j write read =
      { s with notified := false, called := Function.update s.called j true } := by
  rw [notify, hnone]

theorem notify_waiter {j : N} {r : R} {write read : Mapping} (hsome : s.suspended = some r)
    (hframe : s.frame r = .suspended) :
    s.notify args j write read =
      (EventCalls.publish args
        { s with notified := false, called := Function.update s.called j true } j write).continues
        args r (some j) read := by
  rw [notify, hsome]
  exact if_pos hframe

theorem notify_stale {j : N} {r : R} {write read : Mapping} (hsome : s.suspended = some r)
    (hframe : s.frame r ≠ .suspended) :
    s.notify args j write read =
      EventCalls.publish args
        { s with notified := false, called := Function.update s.called j true } j write := by
  rw [notify, hsome]
  exact if_neg hframe

/-- A call that finds a coroutine suspended: what is read then is its buffer, if it could map the
object, and else what the object held. -/
theorem notify_reads {j : N} {r : R} {write read : Mapping} (hsome : s.suspended = some r)
    (hframe : s.frame r = .suspended) :
    (s.notify args j write read).reads = s.reads ++
      if read.mapped then
        [⟨r, some j, if write.mapped then args.buffer j else value args.n s.bytes⟩]
      else [] := by
  rw [notify_waiter hsome hframe, continues_reads, value_publish]
  rfl

/-- Nobody ever sets `notified`. -/
theorem notified_eq (h : (machine args).Reachable s) : s.notified = false := by
  refine h.invariant (P := fun s => s.notified = false) rfl ?_
  intro s a _ hs ha
  cases a with
  | await r read =>
      show (s.await args r read).notified = false
      rw [await, if_neg (by rw [hs]; exact Bool.false_ne_true)]
      exact hs
  | notify j found write read =>
      show (s.notify args j write read).notified = false
      unfold notify
      dsimp only
      split
      · rfl
      · split
        · unfold continues
          dsimp only
          split <;> rfl
        · rfl

/-! ### The steps of a call -/

/-- `notify` up to its `resume()`. -/
def publishing (j : N) (r : R) (ok : Bool) : List (Event.Action R N) :=
  .clear j :: .load j :: .mapWrite j r ok :: if ok then [.write j r] else []

/-- A suspended coroutine from the `resume()` on, to the end of both. -/
def continuing (j : N) (r : R) (ok : Bool) : List (Event.Action R N) :=
  .resume j r :: .mapRead r ok :: ((if ok then [.print r] else []) ++ [.returnNotify j r])

/-- The steps of the event that a call takes. -/
def events : Action R N → List (Event.Action R N)
  | .await r _ => [.await r, .check r, .store r, .returnTrue r]
  | .notify j .nobody _ _ => [.clear j, .load j]
  | .notify j (.waiter r) write read => publishing j r write.mapped ++ continuing j r read.mapped
  | .notify j (.stale r) write _ => publishing j r write.mapped ++ [.resume j r, .returnNotify j r]

/-- What the event is like between two calls. -/
structure Stands (args : Arguments R N) (t : Event R N (Fin args.n → UInt8))
    (s : EventCalls R N args.n) : Prop where
  suspended : t.suspended = s.suspended
  notified : t.notified = false ∧ s.notified = false
  frame : t.frame = s.frame
  call : ∀ j, s.called j = false → t.call j = .idle
  region : t.region = value args.n s.bytes
  printed : t.printed = s.reads.map fun x => (x.receiver, x.value)
  waker : ∀ x ∈ s.reads, t.waker x.receiver = x.call ∧ s.frame x.receiver = .destroyed
  settled : ∀ r, s.suspended = some r → s.frame r = .suspended ∨ s.frame r = .destroyed

variable {T : Type*} {t : Event R N T} {j : N} {r : R}

theorem after_publishing (zero : T) (buffer : N → T) (hcall : t.call j = .idle)
    (hsome : t.suspended = some r) (ok : Bool) :
    (Event.machine R N zero buffer).Legal t (publishing j r ok) ∧
      (Event.machine R N zero buffer).after t (publishing j r ok) =
        { t.setCall j (.resume r) with
          notified := false
          loads := t.loads ++ [r]
          region := if ok then buffer j else t.region } := by
  cases ok <;>
    simp [publishing, Event.machine, Event.step, Event.enabled, Event.setCall, hcall, hsome]

theorem after_continuing (zero : T) (buffer : N → T) (hcall : t.call j = .resume r)
    (hframe : t.frame r = .suspended) (ok : Bool) :
    (Event.machine R N zero buffer).Legal t (continuing j r ok) ∧
      (Event.machine R N zero buffer).after t (continuing j r ok) =
        { (t.setCall j .returned).setFrame r .destroyed with
          resumes := t.resumes ++ [(r, .suspended)]
          waker := Function.update t.waker r (some j)
          printed := t.printed ++ if ok then [(r, t.region)] else [] } := by
  cases ok <;>
    simp [continuing, Event.machine, Event.step, Event.enabled, Event.setCall, Event.setFrame,
      hcall, hframe]

theorem after_await (zero : T) (buffer : N → T) (hframe : t.frame r = .running)
    (hnotified : t.notified = false) :
    (Event.machine R N zero buffer).Legal t [.await r, .check r, .store r, .returnTrue r] ∧
      (Event.machine R N zero buffer).after t [.await r, .check r, .store r, .returnTrue r] =
        { (t.setFrame r .suspended).setAwait r .returned with suspended := some r } := by
  simp [Event.machine, Event.step, Event.enabled, Event.setAwait, Event.setFrame, hframe, hnotified]

namespace Stands

variable {t : Event R N (Fin args.n → UInt8)}

omit [DecidableEq R] in
theorem call_ne (h : Stands args t s) {x : Notify R} {k : N}
    (hk : Function.update s.called j true k = false) : Function.update t.call j x k = .idle := by
  have hkj : k ≠ j := by
    rintro rfl
    rw [Function.update_self] at hk
    exact Bool.noConfusion hk
  rw [Function.update_of_ne hkj] at hk ⊢
  exact h.call k hk

omit [DecidableEq R] [DecidableEq N] in
/-- Whoever has read before has come to its end. -/
theorem ne_of_read (h : Stands args t s) {x : Read R N args.n} (hx : x ∈ s.reads)
    (hframe : s.frame r ≠ .destroyed) : x.receiver ≠ r := by
  rintro rfl
  exact hframe (h.waker x hx).2

omit [DecidableEq N] in
theorem await (h : Stands args t s) (hframe : s.frame r = .running) (read : Mapping) :
    Stands args { (t.setFrame r .suspended).setAwait r .returned with suspended := some r }
      (s.await args r read) := by
  have heq : s.await args r read =
      { s with frame := Function.update s.frame r .suspended, suspended := some r } := by
    rw [EventCalls.await, if_neg (by rw [h.notified.2]; exact Bool.false_ne_true)]
  rw [heq]
  refine ⟨rfl, h.notified, ?_, h.call, h.region, h.printed, ?_, ?_⟩
  · exact congrArg (Function.update · r Frame.suspended) h.frame
  · intro x hx
    obtain ⟨hwaker, hdone⟩ := h.waker x hx
    have hne : x.receiver ≠ r := h.ne_of_read hx (by rw [hframe]; nofun)
    exact ⟨hwaker, (Function.update_of_ne hne ..).trans hdone⟩
  · intro r' hr'
    obtain rfl := Option.some.inj hr'
    exact Or.inl (Function.update_self ..)

omit [DecidableEq R] in
theorem nobody (h : Stands args t s) :
    Stands args { t.setCall j .returned with notified := false }
      { s with notified := false, called := Function.update s.called j true } :=
  ⟨h.suspended, ⟨rfl, rfl⟩, h.frame, fun _ hk => h.call_ne hk, h.region, h.printed, h.waker,
    h.settled⟩

omit [DecidableEq R] in
theorem publish (h : Stands args t s) (x : Notify R) (loads : List R) (resumes : List (R × Frame))
    (write : Mapping) :
    Stands args
      { t.setCall j x with
        notified := false
        loads
        resumes
        region := if write.mapped then args.buffer j else t.region }
      (EventCalls.publish args
        { s with notified := false, called := Function.update s.called j true } j write) := by
  refine ⟨h.suspended, ⟨rfl, rfl⟩, h.frame, fun _ hk => h.call_ne hk, ?_, h.printed, h.waker,
    h.settled⟩
  rw [value_publish, h.region]

theorem continues (h : Stands args t s) (hframe : s.frame r = .suspended)
    (hcalled : s.called j = true) (resumes : List (R × Frame)) (read : Mapping) :
    Stands args
      { (t.setCall j .returned).setFrame r .destroyed with
        resumes
        waker := Function.update t.waker r (some j)
        printed := t.printed ++ if read.mapped then [(r, t.region)] else [] }
      (s.continues args r (some j) read) := by
  have hrest : (s.continues args r (some j) read).suspended = s.suspended ∧
      (s.continues args r (some j) read).notified = s.notified ∧
      (s.continues args r (some j) read).frame = Function.update s.frame r .destroyed ∧
      (s.continues args r (some j) read).called = s.called ∧
      (s.continues args r (some j) read).bytes =
        truncate read.truncated (args.receiverSize r) s.bytes := by
    unfold EventCalls.continues
    dsimp only
    split <;> exact ⟨rfl, rfl, rfl, rfl, rfl⟩
  obtain ⟨hsuspended, hnotified, hframes, hcalls, hbytes⟩ := hrest
  refine ⟨?_, ?_, ?_, ?_, ?_, ?_, ?_, ?_⟩
  · rw [hsuspended]
    exact h.suspended
  · rw [hnotified]
    exact h.notified
  · rw [hframes]
    exact congrArg (Function.update · r Frame.destroyed) h.frame
  · intro k hk
    rw [hcalls] at hk
    have hkj : k ≠ j := by
      rintro rfl
      rw [hcalled] at hk
      exact Bool.noConfusion hk
    exact (Function.update_of_ne hkj ..).trans (h.call k hk)
  · rw [hbytes, value_truncate (args.le_receiverSize r)]
    exact h.region
  · rw [continues_reads, List.map_append, ← h.printed, ← h.region]
    cases read.mapped <;> rfl
  · intro x hx
    rw [hframes]
    rw [continues_reads] at hx
    rcases List.mem_append.mp hx with hx | hx
    · obtain ⟨hwaker, hdone⟩ := h.waker x hx
      have hne : x.receiver ≠ r := h.ne_of_read hx (by rw [hframe]; nofun)
      rw [Function.update_of_ne hne]
      exact ⟨(Function.update_of_ne hne ..).trans hwaker, hdone⟩
    · cases hread : read.mapped with
      | false =>
          rw [hread] at hx
          exact absurd hx List.not_mem_nil
      | true =>
          rw [hread] at hx
          obtain rfl := List.mem_singleton.mp hx
          exact ⟨Function.update_self .., Function.update_self ..⟩
  · intro r' hr'
    rw [hsuspended] at hr'
    rw [hframes]
    by_cases heq : r' = r
    · rw [heq, Function.update_self]
      exact Or.inr rfl
    · rw [Function.update_of_ne heq]
      exact h.settled r' hr'

end Stands

/-- **The calls one after another are calls of the event.**  Each is what some steps of it do that
nobody else's come between, and what is printed is what is read. -/
theorem realized (args : Arguments R N) :
    Machine.Realizes (Event.machine R N (fun _ => 0) args.buffer) (machine args) events
      (Stands args) := by
  refine ⟨⟨rfl, ⟨rfl, rfl⟩, rfl, fun _ _ => rfl, rfl, rfl, ?_, ?_⟩, ?_⟩
  · exact fun _ hx => absurd hx List.not_mem_nil
  · exact fun _ hr => nomatch hr
  · intro t s a h ha
    cases a with
    | await r read =>
        obtain ⟨hl, hafter⟩ := after_await (fun _ => 0) args.buffer
          ((congrFun h.frame r).trans ha) h.notified.1
        exact ⟨hl, hafter ▸ h.await ha read⟩
    | notify j found write read =>
        have hcall : t.call j = .idle := h.call j ha.1
        show _ ∧ Stands args _ (s.notify args j write read)
        cases found with
        | nobody =>
            have hnone : t.suspended = none := h.suspended.trans ha.2
            rw [notify_nobody ha.2]
            refine ⟨?_, ?_⟩
            · simp [events, Event.machine, Event.enabled, Event.step, Event.setCall, hcall]
            · have hafter : (Event.machine R N (fun _ => 0) args.buffer).after t
                  (events (.notify j .nobody write read)) =
                    { t.setCall j .returned with notified := false } := by
                simp [events, Event.machine, Event.step, Event.setCall, hnone]
              rw [hafter]
              exact h.nobody
        | waiter r =>
            obtain ⟨hsome, hframe⟩ := ha.2
            obtain ⟨hl, hafter⟩ := after_publishing (fun _ => 0) args.buffer hcall
              (h.suspended.trans hsome) write.mapped
            have hpublished : Stands args ((Event.machine R N (fun _ => 0) args.buffer).after t
                (publishing j r write.mapped)) (EventCalls.publish args
                  { s with notified := false, called := Function.update s.called j true }
                  j write) := by
              rw [hafter]
              exact h.publish (.resume r) (t.loads ++ [r]) t.resumes write
            have hcall' : ((Event.machine R N (fun _ => 0) args.buffer).after t
                (publishing j r write.mapped)).call j = .resume r := by
              rw [hafter]
              exact Function.update_self ..
            obtain ⟨hl', hafter'⟩ := after_continuing (fun _ => 0) args.buffer hcall'
              ((congrFun hpublished.frame r).trans hframe) read.mapped
            refine ⟨Machine.legal_append.mpr ⟨hl, hl'⟩, ?_⟩
            rw [notify_waiter hsome hframe, events, Machine.after_append, hafter']
            exact hpublished.continues hframe (Function.update_self ..) _ read
        | stale r =>
            obtain ⟨hsome, hframe⟩ := ha.2
            obtain ⟨hl, hafter⟩ := after_publishing (fun _ => 0) args.buffer hcall
              (h.suspended.trans hsome) write.mapped
            have hgone : t.frame r = .destroyed := by
              rw [h.frame]
              exact (h.settled r hsome).resolve_left hframe
            rw [notify_stale hsome hframe, events, Machine.after_append, Machine.legal_append, hafter]
            refine ⟨⟨hl, ?_⟩, ?_⟩
            · simp [Event.machine, Event.enabled, Event.step, Event.setCall, hgone]
            · have hpublished := h.publish (j := j) .returned (t.loads ++ [r])
                (t.resumes ++ [(r, .destroyed)]) write
              simpa [Event.machine, Event.step, Event.setCall, hgone] using hpublished

/-! ### What is wanted of the receivers -/

/-- What was read is the buffer of the call that continued the receiver. -/
def ReadsPayload (args : Arguments R N) (s : EventCalls R N args.n) : Prop :=
  ∀ x ∈ s.reads, ∃ j, x.call = some j ∧ x.value = args.buffer j

/-- A call that continues a receiver maps the object, unless the receiver does not or its buffer is
there already. -/
def Published (args : Arguments R N) (s : EventCalls R N args.n) : Action R N → Prop
  | .notify j (.waiter _) write read =>
      write.mapped = true ∨ read.mapped = false ∨ value args.n s.bytes = args.buffer j
  | .await _ _ | .notify _ .nobody _ _ | .notify _ (.stale _) _ _ => True

instance (args : Arguments R N) (s : EventCalls R N args.n) : ∀ a, Decidable (Published args s a)
  | .notify _ (.waiter _) _ _ => inferInstanceAs (Decidable (_ ∨ _ ∨ _))
  | .await _ _ | .notify _ .nobody _ _ | .notify _ (.stale _) _ _ => isTrue trivial

/-- **A call keeps it exactly when it publishes its buffer.** -/
theorem readsPayload_step (hr : (machine args).Reachable s) (ha : s.enabled a)
    (h : ReadsPayload args s) : ReadsPayload args (s.step args a) ↔ Published args s a := by
  cases a with
  | await r read =>
      refine iff_of_true ?_ trivial
      show ReadsPayload args (s.await args r read)
      rw [await, notified_eq hr]
      exact h
  | notify j found write read =>
      show ReadsPayload args (s.notify args j write read) ↔ _
      cases found with
      | nobody =>
          refine iff_of_true ?_ trivial
          rw [notify_nobody ha.2]
          exact h
      | stale r =>
          refine iff_of_true ?_ trivial
          rw [notify_stale ha.2.1 ha.2.2]
          exact h
      | waiter r =>
          have hold : ∀ x ∈ s.reads, ∃ j, x.call = some j ∧ x.value = args.buffer j := h
          rw [ReadsPayload, notify_reads ha.2.1 ha.2.2]
          simp only [List.mem_append, or_imp, forall_and]
          rw [and_iff_right hold]
          show _ ↔ write.mapped = true ∨ read.mapped = false ∨ value args.n s.bytes = args.buffer j
          cases hread : read.mapped with
          | false => simp
          | true => cases hwrite : write.mapped <;> simp

/--
**When the receivers read the payload.**  All along a run of receivers and calls of `notify`,
whatever fails, what a receiver reads is the buffer of the call that continued it, exactly when
every call that continues a receiver could map the object itself, or the receiver could not, or
the object held the buffer already.
-/
theorem receivers_read_payload (args : Arguments R N)
    (hl : (machine args).Legal (machine args).init tr) :
    (∀ pre, pre <+: tr → ReadsPayload args ((machine args).after (machine args).init pre)) ↔
      ((machine args).restrict (Published args)).Legal (machine args).init tr :=
  Machine.always_iff (P := ReadsPayload args) (fun _ hx => absurd hx List.not_mem_nil)
    (fun _ _ hr ha h => readsPayload_step hr ha h) hl

/-- One byte, the number 7. -/
def seven : Arguments Unit Unit where
  n := 1
  buffer := fun _ _ => 7
  notifySize := fun _ => 1
  receiverSize := fun _ => 1
  le_notifySize := fun _ => Nat.le_refl 1
  le_receiverSize := fun _ => Nat.le_refl 1

/-- One receiver, and one call, which maps the object if it can. -/
def oneCall (mapped : Bool) : List (Action Unit Unit) :=
  [.await () ⟨true, true⟩, .notify () (.waiter ()) ⟨true, mapped⟩ ⟨true, true⟩]

theorem receivers_read_payload_one :
    ReadsPayload seven ((machine seven).after (machine seven).init (oneCall true)) :=
  (receivers_read_payload seven (by decide +kernel)).mpr (by decide +kernel) (oneCall true)
    List.prefix_rfl

/-- It cannot, and a zero is read. -/
theorem receivers_read_zero :
    (machine seven).Legal (machine seven).init (oneCall false) ∧
      ¬ ReadsPayload seven ((machine seven).after (machine seven).init (oneCall false)) := by
  refine ⟨by decide +kernel, fun h => ?_⟩
  obtain ⟨j, -, hvalue⟩ := h _ List.mem_cons_self
  have hzero : (0 : UInt8) = 7 := congrFun hvalue ⟨0, Nat.one_pos⟩
  exact absurd hzero (by decide)

end EventCalls

end LinuxSystems
