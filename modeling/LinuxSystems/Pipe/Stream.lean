/-
The helpers `write` and `read` of `Chapter 3/cpp_and_named_pipe.cpp` as a stream of bytes.

Neither looks at what its system call says of itself.  `write` drops the result, so a message
of which the pipe took a part, or nothing, counts as written.  `read` keeps the result in a
`size_t`, where the -1 of a failed call is the largest number there is: positive, and longer
than any string may be.  So it throws `length_error`, where the end of the file gives the empty
string.

What the pipe took of the messages is a stream of its own, and what was read is a beginning of
it.  The two streams agree as long as each write goes on where the stream of the messages stands.
-/
import LinuxSystems.Pipe.Dialogue
import Mathlib.Algebra.Group.Int.Defs
import Mathlib.Algebra.Group.Nat.Defs

namespace LinuxSystems.Pipe

/-- What a call of `read` came to. -/
inductive Outcome where
  | returned (text : List UInt8)
  | lengthError
  deriving DecidableEq

def Outcome.text : Outcome → Option (List UInt8)
  | .returned text => some text
  | .lengthError => none

/-- A result of a system call in a `size_t`. -/
def toSize (result : Int) : Nat := (result % 2 ^ 64).toNat

/-- The length of the longest string. -/
def maxSize : Nat := 2 ^ 63 - 1

/-- What was passed to the helpers, what they returned, and the pipe between them. -/
structure Stream where
  pipe : List UInt8
  /-- The messages that were passed to `write`. -/
  messages : List (List UInt8)
  /-- The result of the system call in each `read`, and what the `read` came to. -/
  reads : List (Int × Outcome)

namespace Stream

/-- `write`, where the system call returned `result`, or -1: so much of the message is in the
pipe then. -/
def write (message : List UInt8) (result : Int) (pipe : List UInt8) : List UInt8 :=
  pipe ++ message.take result.toNat

/-- `read`, where the system call returned `result`, or -1.  What lies behind the received bytes
in the array was never written, and is not looked at either. -/
def read (result : Int) (pipe : List UInt8) : Outcome × List UInt8 :=
  let buffer := pipe.take result.toNat
  let bytes := toSize result
  (if bytes > 0 then
      if bytes ≤ maxSize then .returned (buffer.take bytes) else .lengthError
    else .returned [], pipe.drop result.toNat)

inductive Action where
  | write (message : List UInt8) (result : Int)
  | read (result : Int)

/-- A call fails, or it transfers what it can of what there is: nothing is read at the end of
the file only. -/
def enabled (s : Stream) : Action → Prop
  | .write message result => result = -1 ∨ 0 ≤ result ∧ result ≤ message.length
  | .read result => result = -1 ∨ result = 0 ∧ s.pipe = [] ∨
      0 < result ∧ result ≤ bufSize ∧ result ≤ s.pipe.length

instance (s : Stream) : ∀ a, Decidable (enabled s a)
  | .write _ _ => inferInstanceAs (Decidable (_ ∨ _ ∧ _))
  | .read _ => inferInstanceAs (Decidable (_ ∨ _ ∧ _ ∨ _ ∧ _ ∧ _))

def step (s : Stream) : Action → Stream
  | .write message result =>
      { s with pipe := Stream.write message result s.pipe, messages := s.messages ++ [message] }
  | .read result =>
      { s with pipe := (Stream.read result s.pipe).2
               reads := s.reads ++ [(result, (Stream.read result s.pipe).1)] }

/-- Nothing is in the pipe yet. -/
def machine : Machine Stream Action where
  init := ⟨[], [], []⟩
  enabled := enabled
  next := step

instance (s : Stream) (a : Action) : Decidable (machine.enabled s a) :=
  inferInstanceAs (Decidable (enabled s a))

variable {s : Stream} {a : Action} {tr : List Action} {result : Int}

/-! ### One call -/

/-- A `write` that is taken whole. -/
theorem write_whole (message pipe : List UInt8) :
    Stream.write message message.length pipe = Pipe.write message pipe := by
  rw [Stream.write, Int.toNat_natCast, List.take_length, Pipe.write]

theorem read_failed (pipe : List UInt8) : Stream.read (-1) pipe = (.lengthError, pipe) := rfl

/-- A call that succeeds returns what it received. -/
theorem read_received {n : Nat} (hn : n ≤ bufSize) (pipe : List UInt8) :
    Stream.read n pipe = (.returned (pipe.take n), pipe.drop n) := by
  have hsize : toSize n = n := by
    unfold toSize bufSize at *
    omega
  have hmax : n ≤ maxSize := by
    unfold maxSize bufSize at *
    omega
  unfold Stream.read
  simp only [hsize, Int.toNat_natCast, if_pos hmax, List.take_take, min_self]
  by_cases hpos : n > 0
  · rw [if_pos hpos]
  · rw [if_neg hpos, Nat.eq_zero_of_not_pos hpos, List.take_zero]

/-- A `read` that is given all there is for it. -/
theorem read_whole (pipe : List UInt8) :
    Stream.read (pipe.take bufSize).length pipe =
      (.returned (Pipe.read pipe).1, (Pipe.read pipe).2) := by
  have hlength : (pipe.take bufSize).length ≤ bufSize := List.length_take_le _ _
  have htake : pipe.take (pipe.take bufSize).length = pipe.take bufSize := by
    rw [List.length_take, ← List.take_take, List.take_length]
  rw [read_received hlength, Pipe.read, htake, List.take_length]
  dsimp only
  by_cases hpos : (pipe.take bufSize).length > 0
  · rw [if_pos hpos]
  · rw [if_neg hpos, List.eq_nil_of_length_eq_zero (Nat.eq_zero_of_not_pos hpos)]

/-! ### What is wanted of the helpers -/

/-- The strings that were returned. -/
def returned (s : Stream) : List (List UInt8) := s.reads.filterMap fun r => r.2.text

/-- What was read is a beginning of what was written, and nothing was read exactly where the
system call delivered nothing. -/
structure Faithful (s : Stream) : Prop where
  stream : s.returned.flatten <+: s.messages.flatten
  nothing : ∀ r ∈ s.reads, r.2 = .returned [] ↔ r.1 ≤ 0

/-- What the pipe took of the messages. -/
def accepted (s : Stream) : List UInt8 := s.returned.flatten ++ s.pipe

/-- A read does not fail; and what a write adds to the stream is what comes next in the stream
of the messages. -/
def Continues (s : Stream) : Action → Prop
  | .write message result =>
      s.accepted ++ message.take result.toNat <+: s.messages.flatten ++ message
  | .read result => result ≠ -1

instance (s : Stream) : ∀ a, Decidable (Continues s a)
  | .write _ _ => inferInstanceAs (Decidable (_ <+: _))
  | .read _ => inferInstanceAs (Decidable (_ ≠ _))

/-- What is kept of the stream so that it can still be read to its end. -/
structure Sound (s : Stream) : Prop where
  stream : s.accepted <+: s.messages.flatten
  nothing : ∀ r ∈ s.reads, r.2 = .returned [] ↔ r.1 ≤ 0

theorem Sound.faithful (h : Sound s) : Faithful s :=
  ⟨(List.prefix_append _ _).trans h.stream, h.nothing⟩

/-! ### What a call does to the stream -/

theorem accepted_write (message : List UInt8) (result : Int) :
    (s.step (.write message result)).accepted = s.accepted ++ message.take result.toNat :=
  (List.append_assoc _ _ _).symm

theorem messages_write (message : List UInt8) (result : Int) :
    (s.step (.write message result)).messages.flatten = s.messages.flatten ++ message :=
  List.flatten_concat

/-- What a read that did not fail received, and what it came to. -/
theorem read_of_enabled (ha : enabled s (.read result)) (hresult : result ≠ -1) :
    (Stream.read result s.pipe = (.returned (s.pipe.take result.toNat), s.pipe.drop result.toNat)) ∧
      (s.pipe.take result.toNat = [] ↔ result ≤ 0) := by
  rcases ha with hfailed | ⟨rfl, hpipe⟩ | ⟨hpos, hsize, hlength⟩
  · exact absurd hfailed hresult
  · exact ⟨rfl, by simp⟩
  · obtain ⟨n, rfl⟩ := Int.eq_ofNat_of_zero_le (Int.le_of_lt hpos)
    refine ⟨read_received (Int.ofNat_le.mp hsize) s.pipe, ?_⟩
    rw [Int.toNat_natCast, List.take_eq_nil_iff, ← List.length_eq_zero_iff]
    omega

theorem returned_read (s : Stream) (result : Int) :
    (s.step (.read result)).returned =
      s.returned ++ (Stream.read result s.pipe).1.text.toList :=
  Machine.filterMap_snoc (fun r : Int × Outcome => r.2.text) s.reads _

/-- A read takes nothing out of the stream, whether it fails or not. -/
theorem accepted_read (ha : enabled s (.read result)) :
    (s.step (.read result)).accepted = s.accepted := by
  have hpipe : (s.step (.read result)).pipe = (Stream.read result s.pipe).2 := rfl
  unfold accepted
  rw [returned_read, hpipe]
  by_cases hresult : result = -1
  · rw [hresult, read_failed]
    simp [Outcome.text]
  · rw [(read_of_enabled ha hresult).1]
    simp [Outcome.text, List.append_assoc]

/-- A read comes to nothing exactly where the call delivered nothing, unless it failed. -/
theorem nothing_iff (ha : enabled s (.read result)) :
    ((Stream.read result s.pipe).1 = .returned [] ↔ result ≤ 0) ↔ result ≠ -1 := by
  by_cases hresult : result = -1
  · rw [hresult, read_failed]
    simp
  · obtain ⟨hread, hnil⟩ := read_of_enabled ha hresult
    simp [hread, hnil, hresult]

/-- The pipe never takes more than was passed. -/
theorem accepted_length (h : machine.Reachable s) :
    s.accepted.length ≤ s.messages.flatten.length := by
  refine h.invariant (P := fun s => s.accepted.length ≤ s.messages.flatten.length) le_rfl ?_
  intro s a _ hs ha
  show (s.step a).accepted.length ≤ (s.step a).messages.flatten.length
  cases a with
  | write message result =>
      rw [accepted_write, messages_write, List.length_append, List.length_append, List.length_take]
      omega
  | read result =>
      rw [accepted_read ha]
      exact hs

/-- **A call keeps the stream exactly when it goes on with it.** -/
theorem sound_step (hr : machine.Reachable s) (ha : enabled s a) :
    Sound (s.step a) ↔ Sound s ∧ Continues s a := by
  cases a with
  | write message result =>
      constructor
      · intro h
        have hstream := h.stream
        rw [accepted_write, messages_write] at hstream
        refine ⟨⟨?_, h.nothing⟩, hstream⟩
        exact List.prefix_of_prefix_length_le ((List.prefix_append _ _).trans hstream)
          (List.prefix_append _ _) (accepted_length hr)
      · rintro ⟨h, hnext⟩
        refine ⟨?_, h.nothing⟩
        rw [accepted_write, messages_write]
        exact hnext
  | read result =>
      have hreads : (s.step (.read result)).reads =
          s.reads ++ [(result, (Stream.read result s.pipe).1)] := rfl
      constructor
      · intro h
        have hstream := h.stream
        rw [accepted_read ha] at hstream
        have hnothing := h.nothing
        rw [hreads] at hnothing
        refine ⟨⟨hstream, fun r hr => hnothing r (List.mem_append_left _ hr)⟩, ?_⟩
        exact (nothing_iff ha).mp (hnothing _ (List.mem_append_right _ List.mem_cons_self))
      · rintro ⟨h, hnext⟩
        refine ⟨?_, ?_⟩
        · rw [accepted_read ha]
          exact h.stream
        · intro r hr
          rw [hreads] at hr
          rcases List.mem_append.mp hr with hr | hr
          · exact h.nothing r hr
          · rw [List.mem_singleton.mp hr]
            exact (nothing_iff ha).mpr hnext

theorem sound_iff (hl : machine.Legal machine.init tr) :
    (machine.restrict Continues).Legal machine.init tr ↔ Sound (machine.after machine.init tr) :=
  Machine.restrict_legal_iff (P := Sound) ⟨List.prefix_rfl, fun _ hr => absurd hr List.not_mem_nil⟩
    (fun _ _ hr ha => sound_step hr ha) hl

/-! ### Reading to the end -/

/-- The call is a read that delivers something. -/
def Action.Delivers : Action → Prop
  | .write _ _ => False
  | .read result => 0 < result

/-- What is in the pipe can be read, and then the strings are all of the stream. -/
theorem exists_drained (s : Stream) : ∃ rest, machine.Legal s rest ∧ (∀ a ∈ rest, a.Delivers) ∧
    (machine.after s rest).returned.flatten = s.accepted ∧
    (machine.after s rest).messages = s.messages := by
  induction hpipe : s.pipe generalizing s with
  | nil =>
      refine ⟨[], trivial, fun a ha => absurd ha List.not_mem_nil, ?_, rfl⟩
      rw [accepted, hpipe, List.append_nil]
      rfl
  | cons x pipe ih =>
      have ha : enabled s (.read 1) := by
        refine Or.inr (Or.inr ⟨by decide, by decide, ?_⟩)
        rw [hpipe, List.length_cons]
        omega
      have hrest : (s.step (.read 1)).pipe = pipe := by
        show (Stream.read 1 s.pipe).2 = pipe
        rw [hpipe]
        rfl
      obtain ⟨rest, hl, hdelivers, hreturned, hmessages⟩ := ih (s.step (.read 1)) hrest
      refine ⟨.read 1 :: rest, ⟨ha, hl⟩, ?_, ?_, hmessages⟩
      · intro a hmem
        rcases List.mem_cons.mp hmem with rfl | hmem
        · exact Int.one_pos
        · exact hdelivers a hmem
      · exact hreturned.trans (accepted_read ha)

theorem continues_of_delivers (s : Stream) (a : Action) (h : a.Delivers) : Continues s a := by
  cases a with
  | write message result => exact h.elim
  | read result =>
      have hpos : 0 < result := h
      show result ≠ -1
      omega

/--
**When the helpers are a stream of bytes.**  For every sequence of calls, whatever their system
calls return: it is faithful all along, and stays so however what is in the pipe is read, if and
only if no read fails and every write goes on where the stream of the messages stands.
-/
theorem helpers_faithful (tr : List Action) (hl : machine.Legal machine.init tr) :
    (∀ rest, machine.Legal (machine.after machine.init tr) rest → (∀ a ∈ rest, a.Delivers) →
      ∀ pre, pre <+: tr ++ rest → Faithful (machine.after machine.init pre)) ↔
    (machine.restrict Continues).Legal machine.init tr := by
  constructor
  · intro h
    obtain ⟨rest, hrest, hdelivers, hreturned, hmessages⟩ :=
      exists_drained (machine.after machine.init tr)
    refine (sound_iff hl).mpr ⟨?_, ?_⟩
    · have hend := (h rest hrest hdelivers (tr ++ rest) List.prefix_rfl).stream
      rwa [Machine.after_append, hreturned, hmessages] at hend
    · exact (h rest hrest hdelivers tr (List.prefix_append tr rest)).nothing
  · intro h rest hrest hdelivers pre hpre
    have hall : (machine.restrict Continues).Legal machine.init (tr ++ rest) :=
      Machine.legal_append.mpr
        ⟨h, Machine.restrict_legal_of_forall continues_of_delivers hrest hdelivers⟩
    have hpart := Machine.legal_of_prefix hpre hall
    exact ((sound_iff (Machine.restrict_legal hpart)).mp hpart).faithful

/-- Two messages, of which the second is cut short, read in two pieces. -/
def twoMessages : List Action :=
  [.write [1, 2, 3] 3, .read 2, .write [4, 5] 1, .read 2, .read 0]

theorem helpers_faithful_two : Faithful (machine.after machine.init twoMessages) :=
  (helpers_faithful twoMessages (by decide +kernel)).mpr (by decide +kernel) [] trivial
    (fun _ ha => absurd ha List.not_mem_nil) twoMessages (List.prefix_append _ _)

/-- A message that is cut short, with another one behind it; and a read that fails. -/
theorem helpers_unfaithful :
    machine.Legal machine.init [.write [1, 2] 1, .write [3] 1, .read 2] ∧
      ¬ Faithful (machine.after machine.init [.write [1, 2] 1, .write [3] 1, .read 2]) ∧
    machine.Legal machine.init [.read (-1)] ∧
      ¬ Faithful (machine.after machine.init [.read (-1)]) := by
  refine ⟨by decide +kernel, fun h => ?_, by decide +kernel, fun h => ?_⟩
  · exact absurd h.stream (by decide +kernel)
  · have hfailed := h.nothing (-1, .lengthError) (by decide +kernel)
    exact absurd (hfailed.mpr (by decide)) (by decide)

end Stream

end LinuxSystems.Pipe
