/-
The dialogue over a named pipe, `Chapter 3/cpp_and_named_pipe.cpp`.

After the fork the parent writes a message and reads the response, and the child reads
the message and writes the response, all through one queue of bytes that both have open
for reading and writing.  The two calls of `sleep` are left out, since they order
nothing: whoever reads first takes what is there.

A parent that reads before the child takes its own message back.  Then the pipe is
empty, the parent goes on to its end, and the child waits for ever: it has the pipe open
for writing itself, so it does not even see the end of the file.  That is the only way
in which the dialogue goes wrong.
-/
import LinuxSystems.Machine.Run
import LinuxSystems.Posix.Buffer

namespace LinuxSystems

namespace Pipe

def bufSize : Nat := 64

/-- `write`: the pipe after the message was written to it, at once. -/
def write (message pipe : List UInt8) : List UInt8 := pipe ++ message

/-- `read`: the string of what there is of `bufSize` bytes, and the pipe after that. -/
def read (pipe : List UInt8) : List UInt8 × List UInt8 :=
  let buffer := pipe.take bufSize
  let bytes := buffer.length
  (if bytes > 0 then buffer.take bytes else [], pipe.drop bytes)

inductive ParentSite where
  /-- At the `write` of the message. -/
  | write
  /-- At the `read` of the response. -/
  | read
  | close
  | exited
  deriving DecidableEq

inductive ChildSite where
  /-- At the `read` of the message. -/
  | read
  /-- At the `write` of the response. -/
  | write
  | close
  | exited
  deriving DecidableEq

end Pipe

open Pipe

/-- The two processes and the pipe that both have open. -/
structure Pipe where
  pipe : List UInt8
  parent : ParentSite
  child : ChildSite
  /-- What the parent's `read` returned. -/
  parentGot : Option (List UInt8)
  /-- What the child's `read` returned. -/
  childGot : Option (List UInt8)

namespace Pipe

inductive Action where
  | parentWrite
  | parentRead
  | parentClose
  | childRead
  | childWrite
  | childClose
  deriving DecidableEq

def enabled (s : Pipe) : Action → Prop
  | .parentWrite => s.parent = .write
  | .parentRead => s.parent = .read ∧ s.pipe ≠ []
  | .parentClose => s.parent = .close
  | .childRead => s.child = .read ∧ s.pipe ≠ []
  | .childWrite => s.child = .write
  | .childClose => s.child = .close

instance (s : Pipe) : ∀ a, Decidable (enabled s a)
  | .parentWrite | .parentClose => inferInstanceAs (Decidable (s.parent = _))
  | .childWrite | .childClose => inferInstanceAs (Decidable (s.child = _))
  | .parentRead | .childRead => inferInstanceAs (Decidable (_ ∧ _))

def step (message response : List UInt8) (s : Pipe) : Action → Pipe
  | .parentWrite => { s with pipe := Pipe.write message s.pipe, parent := .read }
  | .parentRead =>
      { s with pipe := (Pipe.read s.pipe).2, parentGot := (Pipe.read s.pipe).1, parent := .close }
  | .parentClose => { s with parent := .exited }
  | .childRead =>
      { s with pipe := (Pipe.read s.pipe).2, childGot := (Pipe.read s.pipe).1, child := .write }
  | .childWrite => { s with pipe := Pipe.write response s.pipe, child := .close }
  | .childClose => { s with child := .exited }

/-- Both processes after the fork, with the pipe open. -/
def machine (message response : List UInt8) : Machine Pipe Action where
  init := ⟨[], .write, .read, none, none⟩
  enabled := enabled
  next := step message response

instance (message response : List UInt8) (s : Pipe) (a : Action) :
    Decidable ((machine message response).enabled s a) :=
  inferInstanceAs (Decidable (enabled s a))

variable {message response : List UInt8} {s : Pipe} {a : Action}

/-! ### What is wanted of a dialogue -/

/-- What was read is what the other one wrote. -/
structure Delivered (message response : List UInt8) (s : Pipe) : Prop where
  child : ∀ x, s.childGot = some x → x = message
  parent : ∀ x, s.parentGot = some x → x = response

/-- Whatever happens from here, the child waits in an empty pipe. -/
def ChildBlocked (message response : List UInt8) (s : Pipe) : Prop :=
  ∀ tr, (machine message response).Legal s tr →
    ((machine message response).after s tr).child = .read ∧
      ((machine message response).after s tr).pipe = []

/-- Whatever happens from here, the parent waits in an empty pipe. -/
def ParentBlocked (message response : List UInt8) (s : Pipe) : Prop :=
  ∀ tr, (machine message response).Legal s tr →
    ((machine message response).after s tr).parent = .read ∧
      ((machine message response).after s tr).pipe = []

/-- The parent reads only once the child has read. -/
def ChildFirst (s : Pipe) : Action → Prop
  | .parentRead => s.childGot ≠ none
  | _ => True

instance (s : Pipe) : ∀ a, Decidable (ChildFirst s a)
  | .parentRead => inferInstanceAs (Decidable (s.childGot ≠ none))
  | .parentWrite | .parentClose | .childRead | .childWrite | .childClose => isTrue trivial

/-! ### The two ways it goes -/

/-- A message of at most `bufSize` bytes is read as it was written, and nothing stays. -/
theorem read_message (h : message.length ≤ bufSize) : Pipe.read message = (message, []) := by
  have htake : message.take bufSize = message := List.take_of_length_le h
  unfold Pipe.read
  dsimp only
  rw [htake, List.drop_length, List.take_length]
  by_cases hpos : message.length > 0
  · rw [if_pos hpos]
  · have hnil : message = [] := List.eq_nil_of_length_eq_zero (by omega)
    rw [if_neg hpos, hnil]

/-- The situations of a dialogue in which the child reads first. -/
inductive InOrder (message response : List UInt8) (s : Pipe) : Prop where
  | start (hparent : s.parent = .write) (hchild : s.child = .read) (hpipe : s.pipe = [])
      (hchildGot : s.childGot = none) (hparentGot : s.parentGot = none)
  | asked (hparent : s.parent = .read) (hchild : s.child = .read) (hpipe : s.pipe = message)
      (hchildGot : s.childGot = none) (hparentGot : s.parentGot = none)
  | heard (hparent : s.parent = .read) (hchild : s.child = .write) (hpipe : s.pipe = [])
      (hchildGot : s.childGot = some message) (hparentGot : s.parentGot = none)
  | answered (hparent : s.parent = .read) (hchild : s.child = .close ∨ s.child = .exited)
      (hpipe : s.pipe = response) (hchildGot : s.childGot = some message)
      (hparentGot : s.parentGot = none)
  | through (hparent : s.parent = .close ∨ s.parent = .exited)
      (hchild : s.child = .close ∨ s.child = .exited) (hchildGot : s.childGot = some message)
      (hparentGot : s.parentGot = some response)

/-- The parent has read its own message. -/
structure Crossed (s : Pipe) : Prop where
  parent : s.parent = .close ∨ s.parent = .exited
  child : s.child = .read
  pipe : s.pipe = []

theorem Crossed.step (h : Crossed s) (ha : enabled s a) :
    Crossed (s.step message response a) := by
  cases a with
  | parentClose => exact ⟨Or.inr rfl, h.child, h.pipe⟩
  | parentWrite => rcases h.parent with hp | hp <;> simp [enabled, hp] at ha
  | parentRead | childRead => exact absurd h.pipe ha.2
  | childWrite | childClose => simp [enabled, h.child] at ha

theorem Crossed.blocked (h : Crossed s) : ChildBlocked message response s := by
  intro tr hl
  induction tr generalizing s with
  | nil => exact ⟨h.child, h.pipe⟩
  | cons a tr ih => exact ih (h.step hl.1) hl.2

namespace InOrder

/-- A step of a dialogue in order keeps it in order, unless the parent reads before the child. -/
theorem step (h : InOrder message response s) (hm : message.length ≤ bufSize)
    (hr : response.length ≤ bufSize) (ha : enabled s a) (hg : ChildFirst s a) :
    InOrder message response (s.step message response a) := by
  cases h with
  | start hparent hchild hpipe hchildGot hparentGot =>
      cases a with
      | parentWrite =>
          have hwrite : Pipe.write message s.pipe = message := by simp [Pipe.write, hpipe]
          exact .asked rfl hchild hwrite hchildGot hparentGot
      | parentRead | parentClose => simp [enabled, hparent] at ha
      | childRead => exact absurd hpipe ha.2
      | childWrite | childClose => simp [enabled, hchild] at ha
  | asked hparent hchild hpipe hchildGot hparentGot =>
      cases a with
      | parentWrite | parentClose => simp [enabled, hparent] at ha
      | parentRead => exact absurd hchildGot hg
      | childRead =>
          have hread : Pipe.read s.pipe = (message, []) := by rw [hpipe, read_message hm]
          simp only [Pipe.step, hread]
          exact .heard hparent rfl rfl rfl hparentGot
      | childWrite | childClose => simp [enabled, hchild] at ha
  | heard hparent hchild hpipe hchildGot hparentGot =>
      cases a with
      | parentWrite | parentClose => simp [enabled, hparent] at ha
      | parentRead => exact absurd hpipe ha.2
      | childRead | childClose => simp [enabled, hchild] at ha
      | childWrite =>
          have hwrite : Pipe.write response s.pipe = response := by simp [Pipe.write, hpipe]
          exact .answered hparent (Or.inl rfl) hwrite hchildGot hparentGot
  | answered hparent hchild hpipe hchildGot hparentGot =>
      cases a with
      | parentWrite | parentClose => simp [enabled, hparent] at ha
      | parentRead =>
          have hread : Pipe.read s.pipe = (response, []) := by rw [hpipe, read_message hr]
          simp only [Pipe.step, hread]
          exact .through (Or.inl rfl) hchild hchildGot rfl
      | childRead | childWrite => rcases hchild with hc | hc <;> simp [enabled, hc] at ha
      | childClose => exact .answered hparent (Or.inr rfl) hpipe hchildGot hparentGot
  | through hparent hchild hchildGot hparentGot =>
      cases a with
      | parentWrite | parentRead => rcases hparent with hp | hp <;> simp [enabled, hp] at ha
      | parentClose => exact .through (Or.inr rfl) hchild hchildGot hparentGot
      | childRead | childWrite => rcases hchild with hc | hc <;> simp [enabled, hc] at ha
      | childClose => exact .through hparent (Or.inr rfl) hchildGot hparentGot

/-- A parent that reads before the child takes its own message back. -/
theorem crossed (h : InOrder message response s) (hm : message.length ≤ bufSize)
    (ha : enabled s a) (hg : ¬ ChildFirst s a) : Crossed (s.step message response a) := by
  cases a with
  | parentWrite | parentClose | childRead | childWrite | childClose => exact absurd trivial hg
  | parentRead =>
      have hnone : s.childGot = none := not_not.mp hg
      cases h with
      | start hparent => simp [enabled, hparent] at ha
      | asked _ hchild hpipe =>
          have hread : Pipe.read s.pipe = (message, []) := by rw [hpipe, read_message hm]
          simp only [Pipe.step, hread]
          exact ⟨Or.inl rfl, hchild, rfl⟩
      | heard _ _ _ hchildGot | answered _ _ _ hchildGot | through _ _ hchildGot =>
          simp [hchildGot] at hnone

theorem delivered (h : InOrder message response s) : Delivered message response s := by
  have hsome : ∀ {x y : List UInt8}, some x = some y → y = x := fun hxy => (Option.some.inj hxy).symm
  cases h with
  | start _ _ _ hchildGot hparentGot | asked _ _ _ hchildGot hparentGot =>
      exact ⟨by simp [hchildGot], by simp [hparentGot]⟩
  | heard _ _ _ hchildGot hparentGot | answered _ _ _ hchildGot hparentGot =>
      exact ⟨fun x hx => hsome (hchildGot.symm.trans hx), by simp [hparentGot]⟩
  | through _ _ hchildGot hparentGot =>
      exact ⟨fun x hx => hsome (hchildGot.symm.trans hx),
        fun x hx => hsome (hparentGot.symm.trans hx)⟩

/-- The child is not left waiting: there is a message, or one can still come. -/
theorem child_not_blocked (h : InOrder message response s) (hm : message ≠ []) :
    ¬ ChildBlocked message response s := by
  intro hb
  cases h with
  | start hparent _ hpipe =>
      have hl : (machine message response).Legal s [.parentWrite] := ⟨hparent, trivial⟩
      have hnil : Pipe.write message s.pipe = [] := (hb _ hl).2
      rw [Pipe.write, hpipe, List.nil_append] at hnil
      exact hm hnil
  | asked _ _ hpipe => exact hm (hpipe.symm.trans (hb [] trivial).2)
  | heard _ hchild =>
      have hread : s.child = .read := (hb [] trivial).1
      simp [hchild] at hread
  | answered _ hchild | through _ hchild =>
      have hread : s.child = .read := (hb [] trivial).1
      rcases hchild with hc | hc <;> simp [hc] at hread

/-- Nor is the parent. -/
theorem parent_not_blocked (h : InOrder message response s) (hm : message ≠ [])
    (hr : response ≠ []) : ¬ ParentBlocked message response s := by
  intro hb
  have hread : s.parent = .read := (hb [] trivial).1
  have hnil : s.pipe = [] := (hb [] trivial).2
  cases h with
  | start hparent => simp [hparent] at hread
  | asked _ _ hpipe => exact hm (hpipe.symm.trans hnil)
  | heard _ hchild hpipe =>
      have hl : (machine message response).Legal s [.childWrite] := ⟨hchild, trivial⟩
      have hnil' : Pipe.write response s.pipe = [] := (hb _ hl).2
      rw [Pipe.write, hpipe, List.nil_append] at hnil'
      exact hr hnil'
  | answered _ _ hpipe => exact hr (hpipe.symm.trans hnil)
  | through hparent => rcases hparent with hp | hp <;> simp [hp] at hread

end InOrder

theorem inOrder_or_crossed (hm : message.length ≤ bufSize) (hr : response.length ≤ bufSize)
    {tr : List Action} (hl : (machine message response).Legal (machine message response).init tr) :
    (((machine message response).restrict ChildFirst).Legal (machine message response).init tr ∧
      InOrder message response ((machine message response).after (machine message response).init tr)) ∨
    Crossed ((machine message response).after (machine message response).init tr) := by
  refine Machine.run_invariant (m := machine message response)
    (P := fun tr s => (((machine message response).restrict ChildFirst).Legal
      (machine message response).init tr ∧ InOrder message response s) ∨ Crossed s)
    (Or.inl ⟨trivial, .start rfl rfl rfl rfl rfl⟩) ?_ hl
  intro tr a _ hP ha
  rcases hP with ⟨hfirst, horder⟩ | hcrossed
  · by_cases hg : ChildFirst ((machine message response).after (machine message response).init tr) a
    · exact Or.inl ⟨Machine.legal_snoc.mpr ⟨hfirst, ha, hg⟩, horder.step hm hr ha hg⟩
    · exact Or.inr (horder.crossed hm ha hg)
  · exact Or.inr (hcrossed.step ha)

/-! ### The dialogue -/

/--
**The dialogue goes right exactly where the child reads first.**  In a run in which the
parent reads only after the child, each gets what the other wrote and neither is left
waiting for ever; in any other, the child is.
-/
theorem pipe_dialogue (message response : List UInt8)
    (hm : 1 ≤ message.length ∧ message.length ≤ bufSize)
    (hr : 1 ≤ response.length ∧ response.length ≤ bufSize) (tr : List Action)
    (hl : (machine message response).Legal (machine message response).init tr) :
    (Delivered message response
        ((machine message response).after (machine message response).init tr) ∧
      ¬ ChildBlocked message response
        ((machine message response).after (machine message response).init tr) ∧
      ¬ ParentBlocked message response
        ((machine message response).after (machine message response).init tr)) ↔
    ((machine message response).restrict ChildFirst).Legal (machine message response).init tr := by
  have hm' : message ≠ [] := List.ne_nil_of_length_pos hm.1
  have hr' : response ≠ [] := List.ne_nil_of_length_pos hr.1
  constructor
  · rintro ⟨-, hchild, -⟩
    rcases inOrder_or_crossed hm.2 hr.2 hl with ⟨hfirst, -⟩ | hcrossed
    · exact hfirst
    · exact absurd hcrossed.blocked hchild
  · intro hfirst
    have horder : InOrder message response
        ((machine message response).after (machine message response).init tr) := by
      have hreach : ((machine message response).restrict ChildFirst).Reachable
          ((machine message response).after (machine message response).init tr) :=
        Machine.reachable_after hfirst
      refine hreach.invariant (P := InOrder message response) (.start rfl rfl rfl rfl rfl) ?_
      exact fun s a _ hs ha => hs.step hm.2 hr.2 ha.1 ha.2
    exact ⟨horder.delivered, horder.child_not_blocked hm', horder.parent_not_blocked hm' hr'⟩

/-- What the parent sends. -/
def parentMessage : List UInt8 := Buffer.ofString "Sending some message to the child!"

/-- What the child answers. -/
def childResponse : List UInt8 := Buffer.ofString "Child printed the message!"

/-- The dialogue with both messages, to both ends. -/
theorem pipe_dialogue_source :
    Delivered parentMessage childResponse
      ((machine parentMessage childResponse).after (machine parentMessage childResponse).init
        [.parentWrite, .childRead, .childWrite, .parentRead, .parentClose, .childClose]) :=
  ((pipe_dialogue parentMessage childResponse (by decide) (by decide) _ (by decide)).mpr
    (by decide)).1

/-- The parent reads its own message, and the child waits for ever. -/
theorem pipe_dialogue_crossed :
    ¬ ∀ tr, (machine parentMessage childResponse).Legal
        (machine parentMessage childResponse).init tr →
      Delivered parentMessage childResponse
        ((machine parentMessage childResponse).after (machine parentMessage childResponse).init tr) ∧
      ¬ ChildBlocked parentMessage childResponse
        ((machine parentMessage childResponse).after
          (machine parentMessage childResponse).init tr) := by
  intro hall
  have hcrossed : Crossed ((machine parentMessage childResponse).after
      (machine parentMessage childResponse).init [.parentWrite, .parentRead]) :=
    ⟨by decide, by decide, by decide⟩
  exact (hall [.parentWrite, .parentRead] (by decide)).2 hcrossed.blocked

end Pipe

end LinuxSystems
