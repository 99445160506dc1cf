/-
The message to the child in `Chapter 3/anonymous_pipe_example.cpp`.

The parent makes a pipe, forks, closes its end for reading and writes one message.  The child
closes its end for writing, reads once and prints what it read as a C string.  The call of
`sleep` is left out, since it orders nothing.

Either process may be killed from outside at any time.
-/
import LinuxSystems.Posix.Buffer
import LinuxSystems.Posix.PipeEnds
import LinuxSystems.Machine.Run
import Mathlib.Data.Finset.Insert

namespace LinuxSystems.AnonymousPipe

inductive Process where
  | parent
  | child
  deriving DecidableEq

instance : Fintype Process := ⟨{.parent, .child}, fun p => by cases p <;> decide⟩

inductive Exit where
  | success
  | failure
  /-- By the signal that comes with a failing `write`. -/
  | sigpipe
  /-- From outside. -/
  | killed
  deriving DecidableEq

inductive ParentSite where
  | pipe
  | fork
  | closeIn
  | write
  | leave
  | ended (e : Exit)
  deriving DecidableEq

inductive ChildSite where
  | absent
  | closeOut
  | read
  /-- At the line, with the C string in `buff`. -/
  | print (text : List UInt8)
  | leave
  | ended (e : Exit)
  deriving DecidableEq

inductive Action where
  /-- `ok` is the result of `pipe` or `fork`, where the parent is there. -/
  | parent (ok : Bool)
  | child
  | kill (p : Process)
  deriving DecidableEq

def buffLen : Nat := 64

/-- How much a pipe takes at once. -/
def pipeBuf : Nat := 4096

/-- The characters of `msg`, which is a C string that a pipe takes at once. -/
structure Message where
  text : List UInt8
  noZero : 0 ∉ text
  short : text.length < pipeBuf

end AnonymousPipe

open AnonymousPipe

structure AnonymousPipe where
  ends : PipeEnds Process
  parent : ParentSite
  child : ChildSite
  /-- The pipe took the message. -/
  wrote : Bool
  /-- What the child printed. -/
  line : Option (List UInt8)

namespace AnonymousPipe

def ParentSite.isEnded : ParentSite → Bool
  | .ended _ => true
  | .pipe | .fork | .closeIn | .write | .leave => false

def childReady (s : AnonymousPipe) : ChildSite → Prop
  | .read => s.ends.Readable
  | .closeOut | .print _ | .leave => True
  | .absent | .ended _ => False

instance (s : AnonymousPipe) : ∀ x, Decidable (s.childReady x)
  | .read => inferInstanceAs (Decidable s.ends.Readable)
  | .closeOut | .print _ | .leave => isTrue trivial
  | .absent | .ended _ => isFalse id

/-- There is somebody to kill. -/
def ChildSite.alive : ChildSite → Bool
  | .absent | .ended _ => false
  | .closeOut | .read | .print _ | .leave => true

def enabled (s : AnonymousPipe) : Action → Prop
  | .parent _ => s.parent.isEnded = false
  | .child => s.childReady s.child
  | .kill .parent => s.parent.isEnded = false
  | .kill .child => s.child.alive = true

instance (s : AnonymousPipe) : ∀ a, Decidable (s.enabled a)
  | .parent _ => inferInstanceAs (Decidable (s.parent.isEnded = false))
  | .child => inferInstanceAs (Decidable (s.childReady s.child))
  | .kill .parent => inferInstanceAs (Decidable (s.parent.isEnded = false))
  | .kill .child => inferInstanceAs (Decidable (s.child.alive = true))

def parentEnds (s : AnonymousPipe) (e : Exit) : AnonymousPipe :=
  { s with parent := .ended e, ends := s.ends.leave .parent }

def childEnds (s : AnonymousPipe) (e : Exit) : AnonymousPipe :=
  { s with child := .ended e, ends := s.ends.leave .child }

def parentStep (msg : Message) (s : AnonymousPipe) (ok : Bool) : AnonymousPipe :=
  match s.parent with
  | .pipe =>
      if ok then { s with parent := .fork, ends := .create .parent }
      else s.parentEnds .failure
  | .fork =>
      if ok then
        { s with parent := .closeIn, child := .closeOut, ends := s.ends.inherit .parent .child }
      else s.parentEnds .failure
  | .closeIn => { s with parent := .write, ends := s.ends.closeRead .parent }
  | .write =>
      if s.ends.Broken then s.parentEnds .sigpipe
      else { s with parent := .leave, ends := s.ends.put (msg.text ++ [0]), wrote := true }
  | .leave => s.parentEnds .success
  | .ended _ => s

/-- `buff` after the `read`. -/
def buff (s : AnonymousPipe) : List UInt8 :=
  (Buffer.receive buffLen s.ends.bytes (List.replicate (buffLen + 1) 0)).1

def childStep (s : AnonymousPipe) : AnonymousPipe :=
  match s.child with
  | .closeOut => { s with child := .read, ends := s.ends.closeWrite .child }
  | .read => { s with child := .print (Buffer.cString s.buff), ends := s.ends.take buffLen }
  | .print text => { s with child := .leave, line := some text }
  | .leave => s.childEnds .success
  | .absent | .ended _ => s

def step (msg : Message) (s : AnonymousPipe) : Action → AnonymousPipe
  | .parent ok => s.parentStep msg ok
  | .child => s.childStep
  | .kill .parent => s.parentEnds .killed
  | .kill .child => s.childEnds .killed

def machine (msg : Message) : Machine AnonymousPipe Action where
  init := ⟨.none, .pipe, .absent, false, none⟩
  enabled := enabled
  next := step msg

instance (msg : Message) (s : AnonymousPipe) (a : Action) :
    Decidable ((machine msg).enabled s a) :=
  inferInstanceAs (Decidable (s.enabled a))

/-- The message of `main`. -/
def mainMessage : Message := ⟨Buffer.ofString "Sending message to child!", by decide, by decide⟩

end AnonymousPipe

end LinuxSystems
