/-
The transfer of a file through a message queue, `Chapter 7/mq_example.cpp`.

One thread creates the queue and receives from it until an empty message arrives, then
removes the queue's name.  The other opens the queue, reads `test.dat` chunk by chunk,
sends each chunk, and an empty message at the end of the file.  `main` starts both and
joins both; nothing else orders them.

Each system call is a step, and each has a step in which it fails.  `read` may return
any part of what is left of the file that fits.  The queue's name is not there at the
start: only the reader creates it, and the writer cannot open it before.  The store of
the terminator one past the end of the reader's buffer, which `Posix/Terminated.lean`
is about, overwrites nothing that is modelled.
-/
import LinuxSystems.Machine.Run
import LinuxSystems.Posix.Buffer

namespace LinuxSystems

namespace Queue

/-- `MAX_SIZE`, also the `mq_msgsize` of the queue. -/
def maxSize : Nat := 1024

/-- The `mq_maxmsg` of the queue. -/
def maxMsg : Nat := 10

/-! ### The reader -/

inductive ReaderSite where
  /-- At `mq_open`. -/
  | open
  /-- At `mq_receive`. -/
  | receive
  /-- At `mq_close`. -/
  | close
  /-- At `mq_unlink`. -/
  | unlink
  | exited
  deriving DecidableEq

structure Reader where
  site : ReaderSite
  buffer : List UInt8
  /-- The first `bytes_read` bytes of each message. -/
  received : List (List UInt8)
  /-- The texts that were printed. -/
  printed : List (List UInt8)

namespace Reader

def start : Reader where
  site := .open
  buffer := List.replicate maxSize 0
  received := []
  printed := []

def opened (r : Reader) : Reader := { r with site := .receive }

/-- The queue could not be opened. -/
def openFailed (r : Reader) : Reader := { r with site := .unlink }

/-- `mq_receive` returns with `message`; an empty one ends the loop. -/
def receive (message : List UInt8) (r : Reader) : Reader :=
  let (buffer, bytesRead) := Buffer.receive maxSize message r.buffer
  let r' := { r with buffer, received := r.received ++ [buffer.take bytesRead] }
  if bytesRead > 0 then
    let buffer := Buffer.terminate bytesRead buffer
    { r' with buffer, printed := r.printed ++ [Buffer.cString buffer] }
  else { r' with site := .close }

def closed (r : Reader) : Reader := { r with site := .unlink }

def unlinked (r : Reader) : Reader := { r with site := .exited }

end Reader

/-! ### The writer -/

inductive WriterSite where
  /-- At `mq_open`. -/
  | openQueue
  /-- At `open("test.dat")`. -/
  | openFile
  /-- At `read`. -/
  | read
  /-- At the `mq_send` of a chunk. -/
  | send
  /-- At the `mq_send` of the empty message. -/
  | sendEnd
  /-- At `close`. -/
  | closeFile
  /-- At `mq_close`. -/
  | closeQueue
  | exited
  deriving DecidableEq

structure Writer where
  site : WriterSite
  buffer : List UInt8
  /-- What is left of the file. -/
  rest : List UInt8
  /-- The chunks that were read. -/
  chunks : List (List UInt8)
  /-- The messages that were sent. -/
  sent : List (List UInt8)

namespace Writer

def start (file : List UInt8) : Writer where
  site := .openQueue
  buffer := []
  rest := file
  chunks := []
  sent := []

def openedQueue (w : Writer) : Writer := { w with site := .openFile }

def openQueueFailed (w : Writer) : Writer := { w with site := .exited }

def openedFile (w : Writer) : Writer := { w with site := .read }

def openFileFailed (w : Writer) : Writer := { w with site := .closeFile }

/-- The chunk in a buffer that held zeros. -/
def fill (chunk : List UInt8) : List UInt8 := chunk ++ List.replicate (maxSize - chunk.length) 0

/-- `read` returns `n` bytes, and none at the end of the file. -/
def read (n : Nat) (w : Writer) : Writer :=
  let w' := { w with buffer := fill (w.rest.take n), rest := w.rest.drop n }
  if n > 0 then { w' with chunks := w.chunks ++ [w.rest.take n], site := .send }
  else { w' with site := .sendEnd }

/-- What is sent of a chunk: `buffer.size()` bytes of the buffer. -/
def message (w : Writer) : List UInt8 := w.buffer.take maxSize

def sentChunk (w : Writer) : Writer := { w with sent := w.sent ++ [w.message], site := .read }

def sendFailed (w : Writer) : Writer := { w with site := .read }

def sentEnd (w : Writer) : Writer := { w with sent := w.sent ++ [[]], site := .closeFile }

def sendEndFailed (w : Writer) : Writer := { w with site := .closeFile }

def closedFile (w : Writer) : Writer := { w with site := .closeQueue }

def closedQueue (w : Writer) : Writer := { w with site := .exited }

end Writer

end Queue

open Queue

/-- The two threads and the queue between them. -/
structure Queue where
  reader : Reader
  writer : Writer
  /-- The queue's name is there. -/
  linked : Bool
  messages : List (List UInt8)

namespace Queue

inductive Action where
  | create
  | createFails
  | receive
  | receiveFails
  | readerClose
  | unlink
  | openQueue
  | openQueueFails
  | openFile
  | openFileFails
  | read (n : Nat)
  | readFails
  | send
  | sendFails
  | sendEnd
  | sendEndFails
  | closeFile
  | closeQueue
  deriving DecidableEq

/-- The numbers that `read` may return with `rest` left of the file. -/
def Readable (rest : List UInt8) (n : Nat) : Prop :=
  n ≤ maxSize ∧ n ≤ rest.length ∧ (n = 0 → rest = [])

instance (rest : List UInt8) (n : Nat) : Decidable (Readable rest n) :=
  inferInstanceAs (Decidable (_ ∧ _ ∧ (_ → _)))

def enabled (s : Queue) : Action → Prop
  | .create | .createFails => s.reader.site = .open
  | .receive => s.reader.site = .receive ∧ s.messages ≠ []
  | .receiveFails => s.reader.site = .receive
  | .readerClose => s.reader.site = .close
  | .unlink => s.reader.site = .unlink
  | .openQueue => s.writer.site = .openQueue ∧ s.linked = true
  | .openQueueFails => s.writer.site = .openQueue
  | .openFile | .openFileFails => s.writer.site = .openFile
  | .read n => s.writer.site = .read ∧ Readable s.writer.rest n
  | .readFails => s.writer.site = .read
  | .send => s.writer.site = .send ∧ s.messages.length < maxMsg
  | .sendFails => s.writer.site = .send
  | .sendEnd => s.writer.site = .sendEnd ∧ s.messages.length < maxMsg
  | .sendEndFails => s.writer.site = .sendEnd
  | .closeFile => s.writer.site = .closeFile
  | .closeQueue => s.writer.site = .closeQueue

instance (s : Queue) : ∀ a, Decidable (enabled s a)
  | .create | .createFails | .receiveFails | .readerClose | .unlink =>
      inferInstanceAs (Decidable (s.reader.site = _))
  | .openQueueFails | .openFile | .openFileFails | .readFails | .sendFails | .sendEndFails
  | .closeFile | .closeQueue => inferInstanceAs (Decidable (s.writer.site = _))
  | .receive | .openQueue | .read _ | .send | .sendEnd => inferInstanceAs (Decidable (_ ∧ _))

def step (s : Queue) : Action → Queue
  | .create => { s with reader := s.reader.opened, linked := true }
  | .createFails => { s with reader := s.reader.openFailed }
  | .receive =>
      { s with reader := s.reader.receive (s.messages.headD []), messages := s.messages.tail }
  | .receiveFails => s
  | .readerClose => { s with reader := s.reader.closed }
  | .unlink => { s with reader := s.reader.unlinked, linked := false }
  | .openQueue => { s with writer := s.writer.openedQueue }
  | .openQueueFails => { s with writer := s.writer.openQueueFailed }
  | .openFile => { s with writer := s.writer.openedFile }
  | .openFileFails => { s with writer := s.writer.openFileFailed }
  | .read n => { s with writer := s.writer.read n }
  | .readFails => s
  | .send => { s with writer := s.writer.sentChunk, messages := s.messages ++ [s.writer.message] }
  | .sendFails => { s with writer := s.writer.sendFailed }
  | .sendEnd => { s with writer := s.writer.sentEnd, messages := s.messages ++ [[]] }
  | .sendEndFails => { s with writer := s.writer.sendEndFailed }
  | .closeFile => { s with writer := s.writer.closedFile }
  | .closeQueue => { s with writer := s.writer.closedQueue }

/-- Both threads at their start, with no queue yet; `file` is what `test.dat` holds. -/
def machine (file : List UInt8) : Machine Queue Action where
  init := ⟨Reader.start, Writer.start file, false, []⟩
  enabled := enabled
  next := step

instance (file : List UInt8) (s : Queue) (a : Action) : Decidable ((machine file).enabled s a) :=
  inferInstanceAs (Decidable (enabled s a))

end Queue

end LinuxSystems
