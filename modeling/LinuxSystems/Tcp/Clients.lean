/-
The TCP server and any number of its clients.

The clients connect in any order and wait in the queue of `listen`; the server takes them
from it one after the other, and talks to one at a time.  Every call may fail.  A receive
takes any part of what has come and fails with nothing where the other side has closed.
The server closes each connection with the request still in it, since it only peeked at it:
that resets the connection, and what has not come to the client by then may be lost.  `SIGINT`
may end the server between any two of its calls and insertions.

The two programs print and send what a `string_view` of a temporary string shows, which is gone by
then; it is taken to show the process id still.  The listening socket is there from the beginning.
-/
import LinuxSystems.Tcp.Model
import LinuxSystems.Machine.Run
import Mathlib.Logic.Function.Basic

namespace LinuxSystems

namespace Tcp

def backlogSize : Nat := 5

inductive ClientSite where
  | connect
  | send
  | recv
  | close
  | done
  /-- `connect` failed. -/
  | refused
  /-- `close` failed. -/
  | threw
  deriving DecidableEq

inductive ServerSite (ι : Type*) where
  | accept
  | recv (t : ι)
  | send (t : ι)
  | close (t : ι)
  /-- `close` failed, and the exception is not thrown yet. -/
  | throwing
  /-- By `exitHandler`. -/
  | exited
  | threw
  deriving DecidableEq

inductive ClientLine where
  | errorConnecting
  | request (text : List UInt8)
  | response (text : List UInt8)
  /-- Printed where `recv` failed. -/
  | errorSending
  /-- Printed where `send` failed. -/
  | errorReceiving
  | errorClosing
  | jobDone
  deriving DecidableEq

/-- What one `<<` of the server inserts. -/
inductive ServerPiece where
  /-- `"Client connected."` -/
  | clientConnected
  /-- `"Client request: "` -/
  | clientRequest
  /-- `"Server response: "` -/
  | serverResponse
  | text (l : List UInt8)
  /-- The `endl` of a line in `cout`. -/
  | endl
  | errorReceiving
  | errorClosing
  | connectionFailed
  | terminating
  /-- The `endl` of a line in `cerr`. -/
  | cerrEndl
  deriving DecidableEq

/-- `ok` tells whether the call is successful. -/
inductive Action (ι : Type*) where
  | connect (t : ι) (ok : Bool)
  | send (t : ι) (ok : Bool)
  | recv (t : ι) (r : Received)
  | close (t : ι) (ok : Bool)
  | accept (t : ι)
  | acceptFails
  /-- The server's `recv`. -/
  | serve (t : ι) (r : Received)
  /-- The server's `send`. -/
  | answer (t : ι) (ok : Bool)
  /-- The server's `close`. -/
  | closeClient (t : ι) (ok : Bool)
  /-- The next `<<` of the server. -/
  | insert
  | throws
  /-- The answer is lost on its way. -/
  | lose (t : ι)
  | interrupt

def ClientSite.isConnected : ClientSite → Bool
  | .send | .recv | .close | .done | .threw => true
  | .connect | .refused => false

/-- The client's end of a connection is closed. -/
def ClientSite.hasClosed : ClientSite → Bool
  | .done | .threw => true
  | .connect | .send | .recv | .close | .refused => false

def ClientSite.hasEnded : ClientSite → Bool
  | .done | .refused | .threw => true
  | .connect | .send | .recv | .close => false

def ServerSite.hasEnded {ι : Type*} : ServerSite ι → Bool
  | .exited | .threw => true
  | .accept | .recv _ | .send _ | .close _ | .throwing => false

/-- What a receive may return where `sent` is there, and the other side is at its end or not. -/
def Takes (capacity : Nat) (sent : List UInt8) (ended : Bool) : Received → Prop
  | .failed => True
  | .got bytes => Delivery.stream.Allows capacity sent bytes ∧ (bytes = [] → ended = true)

end Tcp

open Tcp

structure TcpExample (ι : Type*) where
  client : ι → ClientSite
  server : ServerSite ι
  /-- Connected and not accepted. -/
  backlog : List ι
  /-- Accepted, in this order. -/
  accepted : List ι
  /-- What the server's receives returned, from whom and as it is to be printed. -/
  rounds : List (ι × Option (List UInt8))
  /-- What has come to the server. -/
  request : ι → List UInt8
  /-- What has come to the client. -/
  answer : ι → List UInt8
  /-- The server's end of the connection is closed. -/
  closed : ι → Bool
  clientOutput : ι → List ClientLine
  /-- What the server has still to insert before it goes on. -/
  pending : List ServerPiece
  serverOutput : List ServerPiece

namespace TcpExample

variable {ι : Type*} [DecidableEq ι]

/-- Nothing more comes to the client. -/
def isOver (s : TcpExample ι) (t : ι) : Bool := s.closed t || s.server.hasEnded

def enabled (s : TcpExample ι) : Action ι → Prop
  | .connect t ok => s.client t = .connect ∧
      (ok = true → s.server.hasEnded = false ∧ s.backlog.length ≤ backlogSize)
  | .send t _ => s.client t = .send
  | .recv t r => s.client t = .recv ∧ Takes Client.bufSize (s.answer t) (s.isOver t) r
  | .close t _ => s.client t = .close
  | .accept t => (s.server = .accept ∧ s.pending = []) ∧ s.backlog.head? = some t
  | .acceptFails => s.server = .accept ∧ s.pending = []
  | .serve t r => (s.server = .recv t ∧ s.pending = []) ∧
      Takes Server.bufSize (s.request t) (s.client t).hasClosed r
  | .answer t _ => s.server = .send t ∧ s.pending = []
  | .closeClient t _ => s.server = .close t ∧ s.pending = []
  | .insert => s.server.hasEnded = false ∧ s.pending ≠ []
  | .throws => s.server = .throwing ∧ s.pending = []
  | .lose t => s.isOver t = true ∧ s.answer t ≠ []
  | .interrupt => s.server.hasEnded = false

/-- The client prints a line and goes on to `x`. -/
def tell (s : TcpExample ι) (t : ι) (x : ClientSite) (line : ClientLine) : TcpExample ι :=
  { s with
    client := Function.update s.client t x
    clientOutput := Function.update s.clientOutput t (s.clientOutput t ++ [line]) }

/-- The server goes on to `x`, where it begins with what it inserts. -/
def goServer (s : TcpExample ι) (x : ServerSite ι) (l : List ServerPiece) : TcpExample ι :=
  { s with server := x, pending := l }

def connectedLine : List ServerPiece := [.clientConnected, .endl]

def talkLines (serverPid : Nat) (text : List UInt8) : List ServerPiece :=
  [.clientRequest, .text text, .endl, .serverResponse, .text (Buffer.ofNat serverPid), .endl]

def connectStep (pid : ι → Nat) (s : TcpExample ι) (t : ι) (ok : Bool) : TcpExample ι :=
  if ok then
    { s.tell t .send (.request (Buffer.ofNat (pid t))) with backlog := s.backlog ++ [t] }
  else s.tell t .refused .errorConnecting

def sendStep (pid : ι → Nat) (s : TcpExample ι) (t : ι) (ok : Bool) : TcpExample ι :=
  if ok then
    { s with
      client := Function.update s.client t .recv
      request := Function.update s.request t (Buffer.ofNat (pid t)) }
  else s.tell t .close .errorReceiving

def recvStep (s : TcpExample ι) (t : ι) (r : Received) : TcpExample ι :=
  s.tell t .close <|
    match (Client.receive r).printed with
    | some text => .response text
    | none => .errorSending

def serveStep (serverPid : Nat) (s : TcpExample ι) (t : ι) (r : Received) : TcpExample ι :=
  let printed := (Server.serve serverPid r).printed
  { (match printed with
    | some text => s.goServer (.send t) (talkLines serverPid text)
    | none => s.goServer (.close t) [.errorReceiving]) with
    rounds := s.rounds ++ [(t, printed)] }

def step (serverPid : Nat) (pid : ι → Nat) (s : TcpExample ι) : Action ι → TcpExample ι
  | .connect t ok => s.connectStep pid t ok
  | .send t ok => s.sendStep pid t ok
  | .recv t r => s.recvStep t r
  | .close t ok => if ok then s.tell t .done .jobDone else s.tell t .threw .errorClosing
  | .accept t =>
      { s.goServer (.recv t) connectedLine with
        backlog := s.backlog.tail, accepted := s.accepted ++ [t] }
  | .acceptFails => s.goServer .accept [.connectionFailed, .cerrEndl]
  | .serve t r => s.serveStep serverPid t r
  -- the result of `send` is not looked at
  | .answer t ok =>
      { s.goServer (.close t) [] with
        answer := if ok then Function.update s.answer t (Buffer.ofNat serverPid) else s.answer }
  | .closeClient t ok =>
      { (if ok then s.goServer .accept [] else s.goServer .throwing [.errorClosing]) with
        closed := Function.update s.closed t true }
  | .insert =>
      { s with
        pending := s.pending.tail
        serverOutput := s.serverOutput ++ s.pending.head?.toList }
  | .throws => s.goServer .threw []
  | .lose t => { s with answer := Function.update s.answer t [] }
  -- what is pending is never inserted
  | .interrupt =>
      { s with server := .exited, serverOutput := s.serverOutput ++ [.terminating, .cerrEndl] }

def machine (serverPid : Nat) (pid : ι → Nat) : Machine (TcpExample ι) (Action ι) where
  init :=
    ⟨fun _ => .connect, .accept, [], [], [], fun _ => [], fun _ => [], fun _ => false,
      fun _ => [], [], []⟩
  enabled := enabled
  next := step serverPid pid

instance (capacity : Nat) (sent : List UInt8) (ended : Bool) :
    ∀ r, Decidable (Takes capacity sent ended r)
  | .failed => isTrue trivial
  | .got bytes => inferInstanceAs (Decidable
      ((bytes <+: sent ∧ bytes.length ≤ capacity ∧ (bytes = [] → sent = [])) ∧
        (bytes = [] → ended = true)))

instance (s : TcpExample ι) : ∀ a, Decidable (s.enabled a)
  | .connect t ok => inferInstanceAs (Decidable (s.client t = .connect ∧
      (ok = true → s.server.hasEnded = false ∧ s.backlog.length ≤ backlogSize)))
  | .send t _ => inferInstanceAs (Decidable (s.client t = .send))
  | .recv t r => inferInstanceAs (Decidable (s.client t = .recv ∧
      Takes Client.bufSize (s.answer t) (s.isOver t) r))
  | .close t _ => inferInstanceAs (Decidable (s.client t = .close))
  | .accept t => inferInstanceAs (Decidable
      ((s.server = .accept ∧ s.pending = []) ∧ s.backlog.head? = some t))
  | .acceptFails => inferInstanceAs (Decidable (s.server = .accept ∧ s.pending = []))
  | .serve t r => inferInstanceAs (Decidable ((s.server = .recv t ∧ s.pending = []) ∧
      Takes Server.bufSize (s.request t) (s.client t).hasClosed r))
  | .answer t _ => inferInstanceAs (Decidable (s.server = .send t ∧ s.pending = []))
  | .closeClient t _ => inferInstanceAs (Decidable (s.server = .close t ∧ s.pending = []))
  | .insert => inferInstanceAs (Decidable (s.server.hasEnded = false ∧ ¬ s.pending = []))
  | .throws => inferInstanceAs (Decidable (s.server = .throwing ∧ s.pending = []))
  | .lose t => inferInstanceAs (Decidable (s.isOver t = true ∧ ¬ s.answer t = []))
  | .interrupt => inferInstanceAs (Decidable (s.server.hasEnded = false))

instance (serverPid : Nat) (pid : ι → Nat) (s : TcpExample ι) (a : Action ι) :
    Decidable ((machine serverPid pid).enabled s a) := inferInstanceAs (Decidable (s.enabled a))

end TcpExample

/-! ### What is printed of what was received -/

namespace Buffer

theorem zero_notMem_ofNat (n : Nat) : 0 ∉ ofNat n := by
  unfold ofNat
  intro hmem
  obtain ⟨c, hc, hzero⟩ := List.mem_map.mp hmem
  have hdigit := Nat.isDigit_of_mem_toDigits (by decide) (by decide) hc
  obtain ⟨hlow, hhigh⟩ := Char.isDigit_iff_toNat.mp hdigit
  have hnat : c.toNat % 256 = 0 := congrArg UInt8.toNat hzero
  rw [show '0'.toNat = 48 from rfl] at hlow
  rw [show '9'.toNat = 57 from rfl] at hhigh
  omega

theorem ofNat_ne_nil (n : Nat) : ofNat n ≠ [] := by
  rw [ofNat, ne_eq, List.map_eq_nil_iff]
  exact Nat.toDigits_ne_nil

theorem cString_eq_self {l : List UInt8} (h : 0 ∉ l) : cString l = l := by
  rw [cString, List.takeWhile_eq_self_iff]
  intro x hx
  exact decide_eq_true fun hzero => h (hzero ▸ hx)

end Buffer

namespace Tcp

/-- What may be printed of a receive where `sent` is there: a part of it, or nothing where the call
failed or found the end. -/
inductive Printed (sent : List UInt8) (ended : Bool) (r : Received) : Option (List UInt8) → Prop
  | nothing (h : r = .failed ∨ sent = [] ∧ ended = true) : Printed sent ended r none
  | text {text : List UInt8} (hne : text ≠ []) (hpre : text <+: sent) :
      Printed sent ended r (some text)

variable {sent bytes : List UInt8} {ended : Bool} {r : Received}

/-- Received into an array of zeros, terminated and read back. -/
theorem cString_part {capacity : Nat} (hzero : 0 ∉ sent) (hpre : bytes <+: sent)
    (hlength : bytes.length ≤ capacity) (buffer : List UInt8) :
    Buffer.cString (Buffer.terminate (Buffer.receive capacity bytes buffer).2
      (Buffer.receive capacity bytes buffer).1) = bytes := by
  rw [Buffer.cString_received, List.take_of_length_le hlength]
  exact Buffer.cString_eq_self fun hmem => hzero (hpre.subset hmem)

theorem receive_pos {capacity : Nat} (hb : bytes ≠ []) (hlength : bytes.length ≤ capacity)
    (buffer : List UInt8) : 0 < (Buffer.receive capacity bytes buffer).2 := by
  rw [Buffer.receive, List.take_of_length_le hlength]
  exact List.length_pos_iff.mpr hb

theorem Server.serve_printed (pid : Nat) (hzero : 0 ∉ sent)
    (h : Takes Server.bufSize sent ended r) :
    Printed sent ended r (Server.serve pid r).printed := by
  cases r with
  | failed => exact .nothing (Or.inl rfl)
  | got bytes =>
      obtain ⟨⟨hpre, hlength, hnil⟩, hover⟩ := h
      by_cases hb : bytes = []
      · subst hb
        exact .nothing (Or.inr ⟨hnil rfl, hover rfl⟩)
      · have hpos := receive_pos hb hlength (List.replicate Server.bufSize 0)
        have htext := cString_part hzero hpre hlength (List.replicate Server.bufSize 0)
        simp only [Server.serve, if_pos hpos, htext]
        exact .text hb hpre

theorem Client.receive_printed (hzero : 0 ∉ sent) (h : Takes Client.bufSize sent ended r) :
    Printed sent ended r (Client.receive r).printed := by
  cases r with
  | failed => exact .nothing (Or.inl rfl)
  | got bytes =>
      obtain ⟨⟨hpre, hlength, hnil⟩, hover⟩ := h
      by_cases hb : bytes = []
      · subst hb
        exact .nothing (Or.inr ⟨hnil rfl, hover rfl⟩)
      · have hpos := receive_pos hb hlength (List.replicate Client.bufSize 0)
        have htext := cString_part hzero hpre hlength (List.replicate Client.bufSize 0)
        simp only [Client.receive, if_pos hpos, htext]
        exact .text hb hpre

end Tcp

end LinuxSystems
