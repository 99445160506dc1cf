/-
The five loops that receive and terminate.

All of them pass the size of the array to the call and store the terminator at the index
the call returned, so each of them stores it one past the end when the array is filled.
Two of the peers in these programs do that: the dice client's stop message has seventeen
characters for an array of sixteen, and every chunk of a file fills the array of the
queue's reader.

Each loop is given by its capacity, its test and what it does next; below each stands
what ties it to the model of its program.
-/
import LinuxSystems.Dice.Exchange
import LinuxSystems.Queue.Transfer
import LinuxSystems.Tcp.Model

namespace LinuxSystems

namespace Buffer

/-- An array with a terminator behind what was received keeps its size, unless it was filled. -/
theorem received_length {capacity : Nat} {data buffer : List UInt8}
    (h : buffer.length = capacity) :
    (terminate (receive capacity data buffer).2 (receive capacity data buffer).1).length = capacity ↔
      data.length < capacity := by
  simp only [terminate, receive, List.length_append, List.length_take, List.length_cons,
    List.length_drop, h]
  omega

end Buffer

namespace Dice

/-- The loop of the child: `bytes_received >= 0`, and on as long as a request arrives. -/
def Server.receiveLoop : ReceiveLoop where
  capacity := bufSize
  delivery := .message
  test _ := true
  again
    | .failed => false
    | .got bytes => Buffer.compare request 0 bytes.length (Buffer.terminate bytes.length bytes) = .eq
  capacity_pos := by decide
  test_pos _ _ := rfl
  again_stream h := nomatch h

/-- The loop of the parent: `b_recv > 0`.  It is gone through as often as the dice are thrown. -/
def Client.receiveLoop : ReceiveLoop where
  capacity := bufSize
  delivery := .message
  test n := n > 0
  again _ := true
  capacity_pos := by decide
  test_pos _ h := decide_eq_true h
  again_stream _ _ _ := rfl

/-- The server's loop goes on to a roll where the model's server does. -/
theorem Server.again_iff (d : Datagram) (v : Server) :
    Server.receiveLoop.again (.got (d.payload.take bufSize)) = true ↔
      (v.received d).site = .roll := by
  rw [received_site, Server.receiveLoop, decide_eq_true_iff, Buffer.compare_eq_iff,
    Buffer.cString_terminate, List.take_length]
  simp

theorem Server.received_buffer (d : Datagram) {v : Server} (h : v.buffer.length = bufSize) :
    (v.received d).buffer.length = bufSize ↔ d.payload.length < bufSize :=
  Buffer.received_length h

theorem Client.received_buffer (d : Datagram) {c : Client} (h : c.buffer.length = bufSize) :
    (c.received d).buffer.length = bufSize ↔ d.payload.length < bufSize := by
  unfold Client.received
  dsimp only
  split
  case isTrue => exact Buffer.received_length h
  case isFalse hzero =>
    simp only [Buffer.receive, List.length_take, List.length_append, List.length_drop, h,
      bufSize] at hzero ⊢
    omega

end Dice

namespace Queue

/-- The reader's loop: `bytes_read > 0`, and on until an empty message arrives. -/
def Reader.receiveLoop : ReceiveLoop where
  capacity := maxSize
  delivery := .message
  test n := n > 0
  again
    | .failed => true
    | .got bytes => bytes.length > 0
  capacity_pos := by decide
  test_pos _ h := decide_eq_true h
  again_stream h := nomatch h

/-- The reader's loop goes round again where the model's reader does. -/
theorem Reader.again_iff (message : List UInt8) {r : Reader} (h : r.site = .receive) :
    Reader.receiveLoop.again (.got (message.take maxSize)) = true ↔
      (r.receive message).site = .receive := by
  rw [receive_site, h, Reader.receiveLoop, decide_eq_true_iff, List.length_take]
  by_cases hm : message = []
  · simp [hm]
  · have hpos : 0 < message.length := List.length_pos_iff.mpr hm
    simp only [if_neg hm, iff_true, maxSize]
    omega

theorem Reader.received_buffer (message : List UInt8) {r : Reader} (h : r.buffer.length = maxSize) :
    (r.receive message).buffer.length = maxSize ↔ message.length < maxSize := by
  unfold Reader.receive
  dsimp only
  split
  case isTrue => exact Buffer.received_length h
  case isFalse hzero =>
    simp only [Buffer.receive, List.length_take, List.length_append, List.length_drop, h,
      maxSize] at hzero ⊢
    omega

end Queue

namespace Tcp

/-- The server's loop: `b_recv > 0`, once for every connection. -/
def Server.receiveLoop : ReceiveLoop where
  capacity := bufSize
  delivery := .stream
  test n := n > 0
  again _ := true
  capacity_pos := by decide
  test_pos _ h := decide_eq_true h
  again_stream _ _ _ := rfl

/-- The client's receive: `b_recv > 0`, once. -/
def Client.receiveLoop : ReceiveLoop where
  capacity := bufSize
  delivery := .stream
  test n := n > 0
  again _ := false
  capacity_pos := by decide
  test_pos _ h := decide_eq_true h
  again_stream _ _ _ := rfl

theorem Server.serve_buffer (pid : Nat) (bytes : List UInt8) :
    (Server.serve pid (.got bytes)).buffer.length = Server.bufSize ↔
      bytes.length < Server.bufSize := by
  unfold Server.serve
  dsimp only
  split
  case isTrue => exact Buffer.received_length List.length_replicate
  case isFalse hzero =>
    simp only [Buffer.receive, List.length_take, List.length_append, List.length_drop,
      List.length_replicate, Server.bufSize] at hzero ⊢
    omega

theorem Client.receive_buffer (bytes : List UInt8) :
    (Client.receive (.got bytes)).buffer.length = Client.bufSize ↔
      bytes.length < Client.bufSize := by
  unfold Client.receive
  dsimp only
  split
  case isTrue => exact Buffer.received_length List.length_replicate
  case isFalse hzero =>
    simp only [Buffer.receive, List.length_take, List.length_append, List.length_drop,
      List.length_replicate, Client.bufSize] at hzero ⊢
    omega

end Tcp

/-! ### All of them -/

/-- The loops that receive and terminate. -/
inductive ReceiveSite where
  | diceServer
  | diceClient
  | queueReader
  | tcpServer
  | tcpClient
  deriving DecidableEq

def ReceiveSite.loop : ReceiveSite → ReceiveLoop
  | .diceServer => Dice.Server.receiveLoop
  | .diceClient => Dice.Client.receiveLoop
  | .queueReader => Queue.Reader.receiveLoop
  | .tcpServer => Tcp.Server.receiveLoop
  | .tcpClient => Tcp.Client.receiveLoop

/-- What the programs themselves send to each of the loops. -/
inductive OwnMessage : ReceiveSite → List UInt8 → Prop
  | request : OwnMessage .diceServer Dice.request
  | stop : OwnMessage .diceServer Dice.stop
  | roll (rand : Nat) : OwnMessage .diceClient (Buffer.ofNat (Dice.dieRoll rand))
  | chunk (w : Queue.Writer) (h : w.buffer.length = Queue.maxSize) : OwnMessage .queueReader w.message
  | fileEnd : OwnMessage .queueReader []
  /-- A process id is at most the largest `pid_t`. -/
  | clientPid (pid : Nat) (h : pid < 2 ^ 31) : OwnMessage .tcpServer (Buffer.ofNat pid)
  | serverPid (pid : Nat) (h : pid < 2 ^ 31) : OwnMessage .tcpClient (Buffer.ofNat pid)

theorem pid_length {pid : Nat} (h : pid < 2 ^ 31) : (Buffer.ofNat pid).length ≤ 10 := by
  rw [Buffer.ofNat, List.length_map, Nat.length_toDigits_le_iff (by decide) (by decide)]
  omega

theorem roll_length (rand : Nat) : (Buffer.ofNat (Dice.dieRoll rand)).length ≤ 10 := by
  obtain ⟨-, hmax⟩ := Dice.dieRoll_range rand
  exact pid_length (by omega)

/-- Of what the programs send, the stop message and the chunks fill their receiver's array. -/
theorem ownMessage_fills {site : ReceiveSite} {m : List UInt8} (h : OwnMessage site m) :
    site.loop.capacity ≤ m.length ↔
      site = .diceServer ∧ m = Dice.stop ∨ site = .queueReader ∧ m ≠ [] := by
  cases h with
  | request | stop | fileEnd => decide
  | roll rand =>
      have hlen := roll_length rand
      simp only [ReceiveSite.loop, Dice.Client.receiveLoop, Dice.bufSize, reduceCtorEq, false_and,
        or_self, iff_false]
      omega
  | chunk w hw =>
      have hlen : w.message.length = Queue.maxSize := by
        rw [Queue.Writer.message, List.length_take, hw, min_self]
      simp only [ReceiveSite.loop, Queue.Reader.receiveLoop, hlen, le_refl, true_iff]
      refine Or.inr ⟨trivial, fun hnil => ?_⟩
      rw [hnil] at hlen
      exact absurd hlen (by decide)
  | clientPid pid hpid =>
      have hlen := pid_length hpid
      simp only [ReceiveSite.loop, Tcp.Server.receiveLoop, Tcp.Server.bufSize, reduceCtorEq,
        false_and, or_self, iff_false]
      omega
  | serverPid pid hpid =>
      have hlen := pid_length hpid
      simp only [ReceiveSite.loop, Tcp.Client.receiveLoop, Tcp.Client.bufSize, reduceCtorEq,
        false_and, or_self, iff_false]
      omega

/--
**A terminator is stored inside the array exactly when nothing fills the array.**  At each
of the five loops, whatever the calls take of what the peer sent, every index is below the
capacity if and only if everything the loop comes to is shorter than the array.  Of what
the programs send themselves, the stop message and the chunks of a file are not.
-/
theorem terminators_inside (site : ReceiveSite) (sent : List (List UInt8)) :
    ((∀ calls, site.loop.Serves sent calls → ∀ i ∈ site.loop.indices calls,
      i < site.loop.capacity) ↔ ∀ d ∈ site.loop.taken sent, d.length < site.loop.capacity) ∧
    ∀ m, OwnMessage site m →
      ((∀ calls, site.loop.Serves [m] calls → ∀ i ∈ site.loop.indices calls,
        i < site.loop.capacity) ↔
        ¬ (site = .diceServer ∧ m = Dice.stop ∨ site = .queueReader ∧ m ≠ [])) := by
  refine ⟨ReceiveLoop.indices_lt_iff sent, fun m hm => ?_⟩
  -- one message is taken whatever it is
  have htaken : site.loop.taken [m] = [m] := by
    simp [ReceiveLoop.taken]
  rw [ReceiveLoop.indices_lt_iff, htaken, List.forall_mem_singleton, ← ownMessage_fills hm, not_le]

/-- A request of the dice client, and one of the TCP client. -/
theorem terminators_inside_requests :
    (∀ calls, ReceiveSite.diceServer.loop.Serves [Dice.request] calls →
      ∀ i ∈ ReceiveSite.diceServer.loop.indices calls, i < 16) ∧
    ∀ calls, ReceiveSite.tcpServer.loop.Serves [Buffer.ofNat 4711] calls →
      ∀ i ∈ ReceiveSite.tcpServer.loop.indices calls, i < 256 :=
  ⟨((terminators_inside .diceServer []).2 Dice.request .request).mpr (by decide),
    (terminators_inside .tcpServer [Buffer.ofNat 4711]).1.mpr (by decide)⟩

/-- The dice client's own stop message has its terminator stored one past the server's array. -/
theorem stop_overruns :
    ¬ ∀ (site : ReceiveSite) (sent : List (List UInt8)) (calls : List Received),
      site.loop.Serves sent calls → ∀ i ∈ site.loop.indices calls, i < site.loop.capacity := by
  intro hall
  have hserves : ReceiveSite.diceServer.loop.Serves [Dice.stop] [.got (Dice.stop.take 16)] :=
    .got rfl (.done [])
  have hstored : 16 ∈ ReceiveSite.diceServer.loop.indices [.got (Dice.stop.take 16)] := by decide
  exact absurd (hall .diceServer _ _ hserves 16 hstored) (by decide)

end LinuxSystems
