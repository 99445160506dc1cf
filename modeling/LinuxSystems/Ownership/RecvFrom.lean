/-
The generator `recv_from` of `Chapter 10/coroutine_socket.cpp`.

Its body receives into one array, which is all zeros when the coroutine starts, and yields a
string made of the array up to its first zero.  Nothing else is ever written to the array: not a
terminator behind what was received, and not a zero where nothing was.  So a string holds what an
earlier and longer datagram left behind the new one, and a receive that failed yields what was
there before; and a datagram that fills the array leaves no zero to stop at.
-/
import LinuxSystems.Ownership.Enumeration
import LinuxSystems.Posix.Buffer
import LinuxSystems.Posix.Terminated
import Mathlib.Order.Defs.PartialOrder

namespace LinuxSystems

/-- What was received: nothing by a call that failed. -/
def Received.payload : Received → List UInt8
  | .failed => []
  | .got bytes => bytes

namespace RecvFrom

open Enumeration

def bufSize : Nat := 256

/-- `tmp_buf` when the coroutine starts. -/
def start : List UInt8 := List.replicate bufSize 0

/-- `recvfrom`, into `tmp_buf`. -/
def receive (tmpBuf : List UInt8) : Received → List UInt8
  | .failed => tmpBuf
  | .got bytes => (Buffer.receive bufSize bytes tmpBuf).1

/-- `co_yield tmp_buf.data()`, and the call that returns it: to look for the end of the string behind
the end of the array is undefined. -/
def yieldValue (tmpBuf : List UInt8) : Answer (List UInt8) :=
  if 0 ∈ tmpBuf then .returned (some (Buffer.cString tmpBuf)) else .undefined

/-- What the calls of the generator return, where `recvfrom` does in each of them what is listed. -/
def answers (tmpBuf : List UInt8) : List Received → List (Answer (List UInt8))
  | [] => []
  | r :: calls => yieldValue (receive tmpBuf r) :: answers (receive tmpBuf r) calls

/-! ### The array -/

/-- Zeros behind `p`. -/
def filled (p : List UInt8) : List UInt8 := p ++ List.replicate (bufSize - p.length) 0

variable {p data : List UInt8} {r : Received}

theorem filled_nil : filled [] = start := rfl

/-- A call that failed leaves in the array what one that received nothing leaves there. -/
theorem receive_eq (tmpBuf : List UInt8) (r : Received) :
    receive tmpBuf r = (Buffer.receive bufSize r.payload tmpBuf).1 := by
  cases r with
  | failed => rfl
  | got bytes => rfl

theorem cString_append {tail : List UInt8} (hdata : 0 ∉ data) :
    Buffer.cString (data ++ 0 :: tail) = data := by
  have hall : ∀ x ∈ data, decide (x ≠ 0) = true := by
    intro x hx
    exact decide_eq_true fun h => hdata (h ▸ hx)
  rw [Buffer.cString, List.takeWhile_append_of_pos hall,
    List.takeWhile_cons_of_neg (by simp), List.append_nil]

/-- A string that ends inside the array. -/
theorem yieldValue_filled (hdata : 0 ∉ data) (hlength : data.length < bufSize) :
    yieldValue (filled data) = .returned (some data) := by
  obtain ⟨n, hn⟩ := Nat.exists_eq_add_of_lt hlength
  have hfilled : filled data = data ++ 0 :: List.replicate n 0 := by
    rw [filled, ← List.replicate_succ]
    congr 2
    omega
  rw [yieldValue, hfilled, if_pos (List.mem_append_right _ List.mem_cons_self), cString_append hdata]

/-- What is no shorter than what was there covers it. -/
theorem receive_longer (hle : p.length ≤ data.length) (hlength : data.length < bufSize) :
    (Buffer.receive bufSize data (filled p)).1 = filled data := by
  have htake : data.take bufSize = data := List.take_of_length_le hlength.le
  have hzeros : bufSize - p.length - (data.length - p.length) = bufSize - data.length := by omega
  rw [Buffer.receive, htake, filled, List.drop_append, List.drop_of_length_le hle,
    List.nil_append, List.drop_replicate, hzeros, filled]

/-- What is shorter leaves the rest of it. -/
theorem receive_shorter (hlt : data.length < p.length) (hlength : p.length < bufSize) :
    (Buffer.receive bufSize data (filled p)).1 = filled (data ++ p.drop data.length) := by
  have htake : data.take bufSize = data := List.take_of_length_le (by omega)
  have hlen : (data ++ p.drop data.length).length = p.length := by
    rw [List.length_append, List.length_drop]
    omega
  rw [Buffer.receive, htake, filled, List.drop_append_of_le_length hlt.le, filled, hlen,
    List.append_assoc]

/-- What fills the array leaves no zero in it. -/
theorem receive_full (hdata : 0 ∉ data) (hp : p.length ≤ bufSize)
    (hlength : bufSize ≤ data.length) : 0 ∉ (Buffer.receive bufSize data (filled p)).1 := by
  have htake : (data.take bufSize).length = bufSize := List.length_take_of_le hlength
  have hfilled : (filled p).length = bufSize := by
    rw [filled, List.length_append, List.length_replicate]
    omega
  have hnothing : (filled p).drop (data.take bufSize).length = [] :=
    List.drop_of_length_le (by omega)
  rw [Buffer.receive, hnothing, List.append_nil]
  exact fun h => hdata (List.mem_of_mem_take h)

/-- **A call yields what it received exactly where that covers what was there, and ends inside the
array.** -/
theorem yieldValue_iff (hfree : 0 ∉ p) (hp : p.length < bufSize) (hr : 0 ∉ r.payload) :
    yieldValue (receive (filled p) r) = .returned (some r.payload) ↔
      p.length ≤ r.payload.length ∧ r.payload.length < bufSize := by
  rw [receive_eq]
  rcases Nat.lt_or_ge r.payload.length p.length with hlt | hle
  · have hlen : (r.payload ++ p.drop r.payload.length).length = p.length := by
      rw [List.length_append, List.length_drop]
      omega
    have hzero : 0 ∉ r.payload ++ p.drop r.payload.length := by
      intro h
      rcases List.mem_append.mp h with h | h
      · exact hr h
      · exact hfree (List.mem_of_mem_drop h)
    rw [receive_shorter hlt hp, yieldValue_filled hzero (by omega)]
    refine ⟨fun h => ?_, fun h => absurd h.1 (by omega)⟩
    have heq := congrArg List.length (Option.some.inj (Answer.returned.inj h))
    omega
  · rcases Nat.lt_or_ge r.payload.length bufSize with hlength | hlength
    · rw [receive_longer hle hlength]
      exact iff_of_true (yieldValue_filled hr hlength) ⟨hle, hlength⟩
    · have hfull := receive_full hr hp.le hlength
      rw [yieldValue, if_neg hfull]
      exact iff_of_false nofun (by omega)

/-! ### A sequence of calls -/

/-- The calls from where `p` was received on. -/
theorem answers_iff (hfree : 0 ∉ p) (hp : p.length < bufSize) {calls : List Received}
    (hcalls : ∀ r ∈ calls, 0 ∉ r.payload) :
    answers (filled p) calls = calls.map (fun r => .returned (some r.payload)) ↔
      (p.length :: calls.map fun r => r.payload.length).IsChain (· ≤ ·) ∧
        ∀ r ∈ calls, r.payload.length < bufSize := by
  induction calls generalizing p with
  | nil => simp [answers]
  | cons r calls ih =>
      have hr : 0 ∉ r.payload := hcalls r List.mem_cons_self
      rw [answers, List.map_cons, List.cons.injEq, yieldValue_iff hfree hp hr, List.map_cons,
        List.isChain_cons_cons, List.forall_mem_cons]
      by_cases hnext : p.length ≤ r.payload.length ∧ r.payload.length < bufSize
      · obtain ⟨hle, hlength⟩ := hnext
        have hrest := ih hr hlength fun r' hr' => hcalls r' (List.mem_cons_of_mem r hr')
        rw [receive_eq, receive_longer hle hlength, hrest]
        simp only [hle, hlength, true_and]
      · refine iff_of_false (fun h => hnext h.1) fun h => hnext ⟨h.1.1, h.2.1⟩

/--
**When the strings are the datagrams.**  For every sequence of calls, each of which receives a
datagram without a zero in it or fails: each call returns what it received, or the empty string
where it failed, exactly when nothing received is shorter than what was received before it, a
failure counting as nothing, and all of it is shorter than the array.
-/
theorem datagrams_yielded (calls : List Received) (hcalls : ∀ r ∈ calls, 0 ∉ r.payload) :
    answers start calls = calls.map (fun r => .returned (some r.payload)) ↔
      (calls.map fun r => r.payload.length).Pairwise (· ≤ ·) ∧
        ∀ r ∈ calls, r.payload.length < bufSize := by
  have hpos : ([] : List UInt8).length < bufSize := by decide
  rw [← filled_nil, answers_iff List.not_mem_nil hpos hcalls, List.isChain_iff_pairwise,
    List.pairwise_cons]
  exact and_congr_left' (and_iff_right fun n _ => Nat.zero_le n)

/-- Nothing, then one datagram and a longer one. -/
theorem datagrams_yielded_longer :
    answers start [.failed, .got [104, 105], .got [104, 101, 121]] =
      [.returned (some []), .returned (some [104, 105]), .returned (some [104, 101, 121])] :=
  (datagrams_yielded [.failed, .got [104, 105], .got [104, 101, 121]] (by decide)).mpr (by decide)

/-- A shorter one behind a longer one, and a call that failed behind both. -/
def shorterCalls : List Received := [.got [104, 101, 121], .got [104, 105], .failed]

/-- A datagram that fills the array. -/
def fullCalls : List Received := [.got (List.replicate bufSize 1)]

/-- The longer one shows through, twice; and the full array has no end. -/
theorem datagrams_mixed :
    answers start shorterCalls ≠ shorterCalls.map (fun r => .returned (some r.payload)) ∧
      answers start fullCalls ≠ fullCalls.map (fun r => .returned (some r.payload)) := by
  decide +kernel

end RecvFrom

end LinuxSystems
