/-
Receive, then terminate.

A loop that receives into an array and stores a terminator at the index the call
returned stays inside the array as long as the call never fills it.  What the call
returns is up to the peer: of a message it is all that fits, of a stream any part of
what there is and fits.  So one byte too many is sent exactly when the peer has as many
bytes to offer as the array has places, in a call the loop comes to.
-/
import Mathlib.Data.List.Basic

namespace LinuxSystems

/-- What one receive call did. -/
inductive Received where
  | failed
  | got (bytes : List UInt8)

/-- How a receive call takes what the peer sent. -/
inductive Delivery where
  /-- One message, of which the rest is discarded. -/
  | message
  /-- Some of the bytes, but none only where there are none. -/
  | stream
  deriving DecidableEq

/-- What a call with room for `capacity` bytes may take of `sent`. -/
def Delivery.Allows (capacity : Nat) (sent bytes : List UInt8) : Delivery → Prop
  | .message => bytes = sent.take capacity
  | .stream => bytes <+: sent ∧ bytes.length ≤ capacity ∧ (bytes = [] → sent = [])

/-- A loop that receives into an array of `capacity` characters and terminates what it received. -/
structure ReceiveLoop where
  capacity : Nat
  delivery : Delivery
  /-- The test of the number of received bytes before the terminator is stored. -/
  test : Nat → Bool
  /-- The loop goes round again. -/
  again : Received → Bool
  capacity_pos : 0 < capacity
  test_pos : ∀ n, 0 < n → test n = true
  /-- What is received from a stream does not decide whether the loop goes on. -/
  again_stream : delivery = .stream → ∀ b b', again (.got b) = again (.got b')

namespace ReceiveLoop

variable (loop : ReceiveLoop)

/-- Where a terminator is stored after one call. -/
def index : Received → List Nat
  | .failed => []
  | .got bytes => if loop.test bytes.length then [bytes.length] else []

/-- Where terminators are stored, call by call. -/
def indices : List Received → List Nat
  | [] => []
  | r :: calls => loop.index r ++ if loop.again r then indices calls else []

/-- The calls a peer can bring about: each takes the next thing it sent, or fails and takes
nothing. -/
inductive Serves : List (List UInt8) → List Received → Prop
  | done (sent) : Serves sent []
  | failed {sent calls} : Serves sent calls → Serves sent (.failed :: calls)
  | got {d bytes sent calls} : loop.delivery.Allows loop.capacity d bytes → Serves sent calls →
      Serves (d :: sent) (.got bytes :: calls)

/-- What the loop comes to of what the peer sent when no call fails. -/
def taken : List (List UInt8) → List (List UInt8)
  | [] => []
  | d :: sent => d :: if loop.again (.got (d.take loop.capacity)) then taken sent else []

/-- The calls that take as much as fits. -/
def fullest (sent : List (List UInt8)) : List Received := sent.map fun d => .got (d.take loop.capacity)

variable {loop}

theorem allows_take (d : List UInt8) :
    loop.delivery.Allows loop.capacity d (d.take loop.capacity) := by
  cases loop.delivery with
  | message => rfl
  | stream =>
      refine ⟨List.take_prefix _ d, List.length_take_le _ d, fun h => ?_⟩
      rcases List.take_eq_nil_iff.mp h with h0 | hnil
      · exact absurd h0 (Nat.ne_of_gt loop.capacity_pos)
      · exact hnil

/-- Never more than was sent. -/
theorem length_of_allows {d bytes : List UInt8}
    (h : loop.delivery.Allows loop.capacity d bytes) : bytes.length ≤ d.length := by
  cases hd : loop.delivery with
  | message =>
      rw [hd] at h
      rw [show bytes = d.take loop.capacity from h, List.length_take]
      exact Nat.min_le_right _ _
  | stream =>
      rw [hd] at h
      exact h.1.length_le

theorem again_of_allows {d bytes : List UInt8}
    (h : loop.delivery.Allows loop.capacity d bytes) :
    loop.again (.got bytes) = loop.again (.got (d.take loop.capacity)) := by
  cases hd : loop.delivery with
  | message =>
      rw [hd] at h
      rw [show bytes = d.take loop.capacity from h]
  | stream => exact loop.again_stream hd _ _

theorem serves_fullest (sent : List (List UInt8)) : loop.Serves sent (loop.fullest sent) := by
  induction sent with
  | nil => exact .done []
  | cons d sent ih => exact .got (allows_take d) ih

/-- Whatever the calls take, the indices are no larger than what was sent. -/
theorem indices_le {sent : List (List UInt8)} {calls : List Received} (h : loop.Serves sent calls) :
    ∀ i ∈ loop.indices calls, ∃ d ∈ loop.taken sent, i ≤ d.length := by
  induction h with
  | done => exact fun i hi => absurd hi List.not_mem_nil
  | failed _ ih =>
      intro i hi
      simp only [indices, index, List.nil_append] at hi
      split at hi
      · exact ih i hi
      · exact absurd hi List.not_mem_nil
  | @got d bytes sent calls hallows _ ih =>
      intro i hi
      rcases List.mem_append.mp hi with hi | hi
      · refine ⟨d, List.mem_cons_self, ?_⟩
        by_cases htest : loop.test bytes.length = true
        · rw [index, if_pos htest] at hi
          rw [List.mem_singleton.mp hi]
          exact length_of_allows hallows
        · rw [index, if_neg htest] at hi
          exact absurd hi List.not_mem_nil
      · rw [again_of_allows hallows] at hi
        split at hi
        case isTrue hagain =>
          obtain ⟨e, he, hle⟩ := ih i hi
          refine ⟨e, ?_, hle⟩
          rw [taken, if_pos hagain]
          exact List.mem_cons_of_mem d he
        case isFalse => exact absurd hi List.not_mem_nil

/-- What fills the array has its terminator one past the end. -/
theorem capacity_mem_indices {sent : List (List UInt8)} {d : List UInt8} (hd : d ∈ loop.taken sent)
    (hlen : loop.capacity ≤ d.length) : loop.capacity ∈ loop.indices (loop.fullest sent) := by
  induction sent with
  | nil => exact absurd hd List.not_mem_nil
  | cons e sent ih =>
      simp only [fullest, List.map_cons, indices]
      rcases List.mem_cons.mp hd with rfl | hd
      · refine List.mem_append_left _ ?_
        have htake : (d.take loop.capacity).length = loop.capacity := by
          rw [List.length_take]
          omega
        rw [index, htake, if_pos (loop.test_pos _ loop.capacity_pos)]
        exact List.mem_singleton_self _
      · refine List.mem_append_right _ ?_
        split at hd
        case isTrue hagain =>
          rw [if_pos hagain]
          exact ih hd
        case isFalse => exact absurd hd List.not_mem_nil

/--
**The terminator stays inside the array exactly when nothing fills it.**  Whatever the
calls take of what the peer sent, every index is below the capacity, if and only if
everything the loop comes to is shorter than that.
-/
theorem indices_lt_iff (sent : List (List UInt8)) :
    (∀ calls, loop.Serves sent calls → ∀ i ∈ loop.indices calls, i < loop.capacity) ↔
      ∀ d ∈ loop.taken sent, d.length < loop.capacity := by
  constructor
  · intro h d hd
    by_contra hlen
    have hfull := h _ (serves_fullest sent) loop.capacity
      (capacity_mem_indices hd (Nat.le_of_not_lt hlen))
    exact absurd hfull (Nat.lt_irrefl _)
  · intro h calls hcalls i hi
    obtain ⟨d, hd, hle⟩ := indices_le hcalls i hi
    exact Nat.lt_of_le_of_lt hle (h d hd)

end ReceiveLoop

end LinuxSystems
