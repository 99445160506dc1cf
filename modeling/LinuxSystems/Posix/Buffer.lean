/-
Characters in a buffer, as C reads them.

A program that receives into an array of characters, stores a terminator behind what
it received and then reads the array as a C string sees the received bytes up to the
first zero among them, whatever the array held before.  That is the one fact needed
of buffers here; `compare` is `std::string_view::compare` against such a string.
-/
import Mathlib.Data.List.TakeWhile

namespace LinuxSystems

namespace Buffer

/-- The characters of a text. -/
def ofString (s : String) : List UInt8 := s.toList.map Char.toUInt8

/-- `std::to_string` of a natural number. -/
def ofNat (n : Nat) : List UInt8 := (Nat.toDigits 10 n).map Char.toUInt8

/-- A call that receives at most `capacity` bytes of `data` at the front of `buffer`: what the
buffer holds then, and how many bytes were received. -/
def receive (capacity : Nat) (data buffer : List UInt8) : List UInt8 × Nat :=
  (data.take capacity ++ buffer.drop (data.take capacity).length, (data.take capacity).length)

/-- `buffer[n] = '\0'`, also where that is one past its end. -/
def terminate (n : Nat) (buffer : List UInt8) : List UInt8 :=
  buffer.take n ++ 0 :: buffer.drop (n + 1)

/-- The C string that starts at the front of the buffer. -/
def cString (buffer : List UInt8) : List UInt8 := buffer.takeWhile (· ≠ 0)

/-- `view.compare(pos, n, buffer)`. -/
def compare (view : List UInt8) (pos n : Nat) (buffer : List UInt8) : Ordering :=
  Ord.compare ((view.drop pos).take n) (cString buffer)

theorem cString_terminate (n : Nat) (buffer : List UInt8) :
    cString (terminate n buffer) = cString (buffer.take n) := by
  unfold cString terminate
  induction buffer.take n with
  | nil => simp
  | cons x l ih =>
      by_cases hx : x = 0
      · simp [hx]
      · simpa [hx] using ih

/-- Received, terminated and read back: the received bytes up to the first zero. -/
theorem cString_received (capacity : Nat) (data buffer : List UInt8) :
    cString (terminate (receive capacity data buffer).2 (receive capacity data buffer).1) =
      cString (data.take capacity) := by
  rw [cString_terminate]
  simp [receive]

theorem compare_eq_iff {view : List UInt8} {pos n : Nat} {buffer : List UInt8} :
    compare view pos n buffer = .eq ↔ (view.drop pos).take n = cString buffer :=
  Std.compare_eq_iff_eq

/-- As many characters of `view` as there are of `data` are the C string in `data` where `data`
ends before `view` does, or goes on with a zero behind it. -/
theorem take_eq_cString_iff {view : List UInt8} (hview : 0 ∉ view) (data : List UInt8) :
    view.take data.length = cString data ↔ data <+: view ∨ view ++ [0] <+: data := by
  induction view generalizing data with
  | nil =>
      cases data with
      | nil => simp [cString]
      | cons x l =>
          by_cases hx : x = 0
          · simp [cString, hx]
          · simp [cString, hx, Ne.symm hx]
  | cons c view ih =>
      have hc : c ≠ 0 := fun h => hview (h ▸ List.mem_cons_self)
      have hrest := ih fun h => hview (List.mem_cons_of_mem c h)
      cases data with
      | nil => simp [cString]
      | cons x l =>
          by_cases hx : x = c
          · subst hx
            have hcons : cString (x :: l) = x :: cString l :=
              List.takeWhile_cons_of_pos (decide_eq_true hc)
            rw [hcons, List.length_cons, List.take_succ_cons, List.cons_append,
              List.cons_prefix_cons, List.cons_prefix_cons, ← and_or_left, ← hrest, List.cons.injEq]
          · by_cases hzero : x = 0
            · simp [cString, hzero, hc, Ne.symm hc]
            · simp [cString, hx, hzero, Ne.symm hx]

end Buffer

end LinuxSystems
