/-
Socket addresses, datagrams and the network between them.

An address is the sixteen bytes of a `sockaddr_in`, because a call that reports the
sender's address writes as many of these bytes as it was told there is room for.
The network is the list of the datagrams that have been sent and not been received.
Of a lossy one any datagram may be lost at any time; a reliable one loses none that
was sent to a bound port, and discards at once what was sent to an unbound one.
Neither duplicates, alters or forges, and both may deliver in any order.
-/
import Mathlib.Data.Fintype.Pi
import Mathlib.Logic.Function.Basic

namespace LinuxSystems

/-- The bytes of a `sockaddr_in`. -/
abbrev Sockaddr := Fin 16 → UInt8

namespace Sockaddr

/-- The size of a `sockaddr_in`. -/
def size : Nat := 16

/-- The port, which is in network byte order. -/
def port (a : Sockaddr) : Nat := 256 * (a 2).toNat + (a 3).toNat

/-- The address of `port` at host `0.0.0.0`: `AF_INET`, `htons(port)` and `INADDR_ANY`. -/
def any (port : Nat) : Sockaddr := fun i =>
  if i = 0 then 2 else if i = 2 then UInt8.ofNat (port / 256) else if i = 3 then UInt8.ofNat port
  else 0

/-- An address argument with room for `len` bytes, after the address `a` was reported in it. -/
def report (len : Nat) (a old : Sockaddr) : Sockaddr := fun i => if i < len then a i else old i

theorem report_zero (a old : Sockaddr) : report 0 a old = old := by
  funext i
  simp [report]

theorem report_size (a old : Sockaddr) : report size a old = a := by
  funext i
  simp [report, size]

end Sockaddr

structure Datagram where
  src : Sockaddr
  dst : Sockaddr
  payload : List UInt8

theorem Datagram.eq_iff {d d' : Datagram} :
    d.src = d'.src ∧ d.dst = d'.dst ∧ d.payload = d'.payload ↔ d = d' := by
  cases d
  cases d'
  simp

instance : DecidableEq Datagram := fun _ _ => decidable_of_iff _ Datagram.eq_iff

/-- What a network does with the datagrams. -/
inductive Network where
  | lossy
  | reliable
  deriving DecidableEq

/-- The datagrams in flight once `d` was sent, where `bound` are the bound ports. -/
def Network.send (network : Network) (bound : Nat → Bool) (d : Datagram)
    (net : List Datagram) : List Datagram :=
  match network with
  | .lossy => net ++ [d]
  | .reliable => if bound d.dst.port then net ++ [d] else net

/-- What is sent to a bound port is in flight, whatever the network. -/
theorem Network.send_bound (network : Network) {bound : Nat → Bool} {d : Datagram}
    (h : bound d.dst.port = true) (net : List Datagram) :
    network.send bound d net = net ++ [d] := by
  cases network with
  | lossy => rfl
  | reliable => simp [Network.send, h]

theorem Network.send_unbound {bound : Nat → Bool} {d : Datagram}
    (h : bound d.dst.port = false) (net : List Datagram) :
    Network.reliable.send bound d net = net := by
  simp [Network.send, h]

end LinuxSystems
