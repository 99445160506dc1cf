/-
The dice server and its client, `Chapter 7/udp_example.cpp`.

A fork leaves a child, the server, and a parent, the client.  The server binds the
port, and answers every request with a roll until it receives something else.  The
client asks for a number of throws, sends that many requests one after another, each
followed by a receive, then the stop message, and is done.  Nothing but the datagrams
orders the two.

Each system call is a step, and so are the roll and the test of the client's loop.
No call fails.  `network` is what the network does with the datagrams, and `Hosts`
are the addresses by which the two sockets know each other.
-/
import LinuxSystems.Machine.Run
import LinuxSystems.Posix.Buffer
import LinuxSystems.Posix.Datagram

namespace LinuxSystems

namespace Dice

def port : Nat := 8072

def bufSize : Nat := 16

/-- `die_roll`, of what `rand` returned. -/
def dieRoll (rand : Nat) : Nat :=
  let min := 1
  let max := 6
  rand % (max - min + 1) + min

def stop : List UInt8 := Buffer.ofString "No more requests!"

def request : List UInt8 := Buffer.ofString "Throw dice!"

/-- The addresses that `recvfrom` reports for the two sockets. -/
structure Hosts where
  server : Sockaddr
  client : Sockaddr
  server_port : server.port = port
  /-- The port of the client's socket is one that was free. -/
  client_port : client.port ≠ port

/-! ### The client -/

inductive ClientSite where
  /-- At `cin >> dice_rolls`. -/
  | input
  | socket
  /-- At `i <= dice_rolls`. -/
  | loop
  /-- At the `sendto` of a request. -/
  | request
  /-- At `recvfrom`. -/
  | receive
  /-- At the `sendto` of the stop message. -/
  | stop
  | close
  | exited
  deriving DecidableEq

structure Client where
  site : ClientSite
  diceRolls : Int
  i : Int
  servaddr : Sockaddr
  len : Nat
  buffer : List UInt8
  /-- The socket has a port, which it gets with its first `sendto`. -/
  bound : Bool
  /-- The throw numbers and results that were printed. -/
  printed : List (Int × List UInt8)

namespace Client

def start : Client where
  site := .input
  diceRolls := 0
  i := 0
  servaddr := Sockaddr.any port
  len := 0
  buffer := List.replicate bufSize 0
  bound := false
  printed := []

/-- The results that were printed, in order. -/
def results (c : Client) : List (List UInt8) := c.printed.map Prod.snd

/-- `x` is read into `dice_rolls`. -/
def input (x : Int) (c : Client) : Client :=
  -- no number is both at most 0 and over 256
  { c with diceRolls := if x ≤ 0 ∧ x > 256 then 0 else x, site := .socket }

def openSocket (c : Client) : Client := { c with len := 0, i := 1, site := .loop }

def test (c : Client) : Client := { c with site := if c.i ≤ c.diceRolls then .request else .stop }

def sentRequest (c : Client) : Client := { c with bound := true, site := .receive }

/-- `recvfrom` returns with `d`; a result is printed unless it is empty. -/
def received (d : Datagram) (c : Client) : Client :=
  let (buffer, bRecv) := Buffer.receive bufSize d.payload c.buffer
  let c' := { c with
    servaddr := Sockaddr.report c.len d.src c.servaddr
    len := Sockaddr.size
    buffer
    i := c.i + 1
    site := .loop }
  if bRecv > 0 then
    let buffer := Buffer.terminate bRecv buffer
    { c' with buffer, printed := c.printed ++ [(c.i, Buffer.cString buffer)] }
  else c'

def sentStop (c : Client) : Client := { c with bound := true, site := .close }

def close (c : Client) : Client := { c with bound := false, site := .exited }

end Client

/-! ### The server -/

inductive ServerSite where
  | socket
  | bind
  /-- At `recvfrom`. -/
  | receive
  /-- At `die_roll()`. -/
  | roll
  /-- At the `sendto` of the result `v`. -/
  | reply (v : Nat)
  | close
  | exited
  deriving DecidableEq

structure Server where
  site : ServerSite
  cliaddr : Sockaddr
  len : Nat
  buffer : List UInt8
  /-- The requests that were printed. -/
  printed : List (List UInt8)
  /-- What `die_roll` returned, call by call. -/
  rolls : List Nat
  /-- The results that were sent. -/
  replies : List Nat

namespace Server

def start : Server where
  site := .socket
  cliaddr := fun _ => 0
  len := 0
  buffer := List.replicate bufSize 0
  printed := []
  rolls := []
  replies := []

/-- Its socket is bound to the port. -/
def bound (v : Server) : Bool :=
  match v.site with
  | .receive | .roll | .reply _ | .close => true
  | .socket | .bind | .exited => false

def openSocket (v : Server) : Server := { v with site := .bind }

def bind (v : Server) : Server := { v with len := Sockaddr.size, site := .receive }

/-- `recvfrom` returns with `d`; anything but a request ends the loop. -/
def received (d : Datagram) (v : Server) : Server :=
  let (buffer, bytesReceived) := Buffer.receive bufSize d.payload v.buffer
  let buffer := Buffer.terminate bytesReceived buffer
  { v with
    cliaddr := Sockaddr.report v.len d.src v.cliaddr
    len := Sockaddr.size
    buffer
    printed := v.printed ++ [Buffer.cString buffer]
    site := if Buffer.compare request 0 bytesReceived buffer = .eq then .roll else .close }

def rolled (rand : Nat) (v : Server) : Server :=
  { v with rolls := v.rolls ++ [dieRoll rand], site := .reply (dieRoll rand) }

def replied (result : Nat) (v : Server) : Server :=
  { v with replies := v.replies ++ [result], site := .receive }

def close (v : Server) : Server := { v with site := .exited }

end Server

end Dice

open Dice

/-- The two processes, and the datagrams in flight between them. -/
structure Dice where
  client : Client
  server : Server
  net : List Datagram

namespace Dice

inductive Action where
  | input
  | clientSocket
  | test
  | request
  | clientReceive (d : Datagram)
  | stop
  | clientClose
  | serverSocket
  | bind
  | serverReceive (d : Datagram)
  | roll (rand : Nat)
  | reply (result : Nat)
  | serverClose
  /-- The network loses `d`. -/
  | lose (d : Datagram)

def enabled (network : Network) (hosts : Hosts) (s : Dice) : Action → Prop
  | .input => s.client.site = .input
  | .clientSocket => s.client.site = .socket
  | .test => s.client.site = .loop
  | .request => s.client.site = .request
  | .clientReceive d => s.client.site = .receive ∧ d ∈ s.net ∧ d.dst.port = hosts.client.port
  | .stop => s.client.site = .stop
  | .clientClose => s.client.site = .close
  | .serverSocket => s.server.site = .socket
  | .bind => s.server.site = .bind
  | .serverReceive d => s.server.site = .receive ∧ d ∈ s.net ∧ d.dst.port = port
  | .roll _ => s.server.site = .roll
  | .reply result => s.server.site = .reply result
  | .serverClose => s.server.site = .close
  | .lose d => network = .lossy ∧ d ∈ s.net

instance (network : Network) (hosts : Hosts) (s : Dice) : ∀ a, Decidable (enabled network hosts s a)
  | .input | .clientSocket | .test | .request | .stop | .clientClose =>
      inferInstanceAs (Decidable (s.client.site = _))
  | .serverSocket | .bind | .roll _ | .reply _ | .serverClose =>
      inferInstanceAs (Decidable (s.server.site = _))
  | .clientReceive d => inferInstanceAs (Decidable (_ ∧ d ∈ s.net ∧ _))
  | .serverReceive d => inferInstanceAs (Decidable (_ ∧ d ∈ s.net ∧ _))
  | .lose d => inferInstanceAs (Decidable (_ ∧ d ∈ s.net))

/-- The bound ports. -/
def bound (hosts : Hosts) (s : Dice) (p : Nat) : Bool :=
  (p == port && s.server.bound) || (p == hosts.client.port && s.client.bound)

/-- The datagrams in flight once `d` was sent. -/
def send (network : Network) (hosts : Hosts) (s : Dice) (d : Datagram) : List Datagram :=
  network.send (s.bound hosts) d s.net

/-- `x` is what the user types. -/
def step (network : Network) (hosts : Hosts) (x : Int) (s : Dice) : Action → Dice
  | .input => { s with client := s.client.input x }
  | .clientSocket => { s with client := s.client.openSocket }
  | .test => { s with client := s.client.test }
  | .request =>
      { s with client := s.client.sentRequest
               net := s.send network hosts ⟨hosts.client, s.client.servaddr, request⟩ }
  | .clientReceive d => { s with client := s.client.received d, net := s.net.erase d }
  | .stop =>
      { s with client := s.client.sentStop
               net := s.send network hosts ⟨hosts.client, s.client.servaddr, stop⟩ }
  | .clientClose => { s with client := s.client.close }
  | .serverSocket => { s with server := s.server.openSocket }
  | .bind => { s with server := s.server.bind }
  | .serverReceive d => { s with server := s.server.received d, net := s.net.erase d }
  | .roll rand => { s with server := s.server.rolled rand }
  | .reply result =>
      { s with server := s.server.replied result
               net := s.send network hosts
                 ⟨hosts.server, s.server.cliaddr, Buffer.ofNat result⟩ }
  | .serverClose => { s with server := s.server.close }
  | .lose d => { s with net := s.net.erase d }

/-- Both processes right after the fork. -/
def machine (network : Network) (hosts : Hosts) (x : Int) : Machine Dice Action where
  init := ⟨Client.start, Server.start, []⟩
  enabled := enabled network hosts
  next := step network hosts x

instance (network : Network) (hosts : Hosts) (x : Int) (s : Dice) (a : Action) :
    Decidable ((machine network hosts x).enabled s a) :=
  inferInstanceAs (Decidable (enabled network hosts s a))

end Dice

end LinuxSystems
