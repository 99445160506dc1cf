/-
The TCP server and its client, `Chapter 7/tcp_server.cpp` and `Chapter 7/tcp_client.cpp`.

The server accepts one connection after the other; of each it receives once, into an
array of its own, prints what it received and answers with its process id.  The client
sends its process id, receives once and prints.  `MSG_PEEK` leaves what is received in
the socket, which neither reads again.  What is modelled is what each does with what its
`recv` returned.
-/
import LinuxSystems.Posix.Buffer
import LinuxSystems.Posix.Terminated

namespace LinuxSystems.Tcp

/-- What is left of one receive: the array, what was printed and what was sent. -/
structure Round where
  buffer : List UInt8
  printed : Option (List UInt8)
  sent : Option (List UInt8)

namespace Server

def bufSize : Nat := 256

/-- One connection, at the server with the process id `pid`. -/
def serve (pid : Nat) : Received → Round
  | .failed => ⟨List.replicate bufSize 0, none, none⟩
  | .got bytes =>
      let (buffer, bRecv) := Buffer.receive bufSize bytes (List.replicate bufSize 0)
      if bRecv > 0 then
        let buffer := Buffer.terminate bRecv buffer
        ⟨buffer, some (Buffer.cString buffer), some (Buffer.ofNat pid)⟩
      else ⟨buffer, none, none⟩

end Server

namespace Client

def bufSize : Nat := 16

/-- The answer to the client's request. -/
def receive : Received → Round
  | .failed => ⟨List.replicate bufSize 0, none, none⟩
  | .got bytes =>
      let (buffer, bRecv) := Buffer.receive bufSize bytes (List.replicate bufSize 0)
      if bRecv > 0 then
        let buffer := Buffer.terminate bRecv buffer
        ⟨buffer, some (Buffer.cString buffer), none⟩
      else ⟨buffer, none, none⟩

end Client

end LinuxSystems.Tcp
