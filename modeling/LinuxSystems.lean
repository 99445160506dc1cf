import LinuxSystems.Machine.Run
import LinuxSystems.Machine.Simulation
import LinuxSystems.Machine.Endless
import LinuxSystems.Machine.Alternation
import LinuxSystems.Machine.TwoParties
import LinuxSystems.Machine.Names
import LinuxSystems.Machine.Tally
import LinuxSystems.Machine.FifoLock
import LinuxSystems.Machine.RwLock
import LinuxSystems.Machine.PhaseBarrier
import LinuxSystems.Machine.Monitor
import LinuxSystems.Machine.Ownership
import LinuxSystems.Machine.Sharing
import LinuxSystems.Machine.LostUpdate
import LinuxSystems.Machine.RefCount
import LinuxSystems.Machine.StopState
import LinuxSystems.Machine.Crew
import LinuxSystems.Posix.Buffer
import LinuxSystems.Posix.Terminated
import LinuxSystems.Posix.Datagram
import LinuxSystems.Posix.Semaphore
import LinuxSystems.Posix.Pages
import LinuxSystems.Posix.PipeEnds
import LinuxSystems.TicketLock.Lock
import LinuxSystems.TicketLock.Exclusion
import LinuxSystems.TicketLock.Clients
import LinuxSystems.TicketLock.Access
import LinuxSystems.TicketLock.Handover
import LinuxSystems.TicketLock.Progress
import LinuxSystems.ConditionVar.Model
import LinuxSystems.ConditionVar.Counts
import LinuxSystems.ConditionVar.Release
import LinuxSystems.Event.Model
import LinuxSystems.Event.Life
import LinuxSystems.Event.Resume
import LinuxSystems.Event.Delivery
import LinuxSystems.Event.Payload
import LinuxSystems.Sensors.Model
import LinuxSystems.Sensors.Lockstep
import LinuxSystems.Sensors.Means
import LinuxSystems.Sensors.Finish
import LinuxSystems.Dice.Model
import LinuxSystems.Dice.Exchange
import LinuxSystems.Dice.Startup
import LinuxSystems.Dice.Peer
import LinuxSystems.Dice.Request
import LinuxSystems.Dice.Throws
import LinuxSystems.Queue.Model
import LinuxSystems.Queue.Transfer
import LinuxSystems.Queue.Finish
import LinuxSystems.Tcp.Model
import LinuxSystems.Tcp.Clients
import LinuxSystems.Tcp.Rounds
import LinuxSystems.Tcp.Finish
import LinuxSystems.Receivers
import LinuxSystems.Pipe.Dialogue
import LinuxSystems.Pipe.Stream
import LinuxSystems.AnonymousPipe.Model
import LinuxSystems.AnonymousPipe.Child
import LinuxSystems.AnonymousPipe.Finish
import LinuxSystems.Pipe.Sigpipe
import LinuxSystems.SharedMemory.Model
import LinuxSystems.SharedMemory.Mutex
import LinuxSystems.SharedMemory.Wakeups
import LinuxSystems.SharedMemory.Handoff
import LinuxSystems.SharedMemory.Finish
import LinuxSystems.SharedMemory.Unmap
import LinuxSystems.ShmExample.Model
import LinuxSystems.ShmExample.Runs
import LinuxSystems.ShmExample.Regions
import LinuxSystems.ShmExample.Copy
import LinuxSystems.ShmExample.Ledger
import LinuxSystems.ShmExample.Finish
import LinuxSystems.ShmExample.Values
import LinuxSystems.CppSem.Model
import LinuxSystems.CppSem.Exchange
import LinuxSystems.CppSem.Finish
import LinuxSystems.PosixSem.Model
import LinuxSystems.PosixSem.Mutex
import LinuxSystems.PosixSem.Flag
import LinuxSystems.PosixSem.Terminate
import LinuxSystems.AtomicFlags.Model
import LinuxSystems.AtomicFlags.Flips
import LinuxSystems.AtomicFlags.Updates
import LinuxSystems.AtomicFlags.Drift
import LinuxSystems.AtomicFlags.Finish
import LinuxSystems.Increment.Model
import LinuxSystems.Increment.Atomic
import LinuxSystems.Increment.Mutex
import LinuxSystems.DataRace.Model
import LinuxSystems.DataRace.Transfers
import LinuxSystems.DataRace.Race
import LinuxSystems.DataRace.Outcomes
import LinuxSystems.ReadersWriters.Model
import LinuxSystems.ReadersWriters.Lock
import LinuxSystems.ReadersWriters.Shelf
import LinuxSystems.ReadersWriters.Snapshot
import LinuxSystems.ReadersWriters.Linearize
import LinuxSystems.ReadersWriters.Finish
import LinuxSystems.MeanValue.Moves
import LinuxSystems.Ownership.FileGuard
import LinuxSystems.Ownership.Generator
import LinuxSystems.Ownership.Enumeration
import LinuxSystems.Ownership.RecvFrom
import LinuxSystems.Ownership.GeneratorExample
import LinuxSystems.Ownership.ListNodes
import LinuxSystems.Coop.Model
import LinuxSystems.Coop.Stands
import LinuxSystems.Coop.Outputs
import LinuxSystems.Coop.Finish
import LinuxSystems.Workers.Model
import LinuxSystems.Workers.Output
import LinuxSystems.Workers.Finish
import LinuxSystems.Latch.Model
import LinuxSystems.Latch.Lines
import LinuxSystems.Latch.Finish
import LinuxSystems.Waitpid.Model
import LinuxSystems.Waitpid.Reports
import LinuxSystems.Waitpid.Finish
import LinuxSystems.CoroutineSocket.Lines
import LinuxSystems.CoroutineSocket.Finish
