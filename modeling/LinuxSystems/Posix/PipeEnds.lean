/-
The two ends of a pipe.

A process may hold the end for reading and the end for writing.  A child gets what its parent
holds, each may close what it holds, and a process that ends closes all.

What a call does depends on what the others hold.  A `read` of an empty pipe waits as long as
somebody can still write, and returns nothing when nobody can.  A `write` to a pipe that nobody
can read fails, and comes with a signal.
-/
import Mathlib.Data.Fintype.Defs
import Mathlib.Logic.Function.Basic

namespace LinuxSystems

structure PipeEnds (P : Type*) where
  bytes : List UInt8
  /-- Who holds the end for reading. -/
  reads : P → Bool
  /-- Who holds the end for writing. -/
  writes : P → Bool

namespace PipeEnds

variable {P : Type*}

/-- There is no pipe. -/
def none : PipeEnds P := ⟨[], fun _ => false, fun _ => false⟩

/-- A `read` returns: there is something to read, or there never will be. -/
def Readable (s : PipeEnds P) : Prop := s.bytes ≠ [] ∨ ∀ p, s.writes p = false

/-- A `write` fails. -/
def Broken (s : PipeEnds P) : Prop := ∀ p, s.reads p = false

instance [Fintype P] (s : PipeEnds P) : Decidable s.Readable :=
  inferInstanceAs (Decidable (s.bytes ≠ [] ∨ ∀ p, s.writes p = false))

instance [Fintype P] (s : PipeEnds P) : Decidable s.Broken :=
  inferInstanceAs (Decidable (∀ p, s.reads p = false))

/-- A `read` into `capacity` bytes took what it could. -/
def take (capacity : Nat) (s : PipeEnds P) : PipeEnds P :=
  { s with bytes := s.bytes.drop capacity }

def put (data : List UInt8) (s : PipeEnds P) : PipeEnds P := { s with bytes := s.bytes ++ data }

variable [DecidableEq P]

/-- `pipe` -/
def create (p : P) : PipeEnds P := ⟨[], fun q => q = p, fun q => q = p⟩

/-- `fork`: `q` is the child of `p`. -/
def inherit (p q : P) (s : PipeEnds P) : PipeEnds P :=
  { s with
    reads := Function.update s.reads q (s.reads p)
    writes := Function.update s.writes q (s.writes p) }

def closeRead (p : P) (s : PipeEnds P) : PipeEnds P :=
  { s with reads := Function.update s.reads p false }

def closeWrite (p : P) (s : PipeEnds P) : PipeEnds P :=
  { s with writes := Function.update s.writes p false }

/-- The process ends. -/
def leave (p : P) (s : PipeEnds P) : PipeEnds P := (s.closeRead p).closeWrite p

variable {s : PipeEnds P} {p q : P} {data : List UInt8} {capacity : Nat}

@[simp] theorem leave_bytes : (s.leave p).bytes = s.bytes := rfl

@[simp] theorem leave_reads : (s.leave p).reads = Function.update s.reads p false := rfl

@[simp] theorem leave_writes : (s.leave p).writes = Function.update s.writes p false := rfl

@[simp] theorem closeRead_bytes : (s.closeRead p).bytes = s.bytes := rfl

@[simp] theorem closeRead_reads : (s.closeRead p).reads = Function.update s.reads p false := rfl

@[simp] theorem closeRead_writes : (s.closeRead p).writes = s.writes := rfl

@[simp] theorem closeWrite_bytes : (s.closeWrite p).bytes = s.bytes := rfl

@[simp] theorem closeWrite_reads : (s.closeWrite p).reads = s.reads := rfl

@[simp] theorem closeWrite_writes :
    (s.closeWrite p).writes = Function.update s.writes p false := rfl

omit [DecidableEq P] in
@[simp] theorem put_bytes : (s.put data).bytes = s.bytes ++ data := rfl

omit [DecidableEq P] in
@[simp] theorem put_reads : (s.put data).reads = s.reads := rfl

omit [DecidableEq P] in
@[simp] theorem put_writes : (s.put data).writes = s.writes := rfl

omit [DecidableEq P] in
@[simp] theorem take_reads : (s.take capacity).reads = s.reads := rfl

omit [DecidableEq P] in
@[simp] theorem take_writes : (s.take capacity).writes = s.writes := rfl

@[simp] theorem inherit_bytes : (s.inherit p q).bytes = s.bytes := rfl

@[simp] theorem inherit_reads :
    (s.inherit p q).reads = Function.update s.reads q (s.reads p) := rfl

@[simp] theorem inherit_writes :
    (s.inherit p q).writes = Function.update s.writes q (s.writes p) := rfl

end PipeEnds

end LinuxSystems
