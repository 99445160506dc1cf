/-
The process that waits for its children in `Chapter 2/waitpid_example.cpp`.

It forks twice.  Each child prints its process id and exits, with one status the first and with
another the second, unless a signal ends it before.  Then it waits for the first and for
the second, and says of each what the status is, where the status is that of an exit.

What `fork` returned is not looked at.  A `fork` that failed leaves a `-1`, for which `waitpid`
takes any child there is; and a `waitpid` that failed, because there is none left, leaves the
status as it was.

How a child ended is kept twice: with the process, until it is waited for, as the system keeps it;
and in a record of its own, with which what is reported is compared.
-/
import LinuxSystems.Machine.Run
import LinuxSystems.Machine.Names
import Mathlib.Data.Int.Basic

namespace LinuxSystems.Waitpid

/-- `EXIT_SUCCESS` and `EXIT_FAILURE`. -/
def exitCode : Fin 2 → ℕ
  | 0 => 0
  | 1 => 1

/-- How a process comes to its end. -/
inductive Ending where
  /-- By a call of `exit`. -/
  | exited (code : ℕ)
  /-- By a signal, with or without a core dump. -/
  | killed (signal : ℕ) (core : Bool)
  deriving DecidableEq

/-- What `waitpid` stores of it. -/
def Ending.status : Ending → ℕ
  | .exited code => code % 256 * 256
  | .killed signal core => signal + if core then 128 else 0

/-- `WIFEXITED` -/
def ifExited (status : ℕ) : Prop := status % 128 = 0

instance (status : ℕ) : Decidable (ifExited status) :=
  inferInstanceAs (Decidable (status % 128 = 0))

/-- Where a child is. -/
inductive Place where
  /-- At its line. -/
  | line
  | exit
  | zombie (how : Ending)
  deriving DecidableEq

structure Child where
  pid : ℕ
  place : Place
  deriving DecidableEq

/-- Where the parent is. -/
inductive Site where
  | fork (c : Fin 2)
  | wait (c : Fin 2)
  /-- At the test of the status, and the line behind it. -/
  | report (c : Fin 2)
  | returned
  deriving DecidableEq

inductive Line where
  /-- "Child process id: " -/
  | processId (pid : ℕ)
  /-- "Child " ... " terminated with: " -/
  | terminated (pid : ℤ) (status : ℕ)
  deriving DecidableEq

inductive Action where
  /-- `fork` makes a process with this id, or fails. -/
  | fork (pid : Option ℕ)
  /-- `waitpid` returns for this child, or fails. -/
  | wait (c : Option (Fin 2))
  | report
  | child (c : Fin 2)
  /-- A signal ends the child. -/
  | kill (c : Fin 2) (signal : ℕ) (core : Bool)
  deriving DecidableEq

end Waitpid

open Waitpid

structure Waitpid where
  site : Site
  pids : Fin 2 → ℤ
  /-- The children that nobody has waited for. -/
  child : Fin 2 → Option Child
  status : ℕ
  cout : List Line
  /-- The record of how the children ended. -/
  ended : Fin 2 → Option Ending

namespace Waitpid

attribute [local instance] neZeroTwo

def Site.next : Site → Site
  | .fork 0 => .fork 1
  | .fork 1 => .wait 0
  | .wait c => .report c
  | .report 0 => .wait 1
  | .report 1 => .returned
  | .returned => .returned

/-- There is a child, and `waitpid` takes it for the one that is asked for. -/
def Names (pid : ℤ) : Option Child → Prop
  | none => False
  | some q => pid = -1 ∨ pid = q.pid

instance (pid : ℤ) : ∀ q, Decidable (Names pid q)
  | none => isFalse id
  | some q => inferInstanceAs (Decidable (pid = -1 ∨ pid = q.pid))

/-- How the child at this place ended. -/
def Place.ending? : Place → Option Ending
  | .zombie how => some how
  | .line | .exit => none

/-- The status of a child that is at its end. -/
def endStatus (q : Option Child) : Option ℕ := (q.bind fun q => q.place.ending?).map Ending.status

/-- The child goes on. -/
def alive : Option Child → Prop
  | some ⟨_, .line⟩ | some ⟨_, .exit⟩ => True
  | some ⟨_, .zombie _⟩ | none => False

instance : ∀ q, Decidable (alive q)
  | some ⟨_, .line⟩ | some ⟨_, .exit⟩ => isTrue trivial
  | some ⟨_, .zombie _⟩ | none => isFalse id

def Site.isFork : Site → Prop
  | .fork _ => True
  | .wait _ | .report _ | .returned => False

def Site.isReport : Site → Prop
  | .report _ => True
  | .fork _ | .wait _ | .returned => False

instance : ∀ x, Decidable (Site.isFork x)
  | .fork _ => isTrue trivial
  | .wait _ | .report _ | .returned => isFalse id

instance : ∀ x, Decidable (Site.isReport x)
  | .report _ => isTrue trivial
  | .fork _ | .wait _ | .returned => isFalse id

/-- `waitpid` can return for the child `c`, or cannot find one. -/
def waitReady (s : Waitpid) (pid : ℤ) : Option (Fin 2) → Prop
  | some c => Names pid (s.child c) ∧ (endStatus (s.child c)).isSome
  | none => ∀ c, ¬ Names pid (s.child c)

instance (s : Waitpid) (pid : ℤ) : ∀ c, Decidable (s.waitReady pid c)
  | some _ => inferInstanceAs (Decidable (_ ∧ _))
  | none => inferInstanceAs (Decidable (∀ c, ¬ Names pid (s.child c)))

def waitEnabled (s : Waitpid) (c : Option (Fin 2)) : Site → Prop
  | .wait d => s.waitReady (s.pids d) c
  | .fork _ | .report _ | .returned => False

instance (s : Waitpid) (c : Option (Fin 2)) : ∀ x, Decidable (s.waitEnabled c x)
  | .wait d => inferInstanceAs (Decidable (s.waitReady (s.pids d) c))
  | .fork _ | .report _ | .returned => isFalse id

def enabled (s : Waitpid) : Action → Prop
  | .fork none => s.site.isFork
  | .fork (some pid) =>
      s.site.isFork ∧ 0 < pid ∧ ∀ c, (s.child c).map Child.pid ≠ some pid
  | .wait c => s.waitEnabled c s.site
  | .report => s.site.isReport
  | .child c => alive (s.child c)
  | .kill c signal _ => alive (s.child c) ∧ 0 < signal ∧ signal ≤ 64

instance (s : Waitpid) : ∀ a, Decidable (s.enabled a)
  | .fork none => inferInstanceAs (Decidable s.site.isFork)
  | .fork (some pid) => inferInstanceAs (Decidable (s.site.isFork ∧ 0 < pid ∧
      ∀ c, ¬ (s.child c).map Child.pid = some pid))
  | .wait c => inferInstanceAs (Decidable (s.waitEnabled c s.site))
  | .report => inferInstanceAs (Decidable s.site.isReport)
  | .child c => inferInstanceAs (Decidable (alive (s.child c)))
  | .kill c signal _ => inferInstanceAs (Decidable (alive (s.child c) ∧ 0 < signal ∧ signal ≤ 64))

def setChild (s : Waitpid) (c : Fin 2) (q : Option Child) : Waitpid :=
  { s with child := Function.update s.child c q }

def setPid (s : Waitpid) (c : Fin 2) (pid : ℤ) : Waitpid :=
  { s with pids := Function.update s.pids c pid }

def forkStep (s : Waitpid) (pid : Option ℕ) : Waitpid :=
  match s.site, pid with
  | .fork c, none => { s.setPid c (-1) with site := s.site.next }
  | .fork c, some pid =>
      { (s.setPid c pid).setChild c (some ⟨pid, .line⟩) with site := s.site.next }
  | _, _ => s

def waitStep (s : Waitpid) : Option (Fin 2) → Waitpid
  | some c =>
      { s.setChild c none with
        site := s.site.next, status := (endStatus (s.child c)).getD s.status }
  | none => { s with site := s.site.next }

/-- What is printed of the status. -/
def reportLines (pid : ℤ) (status : ℕ) : List Line :=
  if ifExited status then [.terminated pid status] else []

def reportStep (s : Waitpid) : Waitpid :=
  match s.site with
  | .report c => { s with site := s.site.next, cout := s.cout ++ reportLines (s.pids c) s.status }
  | _ => s

/-- The child `c` comes to its end, and waits to be waited for. -/
def finish (s : Waitpid) (c : Fin 2) (how : Ending) : Waitpid :=
  { s.setChild c ((s.child c).map fun q => { q with place := .zombie how }) with
    ended := Function.update s.ended c (some how) }

def childStep (s : Waitpid) (c : Fin 2) : Waitpid :=
  match s.child c with
  | some ⟨pid, .line⟩ =>
      { s.setChild c (some ⟨pid, .exit⟩) with cout := s.cout ++ [.processId pid] }
  | some ⟨_, .exit⟩ => s.finish c (.exited (exitCode c))
  | some ⟨_, .zombie _⟩ | none => s

def step (s : Waitpid) : Action → Waitpid
  | .fork pid => s.forkStep pid
  | .wait c => s.waitStep c
  | .report => s.reportStep
  | .child c => s.childStep c
  | .kill c signal core => s.finish c (.killed signal core)

def machine : Machine Waitpid Action where
  init := ⟨.fork 0, fun _ => 0, fun _ => none, 0, [], fun _ => none⟩
  enabled := enabled
  next := step

instance (s : Waitpid) (a : Action) : Decidable (machine.enabled s a) :=
  inferInstanceAs (Decidable (s.enabled a))

/-- The first `fork` fails, and the child of the second prints its line and exits. -/
def forkFails : List Action :=
  [.fork none, .fork (some 7), .child 1, .child 1, .wait (some 1), .report, .wait none, .report]

end Waitpid

end LinuxSystems
