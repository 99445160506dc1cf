/-
The accounts of `Chapter 6/data-race.cpp`.

An account has an unsigned balance and an owner.  `-=` and `+=` read the balance, compute
modulo its width and write it back, with a line of output before and after; neither looks
at whether the result makes sense.  `TransferMoney` takes the amount from one account and
then adds it to the other, which may be the same one.

Here the calls of `TransferMoney` come one after another.
-/
import LinuxSystems.Machine.Run
import Mathlib.Logic.Function.Basic

namespace LinuxSystems

namespace DataRace

structure Account where
  balance : BitVec 32
  owner : String
  deriving DecidableEq

/-- What `Print` writes after the id of the thread. -/
structure Line where
  who : String
  what : String
  amount : BitVec 32
  deriving DecidableEq

namespace Account

variable (a : Account) (amount : BitVec 32)

/-- The account after `operator+=`. -/
def addAssign : Account := { a with balance := a.balance + amount }

/-- The account after `operator-=`. -/
def subAssign : Account := { a with balance := a.balance - amount }

def addAssignLines : List Line :=
  [⟨a.owner, " balance before depositing: ", a.balance⟩,
    ⟨a.owner, " balance after depositing: ", (a.addAssign amount).balance⟩]

def subAssignLines : List Line :=
  [⟨a.owner, " balance before withdrawing: ", a.balance⟩,
    ⟨a.owner, " balance after withdrawing: ", (a.subAssign amount).balance⟩]

end Account

/-- A call of `TransferMoney`. -/
structure Transfer (ι : Type*) where
  amount : BitVec 32
  source : ι
  target : ι

end DataRace

open DataRace

structure DataRace (ι : Type*) where
  accounts : ι → Account
  output : List Line

namespace DataRace

variable {ι : Type*} [DecidableEq ι]

/-- `accounts i += amount`. -/
def deposit (s : DataRace ι) (amount : BitVec 32) (i : ι) : DataRace ι where
  accounts := Function.update s.accounts i ((s.accounts i).addAssign amount)
  output := s.output ++ (s.accounts i).addAssignLines amount

/-- `accounts i -= amount`. -/
def withdraw (s : DataRace ι) (amount : BitVec 32) (i : ι) : DataRace ι where
  accounts := Function.update s.accounts i ((s.accounts i).subAssign amount)
  output := s.output ++ (s.accounts i).subAssignLines amount

def transferMoney (s : DataRace ι) (t : Transfer ι) : DataRace ι :=
  (s.withdraw t.amount t.source).deposit t.amount t.target

/-- Any transfers, one after another. -/
def machine (accounts : ι → Account) : Machine (DataRace ι) (Transfer ι) where
  init := ⟨accounts, []⟩
  enabled _ _ := True
  next := transferMoney

instance (accounts : ι → Account) (s : DataRace ι) (t : Transfer ι) :
    Decidable ((machine accounts).enabled s t) :=
  inferInstanceAs (Decidable True)

end DataRace

end LinuxSystems
