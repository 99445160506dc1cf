/-
The threads that meet at the latch of `Chapter 6/latch.cpp`.

`main` makes the threads and waits until each has counted down.  A thread of the first kind
sleeps, counts down and goes on.  One of the second kind counts down and waits too.
-/
import LinuxSystems.Machine.Crew
import LinuxSystems.Machine.Run

namespace LinuxSystems.Latch

/-- The two lambdas in the array. -/
inductive Kind where
  /-- `count_down` -/
  | counts
  /-- `arrive_and_wait` -/
  | waits
  deriving DecidableEq

inductive Site where
  | absent
  /-- At the first line. -/
  | start
  | sleep
  /-- At the line about the latch. -/
  | announce
  | count
  | wait
  /-- At the last line. -/
  | finish
  | done
  deriving DecidableEq

inductive Own where
  /-- "Main thread waiting workers to finish." -/
  | announce
  | wait
  /-- "Main thread finished!" -/
  | finish
  deriving DecidableEq

inductive Line (n : ℕ) where
  | starting (w : Fin n)
  | decrementing (w : Fin n)
  | finished (w : Fin n)
  | mainWaiting
  | mainFinished
  deriving DecidableEq

inductive Action (n : ℕ) where
  | main
  | worker (w : Fin n)
  deriving DecidableEq

def Kind.afterStart : Kind → Site
  | .counts => .sleep
  | .waits => .count

def Kind.afterCount : Kind → Site
  | .counts => .finish
  | .waits => .wait

variable {n : ℕ}

def plan (n : ℕ) : Crew.Plan n Own where
  tail := [.own .announce, .own .wait, .own .finish] ++ (List.finRange n).reverse.map .join
  noMake w := by simp
  joins w := by simp

end Latch

open Latch

structure Latch (n : ℕ) where
  /-- What `main` has still to do. -/
  todo : List (Crew.Command n Own)
  site : Fin n → Site
  /-- The counter of `progress`. -/
  counter : ℕ
  cout : List (Line n)

namespace Latch

variable {n : ℕ}

def Site.Ready (counter : ℕ) : Site → Prop
  | .absent | .done => False
  | .wait => counter = 0
  | .start | .sleep | .announce | .count | .finish => True

instance (counter : ℕ) : ∀ x, Decidable (Site.Ready counter x)
  | .absent | .done => isFalse id
  | .wait => inferInstanceAs (Decidable (counter = 0))
  | .start | .sleep | .announce | .count | .finish => isTrue trivial

def mainReady (s : Latch n) : List (Crew.Command n Own) → Prop
  | [] => False
  | .join w :: _ => s.site w = .done
  | .own .wait :: _ => s.counter = 0
  | .make _ :: _ | .own .announce :: _ | .own .finish :: _ => True

instance (s : Latch n) : ∀ todo, Decidable (s.mainReady todo)
  | [] => isFalse id
  | .join w :: _ => inferInstanceAs (Decidable (s.site w = .done))
  | .own .wait :: _ => inferInstanceAs (Decidable (s.counter = 0))
  | .make _ :: _ | .own .announce :: _ | .own .finish :: _ => isTrue trivial

def enabled (s : Latch n) : Action n → Prop
  | .main => s.mainReady s.todo
  | .worker w => (s.site w).Ready s.counter

instance (s : Latch n) : ∀ a, Decidable (s.enabled a)
  | .main => inferInstanceAs (Decidable (s.mainReady s.todo))
  | .worker w => inferInstanceAs (Decidable ((s.site w).Ready s.counter))

def goto (s : Latch n) (w : Fin n) (x : Site) : Latch n :=
  { s with site := Function.update s.site w x }

def mainStep (s : Latch n) : Latch n :=
  match s.todo with
  | [] => s
  | .make w :: rest => { s.goto w .start with todo := rest }
  | .own .announce :: rest => { s with todo := rest, cout := s.cout ++ [.mainWaiting] }
  | .own .wait :: rest => { s with todo := rest }
  | .own .finish :: rest => { s with todo := rest, cout := s.cout ++ [.mainFinished] }
  | .join _ :: rest => { s with todo := rest }

def workerStep (kind : Fin n → Kind) (s : Latch n) (w : Fin n) : Latch n :=
  match s.site w with
  | .start => { s.goto w (kind w).afterStart with cout := s.cout ++ [.starting w] }
  | .sleep => s.goto w .announce
  | .announce => { s.goto w .count with cout := s.cout ++ [.decrementing w] }
  | .count => { s.goto w (kind w).afterCount with counter := s.counter - 1 }
  | .wait => s.goto w .finish
  | .finish => { s.goto w .done with cout := s.cout ++ [.finished w] }
  | .absent | .done => s

def step (kind : Fin n → Kind) (s : Latch n) : Action n → Latch n
  | .main => s.mainStep
  | .worker w => s.workerStep kind w

/-- The counter starts at the number of the threads. -/
def machine (kind : Fin n → Kind) : Machine (Latch n) (Action n) where
  init := ⟨(plan n).program, fun _ => .absent, n, []⟩
  enabled := enabled
  next := step kind

instance (kind : Fin n → Kind) (s : Latch n) (a : Action n) :
    Decidable ((machine kind).enabled s a) :=
  inferInstanceAs (Decidable (s.enabled a))

end Latch

end LinuxSystems
