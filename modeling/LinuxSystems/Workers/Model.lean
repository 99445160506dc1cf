/-
The workers that are asked to stop in `Chapter 6/stop-token.cpp` and
`Chapter 6/stop-source.cpp`.

`main` makes an array of threads, each of which prints a line again and again until it finds
that it is asked to stop.  After a while `main` asks, says so, and joins the threads in the
reverse order, where each destructor asks once more through the thread's own source.

The two programs differ in the sources.  In the first each worker looks at the source of its own
thread, and `main` asks them one after the other.  In the second all look at one source, and
`main` asks once.
-/
import LinuxSystems.Machine.Crew
import LinuxSystems.Machine.Run

namespace LinuxSystems.Workers

/-- What `main` does besides making and joining the threads. -/
inductive Own (n : ℕ) where
  | sleep
  | request (source : Option (Fin n))
  /-- "Main thread just requested stop!" -/
  | announce
  deriving DecidableEq

abbrev Command (n : ℕ) := Crew.Command n (Own n)

inductive Site where
  /-- The thread is not there yet. -/
  | absent
  /-- At the condition of the loop. -/
  | test
  /-- At the line in the loop. -/
  | work
  | sleep
  /-- At the line behind the loop. -/
  | stop
  | done
  deriving DecidableEq

inductive Line (n : ℕ) where
  | working (w : Fin n)
  | stopped (w : Fin n)
  | requested
  deriving DecidableEq

inductive Action (n : ℕ) where
  | main
  | worker (w : Fin n)
  deriving DecidableEq

/-- `none` is `source` of `main`, and `some w` the source of the thread `w`. -/
structure Setup (n : ℕ) where
  /-- The source that a worker looks at. -/
  token : Fin n → Option (Fin n)
  /-- Where `main` asks. -/
  requests : List (Option (Fin n))
  covers : ∀ w, token w ∈ requests

/-- `stop-token.cpp` -/
def stopToken (n : ℕ) : Setup n where
  token := some
  requests := (List.finRange n).map some
  covers w := List.mem_map_of_mem (List.mem_finRange w)

/-- `stop-source.cpp` -/
def stopSource (n : ℕ) : Setup n where
  token _ := none
  requests := [none]
  covers _ := List.mem_singleton_self _

variable {n : ℕ}

/-- The destructors of the array: the last thread first. -/
def destructors (n : ℕ) : List (Command n) :=
  (List.finRange n).reverse.flatMap fun w => [.own (.request (some w)), .join w]

/-- Up to where `main` says that it has asked. -/
def Setup.asking (c : Setup n) : List (Command n) :=
  .own .sleep :: c.requests.map fun x => .own (.request x)

def Setup.tail (c : Setup n) : List (Command n) :=
  c.asking ++ .own .announce :: destructors n

theorem mem_destructors {x : Command n} (h : x ∈ destructors n) :
    (∃ w, x = .own (.request (some w))) ∨ ∃ w, x = .join w := by
  obtain ⟨w, _, hx⟩ := List.mem_flatMap.mp h
  simp only [List.mem_cons, List.not_mem_nil, or_false] at hx
  exact hx.imp (fun hx => ⟨w, hx⟩) fun hx => ⟨w, hx⟩

theorem join_mem_destructors (w : Fin n) : .join w ∈ destructors n :=
  List.mem_flatMap.mpr ⟨w, List.mem_reverse.mpr (List.mem_finRange w), by simp⟩

def Setup.plan (c : Setup n) : Crew.Plan n (Own n) where
  tail := c.tail
  noMake w hmem := by
    simp only [tail, asking, List.cons_append, List.mem_cons, List.mem_append, List.mem_map,
      reduceCtorEq, false_or, and_false, exists_false] at hmem
    rcases mem_destructors hmem with ⟨v, hv⟩ | ⟨v, hv⟩ <;> cases hv
  joins w := List.mem_append_right _ (List.mem_cons_of_mem _ (join_mem_destructors w))

end Workers

open Workers

structure Workers (n : ℕ) where
  /-- What `main` has still to do. -/
  todo : List (Command n)
  site : Fin n → Site
  requested : Option (Fin n) → Bool
  cout : List (Line n)

namespace Workers

variable {n : ℕ}

/-- `main` waits only where it joins a thread. -/
def Ready (site : Fin n → Site) : List (Command n) → Prop
  | [] => False
  | .join w :: _ => site w = .done
  | .make _ :: _ | .own _ :: _ => True

instance (site : Fin n → Site) : ∀ todo, Decidable (Ready site todo)
  | [] => isFalse id
  | .join w :: _ => inferInstanceAs (Decidable (site w = .done))
  | .make _ :: _ | .own _ :: _ => isTrue trivial

def enabled (s : Workers n) : Action n → Prop
  | .main => Ready s.site s.todo
  | .worker w => s.site w ≠ .absent ∧ s.site w ≠ .done

instance (s : Workers n) : ∀ a, Decidable (s.enabled a)
  | .main => inferInstanceAs (Decidable (Ready s.site s.todo))
  | .worker w => inferInstanceAs (Decidable (¬ s.site w = .absent ∧ ¬ s.site w = .done))

def goto (s : Workers n) (w : Fin n) (x : Site) : Workers n :=
  { s with site := Function.update s.site w x }

def ownStep (s : Workers n) : Own n → Workers n
  | .sleep => s
  | .request x => { s with requested := Function.update s.requested x true }
  | .announce => { s with cout := s.cout ++ [.requested] }

def mainStep (s : Workers n) : Workers n :=
  match s.todo with
  | [] => s
  | .make w :: rest => { s.goto w .test with todo := rest }
  | .own x :: rest => { s.ownStep x with todo := rest }
  | .join _ :: rest => { s with todo := rest }

def workerStep (c : Setup n) (s : Workers n) (w : Fin n) : Workers n :=
  match s.site w with
  | .test => s.goto w (if s.requested (c.token w) then .stop else .work)
  | .work => { s.goto w .sleep with cout := s.cout ++ [.working w] }
  | .sleep => s.goto w .test
  | .stop => { s.goto w .done with cout := s.cout ++ [.stopped w] }
  | .absent | .done => s

def step (c : Setup n) (s : Workers n) : Action n → Workers n
  | .main => s.mainStep
  | .worker w => s.workerStep c w

def machine (c : Setup n) : Machine (Workers n) (Action n) where
  init := ⟨c.plan.program, fun _ => .absent, fun _ => false, []⟩
  enabled := enabled
  next := step c

instance (c : Setup n) (s : Workers n) (a : Action n) : Decidable ((machine c).enabled s a) :=
  inferInstanceAs (Decidable (s.enabled a))

/-- Where a worker goes, that is or is not asked to stop. -/
def Site.next (asked : Bool) : Site → Site
  | .test => if asked then .stop else .work
  | .work => .sleep
  | .sleep => .test
  | .stop => .done
  | .absent => .absent
  | .done => .done

def Site.prints (w : Fin n) : Site → List (Line n)
  | .work => [.working w]
  | .stop => [.stopped w]
  | .absent | .test | .sleep | .done => []

end Workers

end LinuxSystems
