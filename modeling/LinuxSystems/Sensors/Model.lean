/-
The sensors of `Chapter 6/barrier-temperature.cpp`.

One thread per room computes the mean of the room's measurements and meets the
others at a barrier.  The completion of the barrier prints the means, measures anew
in every room, and on its `K`-th run requests stop, which the threads look at each
time round their loop.

The threads share the rooms with the completion without a lock, so what each reads
and writes of a room is a step of its own: the elements of the list one by one, the
mean, the clearing of the list and each `emplace_back`.  The thermometers are an
oracle: `d r t` are the ten values that the `r`-th generation draws for room `t`.
-/
import LinuxSystems.Machine.PhaseBarrier
import Mathlib.Algebra.Field.Defs

namespace LinuxSystems

namespace Sensors

/-- A room's name, its measurements and their mean. -/
structure Temperature (F : Type*) where
  name : String
  values : List F
  mean : F

namespace Temperature

variable {F : Type*}

def clear (temp : Temperature F) : Temperature F := { temp with values := [] }

def emplaceBack (temp : Temperature F) (x : F) : Temperature F :=
  { temp with values := temp.values ++ [x] }

def setMean (temp : Temperature F) (x : F) : Temperature F := { temp with mean := x }

@[simp] theorem clear_values (temp : Temperature F) : temp.clear.values = [] := rfl

@[simp] theorem emplaceBack_values (temp : Temperature F) (x : F) :
    (temp.emplaceBack x).values = temp.values ++ [x] := rfl

@[simp] theorem setMean_name (temp : Temperature F) (x : F) :
    (temp.setMean x).name = temp.name := rfl

@[simp] theorem setMean_values (temp : Temperature F) (x : F) :
    (temp.setMean x).values = temp.values := rfl

@[simp] theorem setMean_mean (temp : Temperature F) (x : F) : (temp.setMean x).mean = x := rfl

end Temperature

/-- `GetTemperatures`, where nobody else looks: the list is cleared and ten values follow. -/
def getTemperatures {F : Type*} (d : Fin 10 → F) (temp : Temperature F) : Temperature F :=
  (List.finRange 10).foldl (fun temp n => temp.emplaceBack (d n)) temp.clear

/-- Where a thread of `measurementSensors` stands. -/
inductive Worker (F : Type*) where
  /-- Before its `emplace_back`. -/
  | absent
  /-- About to get its token. -/
  | starting
  /-- At `while(!token.stop_requested())`. -/
  | loop
  /-- In `ProcessMeasurement`, with the sum of the first `k` values. -/
  | processing (k : Nat) (sum : F)
  /-- At `arrive_and_wait()`. -/
  | arriving
  /-- Inside `arrive_and_wait()`. -/
  | waiting
  | returned
  deriving DecidableEq

/-- How many values it has added, while it is in `ProcessMeasurement`. -/
def Worker.position {F : Type*} : Worker F → Option Nat
  | .processing k _ => some k
  | .absent | .starting | .loop | .arriving | .waiting | .returned => none

theorem Worker.eq_processing {F : Type*} {w : Worker F} {k : Nat} (h : k ∈ w.position) :
    ∃ sum, w = .processing k sum := by
  cases w with
  | processing k' sum =>
      obtain rfl : k' = k := Option.some.inj h
      exact ⟨sum, rfl⟩
  | _ => simp [Worker.position] at h

/-- Where the completion function stands. -/
inductive Completion (N : Nat) (F : Type*) where
  | idle
  /-- In the loop over the rooms, before room `i`, with the sum of the means so far. -/
  | report (i : Nat) (mean : F)
  /-- In that loop, with the line of room `i` printed. -/
  | add (i : Fin N) (mean : F)
  /-- In `for_each(room_temperatures, GetTemperatures)`, before room `i`. -/
  | regenerate (i : Nat)
  /-- In `GetTemperatures` of room `i`, with `n` values added. -/
  | fill (i : Fin N) (n : Nat)
  /-- At `if (timer >= K - 1)`. -/
  | stopCheck
  /-- At `++timer`. -/
  | count

def Completion.isIdle {N : Nat} {F : Type*} : Completion N F → Bool
  | .idle => true
  | .report _ _ | .add _ _ | .regenerate _ | .fill _ _ | .stopCheck | .count => false

def Completion.isCount {N : Nat} {F : Type*} : Completion N F → Bool
  | .count => true
  | .idle | .report _ _ | .add _ _ | .regenerate _ | .fill _ _ | .stopCheck => false

theorem Completion.eq_idle {N : Nat} {F : Type*} {c : Completion N F} (h : c.isIdle = true) :
    c = .idle := by
  cases c <;> simp_all [Completion.isIdle]

theorem Completion.eq_count {N : Nat} {F : Type*} {c : Completion N F} (h : c.isCount = true) :
    c = .count := by
  cases c <;> simp_all [Completion.isCount]

theorem Completion.isCount_of_isIdle {N : Nat} {F : Type*} {c : Completion N F}
    (h : c.isIdle = true) : c.isCount = false := by
  rw [Completion.eq_idle h]
  rfl

/-- A line of the output. -/
inductive Line (F : Type*) where
  | room (name : String) (mean : F)
  | home (mean : F)

end Sensors

open Sensors

/-- The program with `N` rooms.  `processed` counts the calls of `ProcessMeasurement` that each
thread has finished. -/
structure Sensors (N : Nat) (F : Type*) where
  roomTemperatures : Fin N → Temperature F
  stopRequested : Bool
  measurementBarrier : PhaseBarrier (Fin N)
  completion : Completion N F
  timer : Nat
  /-- How many threads main has created. -/
  spawned : Nat
  /-- How many threads main has joined. -/
  joined : Nat
  worker : Fin N → Worker F
  processed : Fin N → Nat
  printed : List (Line F)

namespace Sensors

variable {N : Nat} {F : Type*}

inductive Action (N : Nat) where
  /-- Main's `emplace_back`. -/
  | emplace
  /-- The join in the destructor of a `jthread`. -/
  | join
  | start (t : Fin N)
  | test (t : Fin N)
  /-- `ProcessMeasurement` adds its next value. -/
  | read (t : Fin N)
  /-- `ProcessMeasurement` divides by the number of values and writes the mean. -/
  | writeMean (t : Fin N)
  | arrive (t : Fin N)
  | release (t : Fin N)
  /-- A step of the completion function. -/
  | completion
  /-- Its last step, `++timer`, and the end of the phase. -/
  | complete
  deriving DecidableEq

def enabled (s : Sensors N F) : Action N → Prop
  | .emplace => s.spawned < N
  | .join => s.spawned = N ∧ ∃ h : s.joined < N, s.worker ⟨s.joined, h⟩ = .returned
  | .start t => s.worker t = .starting
  | .test t => s.worker t = .loop
  | .read t => ∃ k ∈ (s.worker t).position, k < (s.roomTemperatures t).values.length
  | .writeMean t => ∃ k ∈ (s.worker t).position, (s.roomTemperatures t).values.length ≤ k
  | .arrive t => s.worker t = .arriving ∧ s.measurementBarrier.enabled (.arrive t)
  | .release t => s.worker t = .waiting ∧ s.measurementBarrier.enabled (.release t)
  | .completion => s.measurementBarrier.completing = true ∧ s.completion.isCount = false
  | .complete => s.measurementBarrier.enabled .complete ∧ s.completion.isCount = true

instance [DecidableEq F] (s : Sensors N F) : ∀ a, Decidable (s.enabled a)
  | .emplace => inferInstanceAs (Decidable (s.spawned < N))
  | .join => inferInstanceAs (Decidable (s.spawned = N ∧
      ∃ h : s.joined < N, s.worker ⟨s.joined, h⟩ = .returned))
  | .start t | .test t => inferInstanceAs (Decidable (s.worker t = _))
  | .read t => inferInstanceAs (Decidable (∃ k ∈ (s.worker t).position, k < _))
  | .writeMean t => inferInstanceAs (Decidable (∃ k ∈ (s.worker t).position, _ ≤ k))
  | .arrive t | .release t =>
      inferInstanceAs (Decidable (s.worker t = _ ∧ s.measurementBarrier.enabled _))
  | .completion => inferInstanceAs (Decidable (s.measurementBarrier.completing = true ∧ _))
  | .complete => inferInstanceAs (Decidable (s.measurementBarrier.enabled .complete ∧ _))

def setWorker (s : Sensors N F) (t : Fin N) (x : Worker F) : Sensors N F :=
  { s with worker := Function.update s.worker t x }

def setRoom (s : Sensors N F) (t : Fin N) (x : Temperature F) : Sensors N F :=
  { s with roomTemperatures := Function.update s.roomTemperatures t x }

variable [Field F]

/-- The completion function: report, measure anew, request stop on the `K`-th run. -/
def completionStep (K : Nat) (d : Nat → Fin N → Fin 10 → F) (s : Sensors N F) : Sensors N F :=
  match s.completion with
  | .idle | .count => s
  | .report i mean =>
      if h : i < N then
        let room := s.roomTemperatures ⟨i, h⟩
        { s with printed := s.printed ++ [.room room.name room.mean]
                 completion := .add ⟨i, h⟩ mean }
      else
        { s with printed := s.printed ++ [.home (mean / N)], completion := .regenerate 0 }
  | .add i mean => { s with completion := .report (i + 1) (mean + (s.roomTemperatures i).mean) }
  | .regenerate i =>
      if h : i < N then
        { s.setRoom ⟨i, h⟩ (s.roomTemperatures ⟨i, h⟩).clear with completion := .fill ⟨i, h⟩ 0 }
      else { s with completion := .stopCheck }
  | .fill i n =>
      if h : n < 10 then
        { s.setRoom i ((s.roomTemperatures i).emplaceBack
            (d (s.measurementBarrier.phase + 1) i ⟨n, h⟩)) with completion := .fill i (n + 1) }
      else { s with completion := .regenerate (i + 1) }
  | .stopCheck =>
      { s with stopRequested := s.stopRequested || decide (K - 1 ≤ s.timer), completion := .count }

def step (K : Nat) (d : Nat → Fin N → Fin 10 → F) (s : Sensors N F) : Action N → Sensors N F
  | .emplace =>
      if h : s.spawned < N then
        { s.setWorker ⟨s.spawned, h⟩ .starting with spawned := s.spawned + 1 }
      else s
  | .join => { s with joined := s.joined + 1 }
  | .start t => s.setWorker t .loop
  | .test t => s.setWorker t (if s.stopRequested then .returned else .processing 0 0)
  | .read t => match s.worker t with
    | .processing k sum =>
        s.setWorker t (.processing (k + 1) (sum + (s.roomTemperatures t).values.getD k 0))
    | _ => s
  | .writeMean t => match s.worker t with
    | .processing _ sum =>
        let temp := s.roomTemperatures t
        { (s.setRoom t (temp.setMean (sum / temp.values.length))).setWorker t .arriving with
          processed := Function.update s.processed t (s.processed t + 1) }
    | _ => s
  | .arrive t =>
      let measurementBarrier := s.measurementBarrier.next (.arrive t)
      -- the last to arrive runs the completion before anybody is released
      { s.setWorker t .waiting with
        measurementBarrier
        completion := if measurementBarrier.completing then .report 0 0 else s.completion }
  | .release t =>
      { s.setWorker t .loop with measurementBarrier := s.measurementBarrier.next (.release t) }
  | .completion => s.completionStep K d
  | .complete =>
      { s with timer := s.timer + 1, completion := .idle
               measurementBarrier := s.measurementBarrier.next .complete }

/-- Main has measured in all rooms and is about to create the first thread. -/
def machine (names : Fin N → String) (K : Nat) (d : Nat → Fin N → Fin 10 → F) :
    Machine (Sensors N F) (Action N) where
  init :=
    { roomTemperatures := fun t => getTemperatures (d 0 t) ⟨names t, [], 0⟩
      stopRequested := false
      measurementBarrier := PhaseBarrier.start (Fin N)
      completion := .idle
      timer := 0
      spawned := 0
      joined := 0
      worker := fun _ => .absent
      processed := fun _ => 0
      printed := [] }
  enabled := enabled
  next := step K d

instance [DecidableEq F] (names : Fin N → String) (K : Nat) (d : Nat → Fin N → Fin 10 → F)
    (s : Sensors N F) (a : Action N) : Decidable ((machine names K d).enabled s a) :=
  inferInstanceAs (Decidable (s.enabled a))

end Sensors

end LinuxSystems
