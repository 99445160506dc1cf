/-
The transfers of `Chapter 6/data-race.cpp`, all at the same time.

Any number of threads run `TransferMoney` once, each with its own amount, and all from one
account to another.  The balance is loaded into `temp`, and what is stored is computed from
`temp`: so these are two steps, with the lines before and after as further ones.  The
`sleep_for` between them is left out, since it orders nothing.
-/
import LinuxSystems.DataRace.Model
import LinuxSystems.Machine.LostUpdate
import Mathlib.Data.BitVec

namespace LinuxSystems.DataRace

/-- The two accounts, which are `from` and `to` in the code. -/
inductive Side where
  | source
  | target
  deriving DecidableEq

namespace Race

/-- Where a thread stands in `TransferMoney`: in `operator-=` of the source, or in `operator+=`
of the target. -/
inductive Site where
  /-- At the line before. -/
  | before (i : Side)
  /-- At `auto temp{balance}`. -/
  | load (i : Side)
  /-- At the assignment, with the balance loaded. -/
  | store (i : Side) (temp : BitVec 32)
  /-- At the line after. -/
  | after (i : Side)
  | returned
  deriving DecidableEq

end Race

namespace Side

/-- `temp - amount` or `temp + amount`. -/
def apply (temp amount : BitVec 32) : Side → BitVec 32
  | .source => temp - amount
  | .target => temp + amount

/-- The line before the balance is loaded. -/
def lineBefore (a : Account) : Side → Line
  | .source => ⟨a.owner, " balance before withdrawing: ", a.balance⟩
  | .target => ⟨a.owner, " balance before depositing: ", a.balance⟩

/-- The line after it was stored. -/
def lineAfter (a : Account) : Side → Line
  | .source => ⟨a.owner, " balance after withdrawing: ", a.balance⟩
  | .target => ⟨a.owner, " balance after depositing: ", a.balance⟩

/-- What comes after the operation. -/
def next : Side → Race.Site
  | .source => .before .target
  | .target => .returned

end Side

open Race

structure Race (ι : Type*) where
  account : Side → Account
  site : ι → Site
  /-- Every line, and who wrote it. -/
  output : List (ι × Line)

namespace Race

variable {ι : Type*}

inductive Action (ι : Type*) where
  | before (i : Side) (t : ι)
  | load (i : Side) (t : ι)
  | store (i : Side) (t : ι)
  | after (i : Side) (t : ι)

/-- The thread has loaded the balance of `i` and not stored. -/
def Site.holds (i : Side) : Site → Prop
  | .store j _ => j = i
  | .before _ | .load _ | .after _ | .returned => False

instance (i : Side) : ∀ x : Site, Decidable (x.holds i)
  | .store j _ => inferInstanceAs (Decidable (j = i))
  | .before _ | .load _ | .after _ | .returned => isFalse id

def enabled (s : Race ι) : Action ι → Prop
  | .before i t => s.site t = .before i
  | .load i t => s.site t = .load i
  | .store i t => (s.site t).holds i
  | .after i t => s.site t = .after i

instance (s : Race ι) : ∀ a, Decidable (s.enabled a)
  | .before _ _ | .load _ _ | .after _ _ => inferInstanceAs (Decidable (s.site _ = _))
  | .store i t => inferInstanceAs (Decidable ((s.site t).holds i))

variable [DecidableEq ι]

def goto (s : Race ι) (t : ι) (x : Site) : Race ι :=
  { s with site := Function.update s.site t x }

/-- `amount t` is what the thread `t` transfers. -/
def step (amount : ι → BitVec 32) (s : Race ι) : Action ι → Race ι
  | .before i t =>
      { s.goto t (.load i) with output := s.output ++ [(t, i.lineBefore (s.account i))] }
  | .load i t => s.goto t (.store i (s.account i).balance)
  | .store i t => match s.site t with
    | .store _ temp =>
        { s.goto t (.after i) with
          account := Function.update s.account i
            { s.account i with balance := i.apply temp (amount t) } }
    | .before _ | .load _ | .after _ | .returned => s
  | .after i t =>
      { s.goto t i.next with output := s.output ++ [(t, i.lineAfter (s.account i))] }

/-- Every thread at its start. -/
def machine (amount : ι → BitVec 32) (account : Side → Account) : Machine (Race ι) (Action ι) where
  init := ⟨account, fun _ => .before .source, []⟩
  enabled := enabled
  next := step amount

instance (amount : ι → BitVec 32) (account : Side → Account) (s : Race ι) (a : Action ι) :
    Decidable ((machine amount account).enabled s a) :=
  inferInstanceAs (Decidable (s.enabled a))

variable {amount : ι → BitVec 32} {account : Side → Account} {s : Race ι} {i j : Side} {t u : ι}
  {x : Site} {temp : BitVec 32}

theorem step_store (amount : ι → BitVec 32) (hat : s.site t = .store i temp) :
    (s.step amount (.store i t)).site = (s.goto t (.after i)).site ∧
      (s.step amount (.store i t)).account = Function.update s.account i
        { s.account i with balance := i.apply temp (amount t) } := by
  simp [step, hat]

/-! ### An account as a value that is updated without protection -/

/-- What a thread adds to the balance. -/
def change (amount : ι → BitVec 32) (i : Side) (t : ι) : BitVec 32 :=
  match i with
  | .source => - amount t
  | .target => amount t

omit [DecidableEq ι] in
theorem apply_eq (i : Side) (amount : ι → BitVec 32) (t : ι) (temp : BitVec 32) :
    i.apply temp (amount t) = temp + change amount i t := by
  cases i with
  | source => exact sub_eq_add_neg temp (amount t)
  | target => rfl

/-- Where a thread stands with its update of an account. -/
def Site.cell : Side → Site → LostUpdate.Site (BitVec 32)
  | .source, .before .source | .source, .load .source => .start
  | .source, .store .source temp => .loaded temp
  | .source, _ => .stored
  | .target, .store .target temp => .loaded temp
  | .target, .after .target | .target, .returned => .stored
  | .target, _ => .start

/-- What one account sees of the threads. -/
def cell (i : Side) (s : Race ι) : LostUpdate ι (BitVec 32) :=
  ⟨(s.account i).balance, fun t => (s.site t).cell i⟩

/-- The steps that load or store the balance of `i`. -/
def Action.toCell (i : Side) : Action ι → Option (LostUpdate.Action ι)
  | .load j t => if j = i then some (.load t) else none
  | .store j t => if j = i then some (.store t) else none
  | .before _ _ | .after _ _ => none

/-- What an account sees of a thread that goes on. -/
theorem cell_moved {s' : Race ι} (i : Side) (hsite : s'.site = (s.goto t x).site) :
    s'.cell i = ⟨(s'.account i).balance, Function.update (s.cell i).site t (x.cell i)⟩ := by
  unfold cell
  rw [hsite]
  congr 1
  funext u
  by_cases hut : u = t
  · subst hut
    simp [goto]
  · simp [goto, hut]

/-- A step at which no update of `i` gets on. -/
theorem cell_unmoved {s' : Race ι} (hsite : s'.site = (s.goto t x).site)
    (haccount : (s'.account i).balance = (s.account i).balance)
    (hx : x.cell i = (s.site t).cell i) : s'.cell i = s.cell i := by
  rw [cell_moved i hsite, haccount, hx]
  exact congrArg _ (Function.update_eq_self t (s.cell i).site)

omit [DecidableEq ι] in
theorem exists_temp (h : (s.site t).holds i) : ∃ temp, s.site t = .store i temp := by
  cases hat : s.site t with
  | store j temp =>
      rw [hat] at h
      exact ⟨temp, h ▸ rfl⟩
  | before j | load j | after j | returned =>
      rw [hat] at h
      exact h.elim

theorem cell_load (amount : ι → BitVec 32) (hat : s.site t = .load i) :
    (s.cell i).enabled (.load t) ∧ (s.step amount (.load i t)).cell i =
      LostUpdate.step (change amount i) (s.cell i) (.load t) := by
  constructor
  · show (s.site t).cell i = _
    rw [hat]
    cases i <;> rfl
  · refine (cell_moved (s := s) (t := t) (x := .store i _) i rfl).trans ?_
    cases i <;> rfl

theorem cell_store (amount : ι → BitVec 32) (hat : s.site t = .store i temp) :
    (s.cell i).enabled (.store t) ∧ (s.step amount (.store i t)).cell i =
      LostUpdate.step (change amount i) (s.cell i) (.store t) := by
  have hloaded : (s.cell i).site t = .loaded temp := by
    show (s.site t).cell i = _
    rw [hat]
    cases i <;> rfl
  refine ⟨⟨temp, hloaded⟩, ?_⟩
  obtain ⟨hsite, haccount⟩ := step_store amount hat
  rw [LostUpdate.step_store hloaded, cell_moved i hsite, haccount, Function.update_self]
  show LostUpdate.mk (i.apply temp (amount t)) _ = _
  rw [apply_eq]
  cases i <;> rfl

/-- **Each account is updated without protection.** -/
theorem simulates (amount : ι → BitVec 32) (account : Side → Account) (i : Side) :
    Machine.Simulates (machine amount account)
      (LostUpdate.machine (change amount i) (account i).balance) (Action.toCell i)
      fun s c => s.cell i = c := by
  refine ⟨?_, ?_, ?_⟩
  · unfold cell
    cases i <;> rfl
  · intro s c a b hab hsc ha
    subst hsc
    cases a with
    | before j t | after j t => exact nomatch hab
    | load j t =>
        by_cases hji : j = i
        · subst hji
          obtain rfl : LostUpdate.Action.load t = b := by simpa [Action.toCell] using hab
          exact cell_load amount ha
        · simp [Action.toCell, hji] at hab
    | store j t =>
        by_cases hji : j = i
        · subst hji
          obtain rfl : LostUpdate.Action.store t = b := by simpa [Action.toCell] using hab
          obtain ⟨temp, hat⟩ := exists_temp ha
          exact cell_store amount hat
        · simp [Action.toCell, hji] at hab
  · intro s c a hab hsc ha
    subst hsc
    -- what is left are the lines, and the steps with the other account
    cases a with
    | before j t | after j t =>
        refine cell_unmoved rfl rfl ?_
        rw [ha]
        cases i <;> cases j <;> rfl
    | load j t =>
        have hji : j ≠ i := by
          intro hji
          simp [Action.toCell, hji] at hab
        refine cell_unmoved rfl rfl ?_
        rw [ha]
        cases i <;> cases j <;> first | rfl | exact absurd rfl hji
    | store j t =>
        have hji : j ≠ i := by
          intro hji
          simp [Action.toCell, hji] at hab
        obtain ⟨temp, hat⟩ := exists_temp ha
        obtain ⟨hsite, haccount⟩ := step_store amount hat
        refine cell_unmoved hsite ?_ ?_
        · show ((s.step amount (.store j t)).account i).balance = _
          rw [haccount, Function.update_of_ne hji.symm]
        · rw [hat]
          cases i <;> cases j <;> first | rfl | exact absurd rfl hji

end Race

end LinuxSystems.DataRace
