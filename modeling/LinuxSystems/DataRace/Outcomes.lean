/-
What transfers at the same time do to the money.

Each of the two accounts is a value that every thread updates without protection, once.  So
what an account has in the end is what it had with the updates of some of the threads, and
these need not be the same for the two accounts: money is lost, or made.  Every set of threads
but the empty one comes about, on either side.  For the source the other updates are lost
while one thread is in the middle of its withdrawal; for the target all withdraw first.
-/
import LinuxSystems.DataRace.Race

namespace LinuxSystems.DataRace.Race

variable {ι : Type*} [DecidableEq ι] {amount : ι → BitVec 32} {account : Side → Account}
  {s : Race ι} {i : Side} {t : ι} {temp : BitVec 32}

/-! ### The operations, step by step -/

theorem load_steps (amount : ι → BitVec 32) (account : Side → Account)
    (hat : s.site t = .before i) :
    (machine amount account).Legal s [.before i t, .load i t] ∧
      ((machine amount account).after s [.before i t, .load i t]).site =
        Function.update s.site t (.store i (s.account i).balance) ∧
      ((machine amount account).after s [.before i t, .load i t]).account = s.account := by
  refine ⟨⟨hat, ?_, trivial⟩, ?_, rfl⟩
  · exact Function.update_self ..
  · exact Function.update_idem ..

theorem store_steps (amount : ι → BitVec 32) (account : Side → Account)
    (hat : s.site t = .store i temp) :
    (machine amount account).Legal s [.store i t, .after i t] ∧
      ((machine amount account).after s [.store i t, .after i t]).site =
        Function.update s.site t i.next ∧
      ((machine amount account).after s [.store i t, .after i t]).account =
        Function.update s.account i
          { s.account i with balance := i.apply temp (amount t) } := by
  obtain ⟨hsite, haccount⟩ := step_store amount hat
  have hholds : (s.site t).holds i := by
    rw [hat]
    exact rfl
  refine ⟨⟨hholds, ?_, trivial⟩, ?_, haccount⟩
  · show (s.step amount (.store i t)).site t = .after i
    rw [hsite]
    exact Function.update_self ..
  · show Function.update (s.step amount (.store i t)).site t i.next = _
    rw [hsite]
    exact Function.update_idem ..

/-- The steps of an operation that nobody interrupts. -/
def operation (i : Side) (t : ι) : List (Action ι) :=
  [.before i t, .load i t] ++ [.store i t, .after i t]

theorem operation_steps (amount : ι → BitVec 32) (account : Side → Account)
    (hat : s.site t = .before i) :
    (machine amount account).Legal s (operation i t) ∧
      ((machine amount account).after s (operation i t)).site =
        Function.update s.site t i.next ∧
      ((machine amount account).after s (operation i t)).account =
        Function.update s.account i
          { s.account i with balance := i.apply (s.account i).balance (amount t) } := by
  obtain ⟨hl₁, hsite₁, haccount₁⟩ := load_steps amount account hat
  obtain ⟨hl₂, hsite₂, haccount₂⟩ := store_steps (t := t) (i := i) amount account
    (hsite₁ ▸ Function.update_self ..)
  unfold operation
  rw [Machine.legal_append, Machine.after_append]
  refine ⟨⟨hl₁, hl₂⟩, ?_, ?_⟩
  · rw [hsite₂, hsite₁]
    exact Function.update_idem ..
  · rw [haccount₂, haccount₁]

/-- A thread that nobody interrupts transfers the money as `transferMoney` does. -/
theorem transferMoney_alone {κ : Type*} [DecidableEq κ] (d : DataRace κ) (tr : Transfer κ)
    (hne : tr.source ≠ tr.target) (hamount : amount t = tr.amount)
    (hsource : s.account .source = d.accounts tr.source)
    (htarget : s.account .target = d.accounts tr.target) (hat : s.site t = .before .source) :
    ((machine amount account).after s (operation .source t ++ operation .target t)).account
        .source = (d.transferMoney tr).accounts tr.source ∧
      ((machine amount account).after s (operation .source t ++ operation .target t)).account
        .target = (d.transferMoney tr).accounts tr.target := by
  obtain ⟨-, hsite₁, haccount₁⟩ := operation_steps amount account hat
  obtain ⟨-, -, haccount₂⟩ := operation_steps (t := t) (i := .target) amount account
    (hsite₁ ▸ Function.update_self ..)
  rw [Machine.after_append, haccount₂, haccount₁]
  simp [transferMoney, deposit, withdraw, Side.apply, Account.addAssign, Account.subAssign, hne,
    hne.symm, hamount, hsource, htarget]

/-! ### Every update without protection comes about -/

/-- Where a thread stands for an account, when all it can do with the other one is done. -/
def place (i : Side) : LostUpdate.Site (BitVec 32) → Site
  | .start => .before .source
  | .loaded v => .store i v
  | .stored => .returned

/-- Up to the load of the balance of `i`. -/
def loading (i : Side) (t : ι) : List (Action ι) :=
  match i with
  | .source => [.before .source t, .load .source t]
  | .target => operation .source t ++ [.before .target t, .load .target t]

/-- From the store of the balance of `i` on. -/
def storing (i : Side) (t : ι) : List (Action ι) :=
  match i with
  | .source => [.store .source t, .after .source t] ++ operation .target t
  | .target => [.store .target t, .after .target t]

theorem loading_steps (amount : ι → BitVec 32) (account : Side → Account) (i : Side)
    (hat : s.site t = .before .source) :
    (machine amount account).Legal s (loading i t) ∧
      ((machine amount account).after s (loading i t)).site =
        Function.update s.site t (.store i (s.account i).balance) ∧
      (((machine amount account).after s (loading i t)).account i).balance =
        (s.account i).balance := by
  cases i with
  | source =>
      obtain ⟨hl, hsite, haccount⟩ := load_steps amount account hat
      exact ⟨hl, hsite, by rw [loading, haccount]⟩
  | target =>
      obtain ⟨hl₁, hsite₁, haccount₁⟩ := operation_steps amount account hat
      obtain ⟨hl₂, hsite₂, haccount₂⟩ := load_steps (t := t) (i := .target) amount account
        (hsite₁ ▸ Function.update_self ..)
      have hother : (((machine amount account).after s (operation .source t)).account
          .target).balance = (s.account .target).balance := by
        rw [haccount₁]
        rfl
      unfold loading
      rw [Machine.legal_append, Machine.after_append]
      refine ⟨⟨hl₁, hl₂⟩, ?_, ?_⟩
      · rw [hsite₂, hsite₁, hother]
        exact Function.update_idem ..
      · rw [haccount₂, hother]

theorem storing_steps (amount : ι → BitVec 32) (account : Side → Account)
    (hat : s.site t = .store i temp) :
    (machine amount account).Legal s (storing i t) ∧
      ((machine amount account).after s (storing i t)).site =
        Function.update s.site t .returned ∧
      (((machine amount account).after s (storing i t)).account i).balance =
        i.apply temp (amount t) := by
  obtain ⟨hl₁, hsite₁, haccount₁⟩ := store_steps amount account hat
  cases i with
  | target => exact ⟨hl₁, hsite₁, by rw [storing, haccount₁, Function.update_self]⟩
  | source =>
      obtain ⟨hl₂, hsite₂, haccount₂⟩ := operation_steps (t := t) (i := .target) amount account
        (hsite₁ ▸ Function.update_self ..)
      unfold storing
      rw [Machine.legal_append, Machine.after_append]
      refine ⟨⟨hl₁, hl₂⟩, ?_, ?_⟩
      · rw [hsite₂, hsite₁]
        exact Function.update_idem ..
      · rw [haccount₂, haccount₁]
        rfl

/-- The account and the threads are as the update without protection has them. -/
structure Stands (i : Side) (s : Race ι) (c : LostUpdate ι (BitVec 32)) : Prop where
  balance : (s.account i).balance = c.value
  site : ∀ u, s.site u = place i (c.site u)

/-- The steps that a load or a store of the balance of `i` stands for. -/
def Action.ofCell (i : Side) : LostUpdate.Action ι → List (Action ι)
  | .load t => loading i t
  | .store t => storing i t

theorem place_update (i : Side) (c : LostUpdate ι (BitVec 32)) (t : ι)
    (x : LostUpdate.Site (BitVec 32)) (hsite : ∀ u, s.site u = place i (c.site u)) (u : ι) :
    Function.update s.site t (place i x) u = place i (Function.update c.site t x u) := by
  by_cases hut : u = t
  · rw [hut, Function.update_self, Function.update_self]
  · rw [Function.update_of_ne hut, Function.update_of_ne hut]
    exact hsite u

theorem realizes (amount : ι → BitVec 32) (account : Side → Account) (i : Side) :
    Machine.Realizes (machine amount account)
      (LostUpdate.machine (change amount i) (account i).balance) (Action.ofCell i) (Stands i) := by
  refine ⟨⟨rfl, fun _ => rfl⟩, ?_⟩
  intro s c a hstands ha
  cases a with
  | load t =>
      have hat : s.site t = .before .source := by
        rw [hstands.site t, show c.site t = .start from ha]
        rfl
      obtain ⟨hl, hsite, hbalance⟩ := loading_steps amount account i hat
      refine ⟨hl, hbalance.trans hstands.balance, fun u => ?_⟩
      show ((machine amount account).after s (loading i t)).site u = _
      rw [hsite, hstands.balance]
      exact place_update i c t (.loaded c.value) hstands.site u
  | store t =>
      obtain ⟨v, hv⟩ := ha
      have hat : s.site t = .store i v := by
        rw [hstands.site t, hv]
        rfl
      obtain ⟨hl, hsite, hbalance⟩ := storing_steps amount account hat
      have hnext : (LostUpdate.machine (change amount i) (account i).balance).next c (.store t) =
          ⟨v + change amount i t, Function.update c.site t .stored⟩ := LostUpdate.step_store hv
      refine ⟨hl, ?_, fun u => ?_⟩
      · rw [hnext]
        exact hbalance.trans (apply_eq i amount t v)
      · rw [hnext]
        show ((machine amount account).after s (storing i t)).site u = _
        rw [hsite]
        exact place_update i c t .stored hstands.site u

/-! ### What comes out -/

omit [DecidableEq ι] in
theorem sum_change (amount : ι → BitVec 32) (S : Finset ι) (v : BitVec 32) :
    v + ∑ t ∈ S, change amount .source t = v - ∑ t ∈ S, amount t ∧
      v + ∑ t ∈ S, change amount .target t = v + ∑ t ∈ S, amount t := by
  refine ⟨?_, rfl⟩
  rw [sub_eq_add_neg, ← Finset.sum_neg_distrib]
  rfl

theorem outcome [Nonempty ι] (h : (machine amount account).Reachable s)
    (hall : ∀ t, s.site t = .returned) (i : Side) :
    ∃ S : Finset ι, S.Nonempty ∧
      (s.account i).balance = (account i).balance + ∑ t ∈ S, change amount i t := by
  have hcell := (simulates amount account i).component h
  refine LostUpdate.outcome hcell fun t => ?_
  show (s.site t).cell i = .stored
  rw [hall t]
  cases i <;> rfl

theorem realized [Fintype ι] (amount : ι → BitVec 32) (account : Side → Account) (i : Side)
    {S : Finset ι} (hS : S.Nonempty) :
    ∃ s, (machine amount account).Reachable s ∧ (∀ t, s.site t = .returned) ∧
      (s.account i).balance = (account i).balance + ∑ t ∈ S, change amount i t := by
  obtain ⟨c, hc, hall, hvalue⟩ :=
    LostUpdate.realized (change amount i) (account i).balance hS
  obtain ⟨s, hs, hstands⟩ := (realizes amount account i).reachable hc
  refine ⟨s, hs, fun t => ?_, hstands.balance.trans hvalue⟩
  rw [hstands.site t, hall t]
  rfl

/--
**Transfers at the same time lose some updates, and any.**  When all threads have returned, the
source has lost the amounts of some of them, one at least, and the target has got the amounts
of some, maybe others; and on either side this can be any set of threads but the empty one.
-/
theorem transfers_lose [Fintype ι] [Nonempty ι] (amount : ι → BitVec 32)
    (account : Side → Account) :
    (∀ s, (machine amount account).Reachable s → (∀ t, s.site t = .returned) →
      (∃ S : Finset ι, S.Nonempty ∧
        (s.account .source).balance = (account .source).balance - ∑ t ∈ S, amount t) ∧
      ∃ S : Finset ι, S.Nonempty ∧
        (s.account .target).balance = (account .target).balance + ∑ t ∈ S, amount t) ∧
    ∀ S : Finset ι, S.Nonempty →
      (∃ s, (machine amount account).Reachable s ∧ (∀ t, s.site t = .returned) ∧
        (s.account .source).balance = (account .source).balance - ∑ t ∈ S, amount t) ∧
      ∃ s, (machine amount account).Reachable s ∧ (∀ t, s.site t = .returned) ∧
        (s.account .target).balance = (account .target).balance + ∑ t ∈ S, amount t := by
  refine ⟨fun s hs hall => ⟨?_, ?_⟩, fun S hS => ⟨?_, ?_⟩⟩
  · obtain ⟨S, hS, hsum⟩ := outcome hs hall .source
    exact ⟨S, hS, hsum.trans (sum_change amount S _).1⟩
  · obtain ⟨S, hS, hsum⟩ := outcome hs hall .target
    exact ⟨S, hS, hsum.trans (sum_change amount S _).2⟩
  · obtain ⟨s, hs, hall, hsum⟩ := realized amount account .source hS
    exact ⟨s, hs, hall, hsum.trans (sum_change amount S _).1⟩
  · obtain ⟨s, hs, hall, hsum⟩ := realized amount account .target hS
    exact ⟨s, hs, hall, hsum.trans (sum_change amount S _).2⟩

/-- The accounts of `main`. -/
def mainAccount : Side → Account
  | .source => ⟨100, "Bill"⟩
  | .target => ⟨50, "John"⟩

/-- The amounts of `main`. -/
def mainAmount : Fin 2 → BitVec 32
  | 0 => 10
  | 1 => 20

/-- The second transfer can be all that John gets. -/
theorem transfers_lose_main :
    ∃ s, (machine mainAmount mainAccount).Reachable s ∧ (∀ t, s.site t = .returned) ∧
      (s.account .target).balance = 50 + ∑ t ∈ {1}, mainAmount t :=
  ((transfers_lose mainAmount mainAccount).2 {1} (Finset.singleton_nonempty 1)).2

end LinuxSystems.DataRace.Race
