/-
What transfers do to the money.

To write one account changes the sum of the balances by the new balance less the old one.
So a transfer whose amount the account has takes the amount from the sum and puts it back,
and since the sum fits into a balance nothing wraps around.  The code does not ask for
this: an amount that the account does not have makes its balance wrap around.
-/
import LinuxSystems.DataRace.Model
import LinuxSystems.Machine.Tally
import LinuxSystems.Machine.Names
import Mathlib.Data.Fintype.BigOperators

namespace LinuxSystems.DataRace

variable {ι : Type*} [Fintype ι] [DecidableEq ι] {s : DataRace ι} {t : Transfer ι} {i : ι}

/-! ### What is wanted of a transfer -/

/-- The sum of the balances. -/
def total (accounts : ι → Account) : Nat := ∑ i, (accounts i).balance.toNat

omit [Fintype ι] in
/-- Neither operation of a transfer wraps around. -/
structure Exact (s : DataRace ι) (t : Transfer ι) : Prop where
  withdrawn : ((s.withdraw t.amount t.source).accounts t.source).balance.toNat + t.amount.toNat =
    (s.accounts t.source).balance.toNat
  deposited : ((s.transferMoney t).accounts t.target).balance.toNat =
    ((s.withdraw t.amount t.source).accounts t.target).balance.toNat + t.amount.toNat

/-- The account has the amount. -/
def Covered (s : DataRace ι) (t : Transfer ι) : Prop :=
  t.amount.toNat ≤ (s.accounts t.source).balance.toNat

instance (s : DataRace ι) (t : Transfer ι) : Decidable (Covered s t) :=
  inferInstanceAs (Decidable (_ ≤ _))

/-! ### Writing one account -/

/-- To write an account changes the sum by the new balance less the old one. -/
theorem total_update (accounts : ι → Account) (i : ι) (a : Account) :
    total (Function.update accounts i a) + (accounts i).balance.toNat =
      total accounts + a.balance.toNat :=
  tally_update (fun b : Account => b.balance.toNat) accounts i a

omit [DecidableEq ι] in
/-- No balance is more than the sum. -/
theorem balance_le_total (accounts : ι → Account) (i : ι) :
    (accounts i).balance.toNat ≤ total accounts :=
  le_tally (fun b : Account => b.balance.toNat) accounts i

omit [Fintype ι] in
theorem withdraw_at (s : DataRace ι) (amount : BitVec 32) (i : ι) :
    (s.withdraw amount i).accounts i = (s.accounts i).subAssign amount :=
  Function.update_self ..

omit [Fintype ι] in
theorem deposit_at (s : DataRace ι) (amount : BitVec 32) (i : ι) :
    (s.deposit amount i).accounts i = (s.accounts i).addAssign amount :=
  Function.update_self ..

/-! ### A transfer that is covered -/

omit [Fintype ι] in
theorem Covered.withdrawn (h : Covered s t) :
    ((s.withdraw t.amount t.source).accounts t.source).balance.toNat + t.amount.toNat =
      (s.accounts t.source).balance.toNat := by
  have hle : t.amount ≤ (s.accounts t.source).balance := h
  rw [withdraw_at, Account.subAssign, BitVec.toNat_sub_of_le hle]
  exact Nat.sub_add_cancel h

/-- The withdrawal takes the amount from the sum. -/
theorem Covered.withdraw_total (h : Covered s t) :
    total (s.withdraw t.amount t.source).accounts + t.amount.toNat = total s.accounts := by
  have hupdate := total_update s.accounts t.source ((s.accounts t.source).subAssign t.amount)
  have hwithdrawn := h.withdrawn
  rw [withdraw_at] at hwithdrawn
  show total (Function.update _ _ _) + _ = _
  omega

/-- The deposit does not wrap around, because the sum has room for the amount. -/
theorem Covered.exact (h : Covered s t) (hsum : total s.accounts < 2 ^ 32) : Exact s t := by
  refine ⟨h.withdrawn, ?_⟩
  have htotal := h.withdraw_total
  have hle := balance_le_total (s.withdraw t.amount t.source).accounts t.target
  unfold transferMoney
  rw [deposit_at, Account.addAssign, BitVec.toNat_add]
  exact Nat.mod_eq_of_lt (by omega)

/-- The deposit puts the amount back. -/
theorem Covered.total (h : Covered s t) (hsum : DataRace.total s.accounts < 2 ^ 32) :
    DataRace.total (s.transferMoney t).accounts = DataRace.total s.accounts := by
  have hwithdraw := h.withdraw_total
  have hdeposit := (h.exact hsum).deposited
  have hupdate := total_update (s.withdraw t.amount t.source).accounts t.target
    (((s.withdraw t.amount t.source).accounts t.target).addAssign t.amount)
  unfold transferMoney at hdeposit ⊢
  rw [deposit_at] at hdeposit
  show DataRace.total (Function.update _ _ _) = _
  omega

omit [Fintype ι] in
/-- What is not covered wraps around. -/
theorem Exact.covered (h : Exact s t) : Covered s t := by
  have hwithdrawn := h.withdrawn
  unfold Covered
  omega

/-! ### Sequences of transfers -/

theorem total_of_covered {accounts : ι → Account} (hsum : total accounts < 2 ^ 32)
    (h : ((machine accounts).restrict Covered).Reachable s) : total s.accounts = total accounts := by
  refine h.invariant (P := fun s => total s.accounts = total accounts) rfl ?_
  intro s t _ hs ha
  exact (ha.2.total (by omega)).trans hs

/--
**Covered transfers conserve the money.**  Where the sum of the balances fits into a balance and
every transfer takes what its source has, the sum stays as it was, no balance is more than it,
and no operation wraps around.
-/
theorem transfers_conserve (accounts : ι → Account) (hsum : total accounts < 2 ^ 32)
    (tr : List (Transfer ι))
    (hl : ((machine accounts).restrict Covered).Legal (machine accounts).init tr) :
    (∀ pre, pre <+: tr →
      total ((machine accounts).after (machine accounts).init pre).accounts = total accounts ∧
      ∀ i, (((machine accounts).after (machine accounts).init pre).accounts i).balance.toNat ≤
        total accounts) ∧
    ∀ pre t, pre ++ [t] <+: tr →
      Exact ((machine accounts).after (machine accounts).init pre) t := by
  refine ⟨fun pre hpre => ?_, fun pre t hpre => ?_⟩
  · have htotal := total_of_covered hsum (Machine.reachable_after (Machine.legal_of_prefix hpre hl))
    refine ⟨htotal, fun i => ?_⟩
    have hle := balance_le_total ((machine accounts).after (machine accounts).init pre).accounts i
    exact hle.trans htotal.le
  · have hlast := Machine.legal_snoc.mp (Machine.legal_of_prefix hpre hl)
    have htotal := total_of_covered hsum (Machine.reachable_after hlast.1)
    exact hlast.2.2.exact (htotal.trans_lt hsum)

attribute [local instance] neZeroTwo

/-- The accounts of `main`. -/
def mainAccounts : Fin 2 → Account
  | 0 => ⟨100, "Bill"⟩
  | 1 => ⟨50, "John"⟩

/-- The transfers of `main`, and one from an account to itself. -/
def mainTransfers : List (Transfer (Fin 2)) := [⟨10, 0, 1⟩, ⟨20, 0, 1⟩, ⟨80, 1, 1⟩]

theorem transfers_conserve_main :
    total ((machine mainAccounts).after (machine mainAccounts).init mainTransfers).accounts =
      total mainAccounts :=
  ((transfers_conserve mainAccounts (by decide) mainTransfers (by decide +kernel)).1 _
    List.prefix_rfl).1

/-- A transfer of more than there is makes money. -/
theorem transfer_overdraws : total mainAccounts = 150 ∧
    total ((machine mainAccounts).after (machine mainAccounts).init [⟨101, 0, 1⟩]).accounts =
      2 ^ 32 + 150 ∧
    ¬ Exact (machine mainAccounts).init ⟨101, 0, 1⟩ := by
  refine ⟨by decide, by decide +kernel, fun h => ?_⟩
  exact absurd h.covered (by decide +kernel)

end LinuxSystems.DataRace
