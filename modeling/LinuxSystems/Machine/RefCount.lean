/-
Handles that are counted.

A handle may be held in any number of places, and its object keeps the number of them.  A
place is a variable or a member of an object.  A place that gets something else gives back what
it held, and the count of that object goes down.  What is moved from one place to another is
not counted anew.  An object that is not counted any more is
destroyed, and its members give back what they held, before the program goes on.

Three things are wanted of such handles.

  * The count is the number of places, so that it does not depend on the order in which they
    came and went.
  * No place holds an object that is gone, and none is destroyed twice.
  * When the program is done with the variables, nothing is left.  This one fails, and where it
    does is the last result: what is left is what a variable leads to, and what a cycle of
    members leads to.
-/
import LinuxSystems.Machine.Endless
import Mathlib.Data.Fintype.Card
import Mathlib.Data.Set.Card
import Mathlib.Logic.Relation

namespace LinuxSystems

/-- The places in which handles are held: variables, and the members of the objects. -/
structure Layout (P H : Type*) where
  /-- The object that the place is a member of, if it is no variable. -/
  owner : P → Option H
  /-- In the order in which they are destroyed. -/
  members : H → List P
  mem_members : ∀ {h p}, p ∈ members h ↔ owner p = some h
  nodup : ∀ h, (members h).Nodup

structure RefCount (P H : Type*) where
  target : P → Option H
  count : H → Nat
  live : List H
  /-- What is still to be given back. -/
  pending : List H
  destroyed : List H

namespace RefCount

variable {P H : Type*}

inductive Action (P H : Type*) where
  /-- A new object, held by `p`. -/
  | make (p : P) (h : H)
  /-- What `q` holds is held by `p` too. -/
  | assign (p q : P)
  /-- What `q` holds is held by `p`, and no more by `q`. -/
  | move (p q : P)
  | reset (p : P)
  | giveBack

/-- The place is a variable, or its object is there. -/
def Accessible (L : Layout P H) (s : RefCount P H) (p : P) : Prop := ∀ h ∈ L.owner p, h ∈ s.live

def enabled (L : Layout P H) (s : RefCount P H) : Action P H → Prop
  | .make p h => s.pending = [] ∧ Accessible L s p ∧ h ∉ s.live ∧ h ∉ s.destroyed
  | .assign p q | .move p q => s.pending = [] ∧ Accessible L s p ∧ Accessible L s q
  | .reset p => s.pending = [] ∧ Accessible L s p
  | .giveBack => s.pending ≠ []

variable [DecidableEq P] [DecidableEq H]

instance (L : Layout P H) (s : RefCount P H) (p : P) : Decidable (Accessible L s p) :=
  inferInstanceAs (Decidable (∀ h ∈ L.owner p, h ∈ s.live))

instance (L : Layout P H) (s : RefCount P H) : ∀ a, Decidable (enabled L s a)
  | .make p h => inferInstanceAs
      (Decidable (s.pending = [] ∧ Accessible L s p ∧ h ∉ s.live ∧ h ∉ s.destroyed))
  | .assign p q | .move p q => inferInstanceAs
      (Decidable (s.pending = [] ∧ Accessible L s p ∧ Accessible L s q))
  | .reset p => inferInstanceAs (Decidable (s.pending = [] ∧ Accessible L s p))
  | .giveBack => inferInstanceAs (Decidable (¬ s.pending = []))

/-- `p` holds `v`, and gives back what it held. -/
def put (p : P) (v : Option H) (s : RefCount P H) : RefCount P H :=
  { s with
    target := Function.update s.target p v
    count := fun h => s.count h + v.toList.count h
    pending := (s.target p).toList ++ s.pending }

/-- What `q` holds goes to `p`, and `p` gives back what it held.  To be moved to itself leaves a
place as it is. -/
def move (p q : P) (s : RefCount P H) : RefCount P H :=
  { s with
    target := Function.update (Function.update s.target q none) p (s.target q)
    pending := (Function.update s.target q none p).toList ++ s.pending }

/-- The members of `h` hold nothing. -/
def clear (L : Layout P H) (h : H) (t : P → Option H) (p : P) : Option H :=
  if p ∈ L.members h then none else t p

/-- The last reference to `h` was given back. -/
def destroy (L : Layout P H) (h : H) (s : RefCount P H) : RefCount P H where
  target := clear L h s.target
  count := Function.update s.count h 0
  live := s.live.erase h
  pending := (L.members h).filterMap s.target ++ s.pending
  destroyed := s.destroyed ++ [h]

def giveBack (L : Layout P H) (s : RefCount P H) : RefCount P H :=
  match s.pending with
  | [] => s
  | h :: rest =>
      if s.count h = 1 then destroy L h { s with pending := rest }
      else { s with count := Function.update s.count h (s.count h - 1), pending := rest }

def step (L : Layout P H) (s : RefCount P H) : Action P H → RefCount P H
  | .make p h => put p (some h) { s with live := h :: s.live }
  | .assign p q => put p (s.target q) s
  | .move p q => move p q s
  | .reset p => put p none s
  | .giveBack => giveBack L s

/-- Nothing is held. -/
def machine (L : Layout P H) : Machine (RefCount P H) (Action P H) where
  init := ⟨fun _ => none, fun _ => 0, [], [], []⟩
  enabled := enabled L
  next := step L

variable {L : Layout P H} {s : RefCount P H} {a : Action P H} {p q : P} {h k : H} {v : Option H}

@[simp] theorem put_target : (put p v s).target = Function.update s.target p v := rfl

@[simp] theorem put_count : (put p v s).count h = s.count h + v.toList.count h := rfl

@[simp] theorem put_live : (put p v s).live = s.live := rfl

@[simp] theorem put_pending : (put p v s).pending = (s.target p).toList ++ s.pending := rfl

@[simp] theorem put_destroyed : (put p v s).destroyed = s.destroyed := rfl

/-- What giving back does. -/
theorem giveBack_cons {rest : List H} (hrest : s.pending = h :: rest) :
    giveBack L s = if s.count h = 1 then destroy L h { s with pending := rest }
      else { s with count := Function.update s.count h (s.count h - 1), pending := rest } := by
  simp [giveBack, hrest]

omit [DecidableEq H] in
theorem clear_eq_some {t : P → Option H} :
    clear L h t p = some k ↔ p ∉ L.members h ∧ t p = some k := by
  simp [clear, ite_eq_iff]

/-! ### The places that hold an object -/

/-- The places that hold `h`. -/
def holders (t : P → Option H) (h : H) : Set P := {p | t p = some h}

omit [DecidableEq P] [DecidableEq H] in
@[simp] theorem mem_holders {t : P → Option H} : p ∈ holders t h ↔ t p = some h := Iff.rfl

omit [DecidableEq H] in
theorem holders_update_sdiff (t : P → Option H) :
    holders (Function.update t p v) h \ {p} = holders t h \ {p} := by
  ext q
  by_cases hqp : q = p
  · simp [hqp]
  · simp [holders, hqp]

omit [DecidableEq P] in
/-- A place is one of the holders of what it holds. -/
theorem encard_holders (t : P → Option H) (p : P) (h : H) :
    (holders t h).encard = (holders t h \ {p}).encard + (t p).toList.count h := by
  by_cases hp : t p = some h
  · have hmem : p ∈ holders t h := hp
    rw [hp, ← Set.encard_sdiff_singleton_add_one hmem]
    simp
  · have hmem : p ∉ holders t h := hp
    have hcount : (t p).toList.count h = 0 := by
      rw [List.count_eq_zero, Option.mem_toList]
      exact hp
    rw [hcount, Set.sdiff_singleton_eq_self hmem]
    simp

/-- A place that gets `v` gives up what it held. -/
theorem encard_holders_update (t : P → Option H) (p : P) (v : Option H) (h : H) :
    (holders (Function.update t p v) h).encard + (t p).toList.count h =
      (holders t h).encard + v.toList.count h := by
  rw [encard_holders _ p, encard_holders t p, holders_update_sdiff, Function.update_self,
    add_right_comm]

/-- Members that are cleared one after the other give up what they held. -/
theorem encard_holders_clear (t : P → Option H) (k : H) {ps : List P} (hps : ps.Nodup) :
    (holders (fun p => if p ∈ ps then none else t p) k).encard + (ps.filterMap t).count k =
      (holders t k).encard := by
  induction ps with
  | nil => simp
  | cons p ps ih =>
      obtain ⟨hp, hps⟩ := List.nodup_cons.mp hps
      have hupdate : (fun q => if q ∈ p :: ps then none else t q) =
          Function.update (fun q => if q ∈ ps then none else t q) p none := by
        funext q
        by_cases hqp : q = p
        · simp [hqp]
        · simp [hqp]
      have hone := encard_holders_update (fun q => if q ∈ ps then none else t q) p none k
      have hsplit : ((p :: ps).filterMap t).count k =
          (t p).toList.count k + (ps.filterMap t).count k := by
        cases ht : t p <;> simp [ht, List.count_cons, add_comm]
      simp only [if_neg hp, Option.toList_none, List.count_nil, Nat.cast_zero, add_zero] at hone
      rw [hupdate, hsplit, Nat.cast_add, ← add_assoc, hone, ih hps]

/-! ### What every operation keeps -/

structure Counted (L : Layout P H) (s : RefCount P H) : Prop where
  /-- An object counts the places that hold it, and what is still to be given back. -/
  counts : ∀ h, (holders s.target h).encard + (s.pending.count h : ℕ) = (s.count h : ℕ)
  /-- It is there as long as it is counted. -/
  live_iff : ∀ h, h ∈ s.live ↔ 0 < s.count h
  /-- What is gone has no members that hold something. -/
  owner_live : ∀ p h k, L.owner p = some h → s.target p = some k → h ∈ s.live
  /-- Nothing is there twice, comes back, or goes twice. -/
  nodup : (s.live ++ s.destroyed).Nodup

namespace Counted

omit [DecidableEq P] in
theorem pending_le (hs : Counted L s) (h : H) : s.pending.count h ≤ s.count h := by
  have hle := le_add_self.trans (hs.counts h).le
  exact_mod_cast hle

omit [DecidableEq P] in
/-- **Nothing dangles.** -/
theorem target_live (hs : Counted L s) (hp : s.target p = some h) : h ∈ s.live := by
  have hne : (holders s.target h).encard ≠ 0 := Set.encard_ne_zero_of_mem hp
  rw [hs.live_iff, Nat.pos_iff_ne_zero]
  intro hzero
  have hcounts := hs.counts h
  rw [hzero, Nat.cast_zero, add_eq_zero] at hcounts
  exact hne hcounts.1

omit [DecidableEq P] in
theorem pending_live (hs : Counted L s) (hmem : h ∈ s.pending) : h ∈ s.live := by
  have hpos := List.count_pos_iff.mpr hmem
  exact (hs.live_iff h).mpr (hpos.trans_le (hs.pending_le h))

omit [DecidableEq P] in
/-- What is held by nobody, and not to be given back, is not there. -/
theorem exists_holder (hs : Counted L s) (hrest : s.pending = []) (hl : h ∈ s.live) :
    ∃ p, s.target p = some h := by
  have hpos := (hs.live_iff h).mp hl
  have hcounts := hs.counts h
  rw [hrest, List.count_nil, Nat.cast_zero, add_zero] at hcounts
  have hne : (holders s.target h).encard ≠ 0 := by
    rw [hcounts]
    exact_mod_cast hpos.ne'
  exact Set.nonempty_of_encard_ne_zero hne

/-- What a place gets is counted. -/
theorem counts_put (hs : Counted L s) (p : P) (v : Option H) (h : H) :
    (holders (put p v s).target h).encard + ((put p v s).pending.count h : ℕ) =
      ((put p v s).count h : ℕ) := by
  have hupdate := encard_holders_update s.target p v h
  rw [put_target, put_pending, put_count, List.count_append, Nat.cast_add, Nat.cast_add,
    ← add_assoc, hupdate, add_right_comm, hs.counts h]

theorem owner_live_put (hs : Counted L s) (hp : Accessible L s p) {q : P}
    (hq : L.owner q = some h) (htarget : (put p v s).target q = some k) : h ∈ s.live := by
  rw [put_target] at htarget
  by_cases hqp : q = p
  · rw [hqp] at hq
    exact hp h hq
  · rw [Function.update_of_ne hqp] at htarget
    exact hs.owner_live q h k hq htarget

/-- A place gets what is there, or nothing. -/
theorem put (hs : Counted L s) (hp : Accessible L s p) (hv : ∀ h ∈ v, h ∈ s.live) :
    Counted L (put p v s) := by
  refine ⟨hs.counts_put p v, ?_, fun q h k hq htarget => hs.owner_live_put hp hq htarget,
    hs.nodup⟩
  intro h
  have hiff := hs.live_iff h
  have hmem : 0 < v.toList.count h → h ∈ s.live := by
    intro hpos
    exact hv h (Option.mem_toList.mp (List.count_pos_iff.mp hpos))
  rw [put_live, put_count]
  constructor
  · intro hl
    have hpos := hiff.mp hl
    omega
  · intro hpos
    rcases Nat.eq_zero_or_pos (v.toList.count h) with hzero | hone
    · exact hiff.mpr (by omega)
    · exact hmem hone

/-- What is moved is held once less and once more. -/
theorem counts_move (hs : Counted L s) (p q : P) (h : H) :
    (holders (move p q s).target h).encard + ((move p q s).pending.count h : ℕ) =
      ((move p q s).count h : ℕ) := by
  have htake := encard_holders_update s.target q none h
  have hgive := encard_holders_update (Function.update s.target q none) p (s.target q) h
  rw [Option.toList_none, List.count_nil, Nat.cast_zero, add_zero] at htake
  show (holders (Function.update (Function.update s.target q none) p (s.target q)) h).encard +
    (((Function.update s.target q none p).toList ++ s.pending).count h : ℕ) = (s.count h : ℕ)
  rw [List.count_append, Nat.cast_add, ← add_assoc, hgive, htake, hs.counts h]

/-- A place gets what another one held. -/
theorem move (hs : Counted L s) (hp : Accessible L s p) (q : P) : Counted L (move p q s) := by
  refine ⟨hs.counts_move p q, hs.live_iff, fun r h k hr htarget => ?_, hs.nodup⟩
  have htarget' : Function.update (Function.update s.target q none) p (s.target q) r = some k :=
    htarget
  by_cases hrp : r = p
  · rw [hrp] at hr
    exact hp h hr
  · rw [Function.update_of_ne hrp] at htarget'
    by_cases hrq : r = q
    · rw [hrq, Function.update_self] at htarget'
      cases htarget'
    · rw [Function.update_of_ne hrq] at htarget'
      exact hs.owner_live r h k hr htarget'

theorem make (hs : Counted L s) (hp : Accessible L s p) (hl : h ∉ s.live)
    (hd : h ∉ s.destroyed) : Counted L (step L s (.make p h)) := by
  refine ⟨hs.counts_put p (some h), ?_, ?_, ?_⟩
  · intro k
    show k ∈ h :: s.live ↔ 0 < s.count k + [h].count k
    by_cases hkh : k = h
    · simp [hkh]
    · rw [List.mem_cons, or_iff_right hkh, hs.live_iff k]
      simp [Ne.symm hkh]
  · intro q j k hq htarget
    exact List.mem_cons_of_mem h (hs.owner_live_put hp hq htarget)
  · show (h :: (s.live ++ s.destroyed)).Nodup
    refine List.nodup_cons.mpr ⟨?_, hs.nodup⟩
    rw [List.mem_append]
    exact fun hmem => hmem.elim hl hd

theorem destroy {rest : List H} (hs : Counted L s) (hrest : s.pending = h :: rest)
    (hone : s.count h = 1) : Counted L (destroy L h { s with pending := rest }) := by
  have hmem : h ∈ s.live := (hs.live_iff h).mpr (by omega)
  have hlive : s.live.Nodup := (List.nodup_append.mp hs.nodup).1
  refine ⟨?_, ?_, ?_, ?_⟩
  · intro k
    have hclear := encard_holders_clear s.target k (L.nodup h)
    have hcounts := hs.counts k
    show (holders (clear L h s.target) k).encard +
      (((L.members h).filterMap s.target ++ rest).count k : ℕ) =
        (Function.update s.count h 0 k : ℕ)
    rw [List.count_append, Nat.cast_add, ← add_assoc]
    unfold clear
    rw [hclear]
    by_cases hkh : k = h
    · rw [hkh] at hcounts ⊢
      rw [hrest, List.count_cons_self, hone, Nat.cast_add, ← add_assoc, Nat.cast_one] at hcounts
      rw [Function.update_self, Nat.cast_zero]
      have hsum := hcounts.trans (zero_add (1 : ℕ∞)).symm
      exact ENat.add_left_injective_of_ne_top ENat.one_ne_top hsum
    · rw [hrest, List.count_cons_of_ne (Ne.symm hkh)] at hcounts
      rw [Function.update_of_ne hkh, hcounts]
  · intro k
    show k ∈ s.live.erase h ↔ 0 < Function.update s.count h 0 k
    by_cases hkh : k = h
    · rw [hkh, Function.update_self]
      exact iff_of_false hlive.not_mem_erase (lt_irrefl 0)
    · rw [Function.update_of_ne hkh, List.mem_erase_of_ne hkh, hs.live_iff k]
  · intro q j k hq htarget
    obtain ⟨hout, htarget⟩ := clear_eq_some.mp htarget
    have hj := hs.owner_live q j k hq htarget
    refine (List.mem_erase_of_ne ?_).mpr hj
    rintro rfl
    exact hout (L.mem_members.mpr hq)
  · show (s.live.erase h ++ (s.destroyed ++ [h])).Nodup
    have hperm : (s.live.erase h ++ (s.destroyed ++ [h])).Perm (s.live ++ s.destroyed) := by
      rw [← List.append_assoc]
      refine (List.perm_append_singleton h _).trans ?_
      exact (List.perm_cons_erase hmem).symm.append_right s.destroyed
    exact hperm.nodup_iff.mpr hs.nodup

theorem giveBack (hs : Counted L s) (hp : s.pending ≠ []) : Counted L (giveBack L s) := by
  obtain ⟨h, rest, hrest⟩ := List.exists_cons_of_ne_nil hp
  have hpos : 0 < s.count h := (hs.live_iff h).mp (hs.pending_live (by simp [hrest]))
  rw [giveBack_cons hrest]
  by_cases hone : s.count h = 1
  · rw [if_pos hone]
    exact hs.destroy hrest hone
  · rw [if_neg hone]
    refine ⟨?_, ?_, hs.owner_live, hs.nodup⟩
    · intro k
      have hcounts := hs.counts k
      show (holders s.target k).encard + (rest.count k : ℕ) =
        (Function.update s.count h (s.count h - 1) k : ℕ)
      by_cases hkh : k = h
      · rw [hkh] at hcounts ⊢
        obtain ⟨n, hn⟩ : ∃ n, s.count h = n + 1 := ⟨s.count h - 1, by omega⟩
        rw [hrest, List.count_cons_self, hn, Nat.cast_add, Nat.cast_add, ← add_assoc] at hcounts
        rw [Function.update_self, hn, Nat.add_sub_cancel]
        exact ENat.add_left_injective_of_ne_top ENat.one_ne_top hcounts
      · rw [hrest, List.count_cons_of_ne (Ne.symm hkh)] at hcounts
        rw [Function.update_of_ne hkh, hcounts]
    · intro k
      show k ∈ s.live ↔ 0 < Function.update s.count h (s.count h - 1) k
      by_cases hkh : k = h
      · rw [hkh, Function.update_self, hs.live_iff h]
        omega
      · rw [Function.update_of_ne hkh, hs.live_iff k]

theorem step (hs : Counted L s) (ha : enabled L s a) : Counted L (step L s a) := by
  cases a with
  | make p h => exact hs.make ha.2.1 ha.2.2.1 ha.2.2.2
  | assign p q => exact hs.put ha.2.1 fun h hq => hs.target_live hq
  | move p q => exact hs.move ha.2.1 q
  | reset p => exact hs.put ha.2 fun h hv => absurd hv (Option.not_mem_none h)
  | giveBack => exact hs.giveBack ha

end Counted

/-- **The counts are right**, whatever the program does with its handles. -/
theorem reachable_counted (hr : (machine L).Reachable s) : Counted L s := by
  refine hr.invariant (P := Counted L) ⟨?_, ?_, ?_, ?_⟩ ?_
  · intro h
    simp [machine, holders]
  · intro h
    simp [machine]
  · intro p h k _ htarget
    exact absurd htarget (by simp [machine])
  · simp [machine]
  · intro s a _ hs ha
    exact hs.step ha

/-! ### Giving back comes to an end -/

theorem giveBack_down (hs : Counted L s) (hp : s.pending ≠ []) :
    (giveBack L s).live.length < s.live.length ∨
      (giveBack L s).live.length = s.live.length ∧
        (giveBack L s).pending.length < s.pending.length := by
  obtain ⟨h, rest, hrest⟩ := List.exists_cons_of_ne_nil hp
  have hmem : h ∈ s.live := hs.pending_live (by simp [hrest])
  have hlen := List.length_pos_of_mem hmem
  rw [giveBack_cons hrest, hrest]
  by_cases hone : s.count h = 1
  · rw [if_pos hone]
    left
    show (s.live.erase h).length < s.live.length
    rw [List.length_erase_of_mem hmem]
    omega
  · rw [if_neg hone]
    exact Or.inr ⟨rfl, Nat.lt_succ_self rest.length⟩

/-- **The program goes on**: what is to be given back is given back in finitely many steps.
Each of them destroys an object, or has one reference less to give back. -/
theorem exists_settled (hs : Counted L s) : ∃ n,
    (machine L).Legal s (List.replicate n .giveBack) ∧
      ((machine L).after s (List.replicate n .giveBack)).pending = [] := by
  have hwf : WellFounded (Prod.Lex (· < ·) (· < ·) : ℕ × ℕ → ℕ × ℕ → Prop) :=
    WellFounded.prod_lex Nat.lt_wfRel.wf Nat.lt_wfRel.wf
  generalize hμ : (s.live.length, s.pending.length) = μ
  induction μ using hwf.induction generalizing s with
  | _ μ ih =>
      by_cases hp : s.pending = []
      · exact ⟨0, trivial, hp⟩
      · have hdown := giveBack_down hs hp
        have hlex : Prod.Lex (· < ·) (· < ·)
            ((giveBack L s).live.length, (giveBack L s).pending.length) μ := by
          rw [← hμ, Prod.lex_def]
          exact hdown
        obtain ⟨n, hn, hend⟩ := ih _ hlex (hs.giveBack hp) rfl
        exact ⟨n + 1, ⟨hp, hn⟩, hend⟩

/-! ### What is left -/

/-- A member of `h` holds `k`. -/
def Points (L : Layout P H) (s : RefCount P H) (h k : H) : Prop :=
  ∃ p, L.owner p = some h ∧ s.target p = some k

/-- `h` leads back to itself. -/
def OnCycle (L : Layout P H) (s : RefCount P H) (h : H) : Prop :=
  Relation.TransGen (Points L s) h h

omit [DecidableEq P] in
theorem Counted.live_of_points (hs : Counted L s) (hp : Points L s h k) : k ∈ s.live := by
  obtain ⟨p, _, htarget⟩ := hp
  exact hs.target_live htarget

omit [DecidableEq P] in
theorem Counted.live_of_leads (hs : Counted L s) (hl : h ∈ s.live)
    (hled : Relation.ReflTransGen (Points L s) h k) : k ∈ s.live := by
  induction hled with
  | refl => exact hl
  | tail _ hp _ => exact hs.live_of_points hp

omit [DecidableEq P] in
theorem Counted.live_of_onCycle (hs : Counted L s) (hc : OnCycle L s h) : h ∈ s.live := by
  obtain ⟨k, hp, _⟩ := Relation.TransGen.head'_iff.mp hc
  obtain ⟨p, howner, htarget⟩ := hp
  exact hs.owner_live p h k howner htarget

/-- **What is there** while nothing is being given back: what a variable leads to, and what a
cycle leads to. -/
theorem live_iff_led (hr : (machine L).Reachable s) (hrest : s.pending = []) :
    h ∈ s.live ↔
      (∃ p k, L.owner p = none ∧ s.target p = some k ∧ Relation.ReflTransGen (Points L s) k h) ∨
        ∃ k, OnCycle L s k ∧ Relation.ReflTransGen (Points L s) k h := by
  have hs := reachable_counted hr
  constructor
  · intro hl
    by_contra hnone
    simp only [not_or, not_exists, not_and] at hnone
    obtain ⟨hvar, hcycle⟩ := hnone
    -- those that lead to `h`: finitely many, and each is held by another of them
    let Before : Type _ := {k // Relation.ReflTransGen (Points L s) k h ∧ k ∈ s.live}
    let r : Before → Before → Prop := fun j k => Relation.TransGen (Points L s) j.1 k.1
    have hfin : Finite Before := by
      refine Finite.of_injective (fun k => (⟨k.1, k.2.2⟩ : {k // k ∈ s.live})) ?_
      intro j k hjk
      exact Subtype.ext (congrArg (fun x => x.1) hjk)
    have htrans : IsTrans Before r := ⟨fun _ _ _ hij hjk => hij.trans hjk⟩
    have hirrefl : Std.Irrefl r := ⟨fun k hk => hcycle k.1 hk k.2.1⟩
    have hwf : WellFounded r := Finite.wellFounded_of_trans_of_irrefl r
    obtain ⟨k, -, hmin⟩ := hwf.has_min Set.univ ⟨(⟨h, .refl, hl⟩ : Before), Set.mem_univ _⟩
    obtain ⟨p, htarget⟩ := hs.exists_holder hrest k.2.2
    cases howner : L.owner p with
    | none => exact hvar p k.1 howner htarget k.2.1
    | some j =>
        have hp : Points L s j k.1 := ⟨p, howner, htarget⟩
        have hj : j ∈ s.live := hs.owner_live p j k.1 howner htarget
        exact hmin ⟨j, .head hp k.2.1, hj⟩ (Set.mem_univ _) (.single hp)
  · intro hled
    rcases hled with ⟨p, k, _, htarget, hled⟩ | ⟨k, hc, hled⟩
    · exact hs.live_of_leads (hs.target_live htarget) hled
    · exact hs.live_of_leads (hs.live_of_onCycle hc) hled

/-- **Nothing is left exactly where there is no cycle**, when the program is done with its
variables. -/
theorem live_eq_nil_iff (hr : (machine L).Reachable s) (hrest : s.pending = [])
    (hdone : ∀ p, L.owner p = none → s.target p = none) :
    s.live = [] ↔ ∀ h, ¬ OnCycle L s h := by
  constructor
  · intro hnil h hc
    have hl := (reachable_counted hr).live_of_onCycle hc
    rw [hnil] at hl
    exact List.not_mem_nil hl
  · intro hcycle
    refine List.eq_nil_iff_forall_not_mem.mpr fun h hl => ?_
    rcases (live_iff_led hr hrest).mp hl with ⟨p, k, howner, htarget, _⟩ | ⟨k, hc, _⟩
    · rw [hdone p howner] at htarget
      cases htarget
    · exact hcycle k hc

/-! ### Where cycles come from -/

/-- No object leads back to itself. -/
def Acyclic (L : Layout P H) (s : RefCount P H) : Prop := ∀ h, ¬ OnCycle L s h

/-- No member of an object gets what leads to that object. -/
def Straight (L : Layout P H) (s : RefCount P H) : Action P H → Prop
  | .assign p q | .move p q =>
      ∀ h ∈ L.owner p, ∀ k ∈ s.target q, ¬ Relation.ReflTransGen (Points L s) k h
  | .make _ _ | .reset _ | .giveBack => True

omit [DecidableEq P] [DecidableEq H] in
/-- A way that one edge more makes possible goes through that edge. -/
theorem transGen_of_edge {r r' : H → H → Prop} {x y : H}
    (hedge : ∀ i j, r' i j → r i j ∨ i = x ∧ j = y) (hopen : ¬ Relation.ReflTransGen r y x)
    {i j : H} (hij : Relation.TransGen r' i j) :
    Relation.TransGen r i j ∨ Relation.ReflTransGen r i x ∧ Relation.ReflTransGen r y j := by
  induction hij with
  | single h =>
      rcases hedge _ _ h with hr | ⟨rfl, rfl⟩
      · exact Or.inl (.single hr)
      · exact Or.inr ⟨.refl, .refl⟩
  | tail _ h ih =>
      rcases hedge _ _ h with hr | ⟨rfl, rfl⟩
      · rcases ih with ih | ih
        · exact Or.inl (ih.tail hr)
        · exact Or.inr ⟨ih.1, ih.2.tail hr⟩
      · rcases ih with ih | ih
        · exact Or.inr ⟨ih.to_reflTransGen, .refl⟩
        · exact absurd ih.2 hopen

omit [DecidableEq P] [DecidableEq H] in
/-- A way to `x` needs no edge that starts there. -/
theorem reflTransGen_to {r r' : H → H → Prop} {x i : H} (hkeep : ∀ i j, i ≠ x → r i j → r' i j)
    (hix : Relation.ReflTransGen r i x) : Relation.ReflTransGen r' i x := by
  induction hix using Relation.ReflTransGen.head_induction_on with
  | refl => exact .refl
  | @head i j hij _ ih =>
      by_cases hi : i = x
      · rw [hi]
      · exact .head (hkeep i j hi hij) ih

omit [DecidableEq P] [DecidableEq H] in
/-- A way from `x` needs no edge that ends there. -/
theorem reflTransGen_from {r r' : H → H → Prop} {x j : H} (hkeep : ∀ i j, j ≠ x → r i j → r' i j)
    (hxj : Relation.ReflTransGen r x j) : Relation.ReflTransGen r' x j := by
  induction hxj with
  | refl => exact .refl
  | @tail i j _ hij ih =>
      by_cases hj : j = x
      · rw [hj]
      · exact ih.tail (hkeep i j hj hij)

omit [DecidableEq P] [DecidableEq H] in
theorem Acyclic.of_points {s' : RefCount P H} (hs : Acyclic L s)
    (hsub : ∀ i j, Points L s' i j → Points L s i j) : Acyclic L s' :=
  fun h hc => hs h (Relation.TransGen.mono (fun i j => hsub i j) h h hc)

theorem points_put (hp : Points L (put p v s) h k) :
    Points L s h k ∨ L.owner p = some h ∧ v = some k := by
  obtain ⟨q, howner, htarget⟩ := hp
  rw [put_target] at htarget
  by_cases hqp : q = p
  · rw [hqp, Function.update_self] at htarget
    exact Or.inr ⟨hqp ▸ howner, htarget⟩
  · rw [Function.update_of_ne hqp] at htarget
    exact Or.inl ⟨q, howner, htarget⟩

theorem points_of_put {o : H} (ho : L.owner p = some o) (hne : h ≠ o) (hp : Points L s h k) :
    Points L (put p v s) h k := by
  obtain ⟨q, howner, htarget⟩ := hp
  have hqp : q ≠ p := by
    rintro rfl
    exact hne (Option.some.inj (howner.symm.trans ho))
  refine ⟨q, howner, ?_⟩
  rw [put_target, Function.update_of_ne hqp, htarget]

/-- A variable, or a member that gets nothing, is on no way. -/
theorem Acyclic.put_none (hs : Acyclic L s) (hnone : ∀ h ∈ L.owner p, v = none) :
    Acyclic L (put p v s) := by
  refine hs.of_points fun i j hp => (points_put hp).resolve_right ?_
  intro ⟨howner, hv⟩
  rw [hnone i howner] at hv
  cases hv

/-- A member that gets `k` closes a cycle exactly where `k` leads to its object. -/
theorem Acyclic.put_some_iff {o : H} (hs : Acyclic L s) (ho : L.owner p = some o) :
    Acyclic L (put p (some k) s) ↔ ¬ Relation.ReflTransGen (Points L s) k o := by
  constructor
  · intro hput hled
    have hedge : Points L (put p (some k) s) o k :=
      ⟨p, ho, by rw [put_target, Function.update_self]⟩
    have hback : Relation.ReflTransGen (Points L (put p (some k) s)) k o :=
      reflTransGen_to (fun i j hi hij => points_of_put ho hi hij) hled
    exact hput o (Relation.TransGen.head' hedge hback)
  · intro hopen h hc
    have hcases := transGen_of_edge (r := Points L s) (x := o) (y := k) ?_ hopen hc
    · rcases hcases with hc | ⟨hto, hfrom⟩
      · exact hs h hc
      · exact hopen (hfrom.trans hto)
    · intro i j hij
      refine (points_put hij).imp_right fun ⟨hi, hj⟩ => ?_
      exact ⟨Option.some.inj (hi.symm.trans ho), (Option.some.inj hj).symm⟩

/-- `q` holds nothing. -/
def take (q : P) (s : RefCount P H) : RefCount P H :=
  { s with target := Function.update s.target q none }

omit [DecidableEq H] in
theorem points_take {q : P} (hp : Points L (take q s) h k) : Points L s h k := by
  obtain ⟨r, howner, htarget⟩ := hp
  have htarget' : Function.update s.target q none r = some k := htarget
  by_cases hrq : r = q
  · rw [hrq, Function.update_self] at htarget'
    cases htarget'
  · rw [Function.update_of_ne hrq] at htarget'
    exact ⟨r, howner, htarget'⟩

omit [DecidableEq H] in
/-- What `q` leads to does not lead anywhere through `q`. -/
theorem leads_take_iff {q : P} (hq : s.target q = some k) :
    Relation.ReflTransGen (Points L (take q s)) k h ↔ Relation.ReflTransGen (Points L s) k h := by
  constructor
  · exact fun hled => Relation.ReflTransGen.mono
      (fun i j (hp : Points L (take q s) i j) => points_take hp) k h hled
  · refine reflTransGen_from fun i j hj hp => ?_
    obtain ⟨r, howner, htarget⟩ := hp
    have hrq : r ≠ q := by
      rintro rfl
      exact hj (Option.some.inj (htarget.symm.trans hq))
    exact ⟨r, howner, (Function.update_of_ne hrq ..).trans htarget⟩

/-- A place that is moved to another one closes a cycle exactly as one that is assigned to it. -/
theorem Acyclic.move_iff (hs : Acyclic L s) :
    Acyclic L (move p q s) ↔ Straight L s (.move p q) := by
  have htake : Acyclic L (take q s) := hs.of_points fun _ _ hp => points_take hp
  show Acyclic L (put p (s.target q) (take q s)) ↔
    ∀ h ∈ L.owner p, ∀ k ∈ s.target q, ¬ Relation.ReflTransGen (Points L s) k h
  cases ho : L.owner p with
  | none =>
      refine iff_of_true (htake.put_none fun i hi => ?_) fun i hi => ?_
      · exact absurd (hi.symm.trans ho) (by simp)
      · exact absurd hi (Option.not_mem_none i)
  | some o =>
      cases hq : s.target q with
      | none =>
          refine iff_of_true (htake.put_none fun _ _ => rfl) fun _ _ k hk => ?_
          exact absurd hk (Option.not_mem_none k)
      | some k =>
          rw [htake.put_some_iff ho, leads_take_iff hq]
          simp

omit [DecidableEq P] in
/-- What is not there leads nowhere. -/
theorem Counted.not_leads (hs : Counted L s) (hl : h ∉ s.live) (hk : k ∈ s.live) :
    ¬ Relation.ReflTransGen (Points L s) h k := by
  intro hled
  rcases Relation.ReflTransGen.cases_head hled with rfl | ⟨j, ⟨p, howner, htarget⟩, _⟩
  · exact hl hk
  · exact hl (hs.owner_live p h j howner htarget)

theorem Acyclic.giveBack (hs : Acyclic L s) (hp : s.pending ≠ []) :
    Acyclic L (giveBack L s) := by
  obtain ⟨h, rest, hrest⟩ := List.exists_cons_of_ne_nil hp
  refine hs.of_points fun i j hij => ?_
  obtain ⟨p, howner, htarget⟩ := hij
  refine ⟨p, howner, ?_⟩
  rw [giveBack_cons hrest] at htarget
  by_cases hone : s.count h = 1
  · rw [if_pos hone] at htarget
    exact (clear_eq_some.mp htarget).2
  · rw [if_neg hone] at htarget
    exact htarget

/-- A step keeps the objects without cycles exactly where it closes none. -/
theorem acyclic_step_iff (hcounted : Counted L s) (ha : enabled L s a) (hs : Acyclic L s) :
    Acyclic L (step L s a) ↔ Straight L s a := by
  cases a with
  | make p h =>
      refine iff_of_true ?_ trivial
      have hmake : Acyclic L { s with live := h :: s.live } := hs.of_points fun _ _ hp => hp
      cases ho : L.owner p with
      | none => exact hmake.put_none fun i hi => absurd (hi.symm.trans ho) (by simp)
      | some o => exact (hmake.put_some_iff ho).mpr (hcounted.not_leads ha.2.2.1 (ha.2.1 o ho))
  | assign p q =>
      show Acyclic L (put p (s.target q) s) ↔
        ∀ h ∈ L.owner p, ∀ k ∈ s.target q, ¬ Relation.ReflTransGen (Points L s) k h
      cases ho : L.owner p with
      | none =>
          refine iff_of_true (hs.put_none fun i hi => ?_) fun i hi => ?_
          · exact absurd (hi.symm.trans ho) (by simp)
          · exact absurd hi (Option.not_mem_none i)
      | some o =>
          cases hq : s.target q with
          | none =>
              refine iff_of_true (hs.put_none fun _ _ => rfl) fun _ _ k hk => ?_
              exact absurd hk (Option.not_mem_none k)
          | some k =>
              rw [hs.put_some_iff ho]
              simp
  | move p q => exact hs.move_iff
  | reset p => exact iff_of_true (hs.put_none fun _ _ => rfl) trivial
  | giveBack => exact iff_of_true (hs.giveBack ha) trivial

theorem acyclic_init : Acyclic L (machine L).init := by
  intro h hc
  obtain ⟨k, ⟨p, _, htarget⟩, _⟩ := Relation.TransGen.head'_iff.mp hc
  exact Option.some_ne_none k htarget.symm

/-! ### Cycles are not given back -/

omit [DecidableEq P] [DecidableEq H] in
/-- A way whose first object is led to needs no edges but those of objects that are led to. -/
theorem transGen_of_led {r r' : H → H → Prop} (hkeep : ∀ i j k, r i j → r j k → r' j k)
    {i j k : H} (hled : r i j) (hjk : Relation.TransGen r j k) : Relation.TransGen r' j k := by
  induction hjk using Relation.TransGen.head_induction_on generalizing i with
  | single hjk => exact .single (hkeep _ _ _ hled hjk)
  | head hjl _ ih => exact .head (hkeep _ _ _ hled hjl) (ih hjl)

/-- What is given back for the last time was held by no member. -/
theorem onCycle_giveBack (hs : Counted L s) (hp : s.pending ≠ []) (hc : OnCycle L s h) :
    OnCycle L (giveBack L s) h := by
  obtain ⟨d, rest, hrest⟩ := List.exists_cons_of_ne_nil hp
  have hkeep : ∀ i j k, Points L s i j → Points L s j k → Points L (giveBack L s) j k := by
    intro i j k ⟨p, _, hj⟩ ⟨q, howner, hk⟩
    refine ⟨q, howner, ?_⟩
    rw [giveBack_cons hrest]
    by_cases hone : s.count d = 1
    · rw [if_pos hone]
      refine clear_eq_some.mpr ⟨fun hmem => ?_, hk⟩
      obtain rfl : j = d := Option.some.inj (howner.symm.trans (L.mem_members.mp hmem))
      have hheld : 1 ≤ (holders s.target j).encard :=
        Set.one_le_encard_iff_nonempty.mpr ⟨p, hj⟩
      have hcounts := hs.counts j
      have hpending : 1 ≤ s.pending.count j := List.count_pos_iff.mpr (by simp [hrest])
      have htwo : ((1 + 1 : ℕ) : ℕ∞) ≤ (s.count j : ℕ) := by
        rw [← hcounts, Nat.cast_add, Nat.cast_one]
        exact add_le_add hheld (by exact_mod_cast hpending)
      have hle : 1 + 1 ≤ s.count j := by exact_mod_cast htwo
      omega
    · rw [if_neg hone]
      exact hk
  obtain ⟨i, _, hled⟩ := Relation.TransGen.tail'_iff.mp hc
  exact transGen_of_led hkeep hled hc

/-- Giving back closes no cycle, and breaks none. -/
theorem acyclic_giveBack_iff (hs : Counted L s) (hp : s.pending ≠ []) :
    Acyclic L (giveBack L s) ↔ Acyclic L s := by
  constructor
  · exact fun hac h hc => hac h (onCycle_giveBack hs hp hc)
  · exact fun hac => hac.giveBack hp

/-- What holds nothing gets nothing. -/
theorem giveBack_target_none (hp : s.pending ≠ []) (hnone : s.target p = none) :
    (giveBack L s).target p = none := by
  obtain ⟨h, rest, hrest⟩ := List.exists_cons_of_ne_nil hp
  rw [giveBack_cons hrest]
  by_cases hone : s.count h = 1
  · rw [if_pos hone]
    show (if p ∈ L.members h then none else s.target p) = none
    rw [hnone, ite_self]
  · rw [if_neg hone]
    exact hnone

theorem settled_iff {n : ℕ} (hr : (machine L).Reachable s)
    (hdone : ∀ p, L.owner p = none → s.target p = none)
    (hn : (machine L).Legal s (List.replicate n .giveBack))
    (hrest : ((machine L).after s (List.replicate n .giveBack)).pending = []) :
    ((machine L).after s (List.replicate n .giveBack)).live = [] ↔ Acyclic L s := by
  induction n generalizing s with
  | zero => exact live_eq_nil_iff hr hrest hdone
  | succ n ih =>
      have hp : s.pending ≠ [] := hn.1
      have hdone' : ∀ p, L.owner p = none → (giveBack L s).target p = none :=
        fun p howner => giveBack_target_none hp (hdone p howner)
      rw [← acyclic_giveBack_iff (reachable_counted hr) hp]
      exact ih (hr.next hn.1) hdone' hn.2 hrest

/-- **What is left at the end.**  When the program is done with its variables, what is to be
given back is given back, and nothing is left exactly where there is no cycle. -/
theorem exists_end (hr : (machine L).Reachable s)
    (hdone : ∀ p, L.owner p = none → s.target p = none) : ∃ n,
      (machine L).Legal s (List.replicate n .giveBack) ∧
      ((machine L).after s (List.replicate n .giveBack)).pending = [] ∧
      (((machine L).after s (List.replicate n .giveBack)).live = [] ↔ Acyclic L s) := by
  obtain ⟨n, hn, hrest⟩ := exists_settled (reachable_counted hr)
  exact ⟨n, hn, hrest, settled_iff hr hdone hn hrest⟩

end RefCount

end LinuxSystems
