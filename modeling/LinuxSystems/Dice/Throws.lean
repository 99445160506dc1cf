/-
How many requests the client sends.

The client means to pass over a number of throws that is not between 1 and 256.  Its test asks
for a number that is both too small and too large, which none is, and so it never does.  The
loop asks for as many throws as were typed: none for a number below 1, which the test was not
needed for, and all of them for a number above 256.

The requests and the stop message are read off the run.  A client whose calls all return,
whatever its receives return, comes to its end with all of them sent; one whose `socket` or
`sendto` fails stops somewhere before.
-/
import LinuxSystems.Dice.Peer
import LinuxSystems.Machine.Endless
import LinuxSystems.Machine.Simulation

namespace LinuxSystems.Dice.Lone

variable {x : Int} {s : Lone} {a : Action} {tr : List Action} {ok ok' : Prop}
  {msgs : List (List UInt8)} {c : Client}

/-! ### The two processes and the client alone -/

/-- The steps of the client. -/
def ofDice : Dice.Action → Option Action
  | .input => some .input
  | .clientSocket => some .socket
  | .test => some .test
  | .request => some .request
  | .clientReceive d => some (.receive d)
  | .stop => some .stop
  | .clientClose => some .close
  | .serverSocket | .bind | .serverReceive _ | .roll _ | .reply _ | .serverClose | .lose _ => none

/-- **What the client does beside a server it does alone.** -/
theorem simulated (network : Network) (hosts : Hosts) (x : Int) :
    Machine.Simulates (Dice.machine network hosts x) (machine x) ofDice
      fun s t => t.client = s.client := by
  refine ⟨rfl, ?_, ?_⟩
  · intro s t a b hab hst ha
    cases a with
    | input | clientSocket | test | request | stop | clientClose =>
        obtain rfl := Option.some.inj hab
        exact ⟨(congrArg Client.site hst).trans ha, by simp only [machine, step, hst]; rfl⟩
    | clientReceive d =>
        obtain rfl := Option.some.inj hab
        exact ⟨(congrArg Client.site hst).trans ha.1, by simp only [machine, step, hst]; rfl⟩
    | serverSocket | bind | serverReceive d | roll rand | reply v | serverClose | lose d =>
        cases hab
  · intro s t a hab hst ha
    cases a with
    | serverSocket | bind | serverReceive d | roll rand | reply v | serverClose | lose d =>
        exact hst
    | input | clientSocket | test | request | clientReceive d | stop | clientClose =>
        cases hab

/-! ### What a run has sent -/

def Action.message : Action → Option (List UInt8)
  | .request => some Dice.request
  | .stop => some Dice.stop
  | .input | .socket | .test | .receive _ | .close | .fail => none

def messages (tr : List Action) : List (List UInt8) := tr.filterMap Action.message

/-- `n` requests, and the stop message. -/
def throws (n : Nat) : List (List UInt8) := List.replicate n Dice.request ++ [Dice.stop]

/-- No call fails but a receive. -/
def Returns (s : Lone) : Action → Prop
  | .fail => s.client.site = .receive
  | .input | .socket | .test | .request | .receive _ | .stop | .close => True

/-- How far the client has come with the `x` throws, and what it has sent for them; `ok` says
that nothing but receives has failed. -/
def Progress (x : Int) (msgs : List (List UInt8)) (ok : Prop) (c : Client) : Prop :=
  match c.site with
  | .input => c.i = 0 ∧ msgs = []
  | .socket => c.i = 0 ∧ c.diceRolls = x ∧ msgs = []
  | .loop => 1 ≤ c.i ∧ c.i ≤ x.toNat + 1 ∧ c.diceRolls = x ∧
      msgs = List.replicate (c.i - 1).toNat Dice.request
  | .request => 1 ≤ c.i ∧ c.i ≤ x ∧ c.diceRolls = x ∧
      msgs = List.replicate (c.i - 1).toNat Dice.request
  | .receive => 1 ≤ c.i ∧ c.i ≤ x ∧ c.diceRolls = x ∧
      msgs = List.replicate c.i.toNat Dice.request
  | .stop => c.i ≤ x.toNat + 1 ∧ msgs = List.replicate x.toNat Dice.request
  | .close | .exited => c.i ≤ x.toNat + 1 ∧ msgs <+: throws x.toNat ∧ (ok → msgs = throws x.toNat)

theorem Progress.index (h : Progress x msgs ok c) : c.i ≤ x.toNat + 1 := by
  unfold Progress at h
  cases hat : c.site <;> simp only [hat] at h <;> omega

/-- Fewer requests are a beginning of what is sent in all. -/
theorem replicate_prefix {n k : Nat} (h : n ≤ k) :
    List.replicate n Dice.request <+: throws k := by
  obtain ⟨rest, rfl⟩ := Nat.exists_eq_add_of_le h
  refine ⟨List.replicate rest Dice.request ++ [Dice.stop], ?_⟩
  rw [throws, List.replicate_add, List.append_assoc]

/-- What has been sent is a beginning of it. -/
theorem Progress.sent (h : Progress x msgs ok c) : msgs <+: throws x.toNat := by
  unfold Progress at h
  split at h
  · exact h.2 ▸ List.nil_prefix
  · exact h.2.2 ▸ List.nil_prefix
  · exact h.2.2.2 ▸ replicate_prefix (by omega)
  · exact h.2.2.2 ▸ replicate_prefix (by omega)
  · exact h.2.2.2 ▸ replicate_prefix (by omega)
  · exact h.2 ▸ replicate_prefix le_rfl
  · exact h.2.1
  · exact h.2.1

/-- A client that has come to its end before it was through. -/
theorem Progress.stopped (h : Progress x msgs ok c) {c' : Client} (hi : c'.i = c.i)
    (hsite : c'.site = .close ∨ c'.site = .exited) (hok : ¬ ok') : Progress x msgs ok' c' := by
  have hindex : c'.i ≤ x.toNat + 1 := hi ▸ h.index
  rcases hsite with hsite | hsite
  · simp only [Progress, hsite]
    exact ⟨hindex, h.sent, fun hok' => absurd hok' hok⟩
  · simp only [Progress, hsite]
    exact ⟨hindex, h.sent, fun hok' => absurd hok' hok⟩

theorem input_rolls (x : Int) (c : Client) : (c.input x).diceRolls = x := by
  show (if x ≤ 0 ∧ x > 256 then 0 else x) = x
  rw [if_neg (by omega)]

/-- **What a step does to it.** -/
theorem Progress.step (h : Progress x msgs ok s.client) (ha : enabled s a)
    (hok : ok' → ok ∧ Returns s a) :
    Progress x (msgs ++ a.message.toList) ok' (s.step x a).client := by
  cases a with
  | input =>
      simp only [Progress, show s.client.site = .input from ha] at h
      obtain ⟨hi, hmsgs⟩ := h
      exact ⟨hi, input_rolls x s.client, by rw [hmsgs]; rfl⟩
  | socket =>
      simp only [Progress, show s.client.site = .socket from ha] at h
      obtain ⟨-, hrolls, hmsgs⟩ := h
      exact ⟨le_rfl, by show (1 : Int) ≤ _; omega, hrolls, by rw [hmsgs]; rfl⟩
  | test =>
      simp only [Progress, show s.client.site = .loop from ha] at h
      obtain ⟨hpos, hle, hrolls, hmsgs⟩ := h
      rw [show Action.message .test = none from rfl, Option.toList_none, List.append_nil]
      by_cases hmore : s.client.i ≤ s.client.diceRolls
      · have hsite : s.client.test.site = .request := if_pos hmore
        simp only [Progress, Lone.step, hsite]
        exact ⟨hpos, hrolls ▸ hmore, hrolls, hmsgs⟩
      · have hsite : s.client.test.site = .stop := if_neg hmore
        have hlast : (s.client.i - 1).toNat = x.toNat := by omega
        simp only [Progress, Lone.step, hsite]
        exact ⟨hle, hlast ▸ hmsgs⟩
  | request =>
      simp only [Progress, show s.client.site = .request from ha] at h
      obtain ⟨hpos, hle, hrolls, hmsgs⟩ := h
      refine ⟨hpos, hle, hrolls, ?_⟩
      show msgs ++ [Dice.request] = List.replicate s.client.i.toNat Dice.request
      have hnext : s.client.i.toNat = (s.client.i - 1).toNat + 1 := by omega
      rw [hnext, List.replicate_succ', hmsgs]
  | receive d =>
      simp only [Progress, show s.client.site = .receive from ha] at h
      obtain ⟨hpos, hle, hrolls, hmsgs⟩ := h
      obtain ⟨hsite, hi, hrolls', -⟩ := received_rest d s.client
      simp only [Progress, Lone.step, hsite, hi, hrolls', Action.message, Option.toList_none,
        List.append_nil]
      exact ⟨by omega, by omega, hrolls, by rw [hmsgs, Int.add_sub_cancel]⟩
  | stop =>
      simp only [Progress, show s.client.site = .stop from ha] at h
      obtain ⟨hle, hmsgs⟩ := h
      have hall : msgs ++ [Dice.stop] = throws x.toNat := by rw [hmsgs, throws]
      exact ⟨hle, hall ▸ List.prefix_rfl, fun _ => hall⟩
  | close =>
      simp only [Progress, show s.client.site = .close from ha] at h
      obtain ⟨hle, hsent, hall⟩ := h
      rw [show Action.message .close = none from rfl, Option.toList_none, List.append_nil]
      exact ⟨hle, hsent, fun h => hall (hok h).1⟩
  | fail =>
      rw [show Action.message .fail = none from rfl, Option.toList_none, List.append_nil]
      have hnot : s.client.site ≠ .receive → ¬ ok' := fun hat h => hat (hok h).2
      cases hat : s.client.site with
      | receive =>
          simp only [Progress, hat] at h
          obtain ⟨hpos, hle, hrolls, hmsgs⟩ := h
          simp only [Progress, Lone.step, Client.failed, hat]
          exact ⟨by omega, by omega, hrolls, by rw [hmsgs, Int.add_sub_cancel]⟩
      | socket | request | stop | close =>
          rw [hat] at hnot
          refine h.stopped ?_ ?_ (hnot (by decide))
          · simp only [Lone.step, Client.failed, hat]
          · simp [Lone.step, Client.failed, hat]
      | input | loop | exited =>
          simp only [enabled, hat, reduceCtorEq, or_self] at ha

/-- **What a run has sent.** -/
theorem progress (hl : (machine x).Legal (machine x).init tr) :
    Progress x (messages tr) (((machine x).restrict Returns).Legal (machine x).init tr)
      ((machine x).after (machine x).init tr).client := by
  have hstart : ∀ ok, Progress x [] ok Client.start := fun _ => ⟨rfl, rfl⟩
  refine Machine.run_invariant (m := machine x) (P := fun tr s => Progress x (messages tr)
    (((machine x).restrict Returns).Legal (machine x).init tr) s.client) (hstart _) ?_ hl
  intro tr a _ h ha
  rw [messages, Machine.filterMap_snoc]
  refine h.step ha fun hok => ?_
  obtain ⟨hok', -, hreturns⟩ := Machine.legal_snoc.mp hok
  exact ⟨hok', hreturns⟩

theorem index_le (h : (machine x).Reachable s) : s.client.i ≤ x.toNat + 1 := by
  obtain ⟨tr, hl, rfl⟩ := h
  exact (progress hl).index

/-! ### The end of a run -/

/-- The steps that the client has left at most. -/
def left (x : Int) (c : Client) : Nat :=
  match c.site with
  | .input => 3 * x.toNat + 5
  | .socket => 3 * x.toNat + 4
  | .loop => 3 * (x.toNat + 1 - c.i).toNat + 3
  | .request => 3 * (x.toNat + 1 - c.i).toNat + 2
  | .receive => 3 * (x.toNat + 1 - c.i).toNat + 1
  | .stop => 2
  | .close => 1
  | .exited => 0

theorem left_step (h : Progress x msgs ok s.client) (ha : enabled s a) :
    left x (s.step x a).client < left x s.client := by
  cases a with
  | input =>
      simp only [left, show s.client.site = .input from ha]
      exact Nat.lt_succ_self _
  | socket =>
      simp only [left, show s.client.site = .socket from ha]
      show 3 * ((x.toNat : Int) + 1 - 1).toNat + 3 < 3 * x.toNat + 4
      omega
  | test =>
      have hi : s.client.test.i = s.client.i := rfl
      rcases test_site s.client with hsite | hsite
      · simp only [left, Lone.step, hsite, hi, show s.client.site = .loop from ha]
        omega
      · simp only [left, Lone.step, hsite, show s.client.site = .loop from ha]
        omega
  | request =>
      simp only [left, show s.client.site = .request from ha]
      exact Nat.lt_succ_self _
  | receive d =>
      have hat : s.client.site = .receive := ha
      obtain ⟨hsite, hi, -⟩ := received_rest d s.client
      simp only [Progress, hat] at h
      simp only [left, Lone.step, hsite, hi, hat]
      omega
  | stop =>
      simp only [left, show s.client.site = .stop from ha]
      exact Nat.lt_succ_self _
  | close =>
      simp only [left, show s.client.site = .close from ha]
      exact Nat.lt_succ_self _
  | fail =>
      cases hat : s.client.site with
      | receive =>
          simp only [Progress, hat] at h
          simp only [left, Lone.step, Client.failed, hat]
          omega
      | socket | request | stop | close =>
          simp only [left, Lone.step, Client.failed, hat]
          omega
      | input | loop | exited =>
          simp only [enabled, hat, reduceCtorEq, or_self] at ha

theorem descends (x : Int) :
    (machine x).Descends (InvImage (· < ·) fun s => left x s.client) := by
  rintro s a ⟨tr, hl, rfl⟩ ha
  exact left_step (progress hl) ha

/-- Whatever its calls return, the client goes on until it has exited. -/
theorem exited_of_stuck (h : (machine x).Stuck s) : s.client.site = .exited := by
  cases hat : s.client.site with
  | input => exact absurd hat (h .input)
  | socket => exact absurd hat (h .socket)
  | loop => exact absurd hat (h .test)
  | request => exact absurd hat (h .request)
  | receive => exact absurd (Or.inr (Or.inr (Or.inl hat))) (h .fail)
  | stop => exact absurd hat (h .stop)
  | close => exact absurd hat (h .close)
  | exited => rfl

/-- The same where no call fails but a receive. -/
theorem exited_of_returns (h : ∀ a, (machine x).enabled s a → ¬ Returns s a) :
    s.client.site = .exited := by
  cases hat : s.client.site with
  | input => exact absurd trivial (h .input hat)
  | socket => exact absurd trivial (h .socket hat)
  | loop => exact absurd trivial (h .test hat)
  | request => exact absurd trivial (h .request hat)
  | receive => exact absurd hat (h .fail (Or.inr (Or.inr (Or.inl hat))))
  | stop => exact absurd trivial (h .stop hat)
  | close => exact absurd trivial (h .close hat)
  | exited => rfl

/-- A client whose calls return has sent `x` requests in the end, and the stop message. -/
theorem messages_of_exited (hl : ((machine x).restrict Returns).Legal (machine x).init tr)
    (hend : ((machine x).after (machine x).init tr).client.site = .exited) :
    messages tr = throws x.toNat := by
  have h := progress (Machine.restrict_legal hl)
  simp only [Progress, hend] at h
  exact h.2.2 hl

/-- A run of it comes to the end. -/
theorem exists_exited (x : Int) : ∃ tr, ((machine x).restrict Returns).Legal (machine x).init tr ∧
    ((machine x).after (machine x).init tr).client.site = .exited := by
  obtain ⟨tr, hl, hend⟩ := (descends x).exists_rest (InvImage.wf _ Nat.lt_wfRel.wf) Returns
    Machine.Reachable.init
  exact ⟨tr, hl, exited_of_returns hend⟩

/-! ### What bounds the requests -/

/-- The requests that a number of throws should lead to. -/
def asked (x : Int) : Nat := if 1 ≤ x ∧ x ≤ 256 then x.toNat else 0

/-- The client sends a bounded number of requests and then the stop message. -/
structure Bounded (x : Int) : Prop where
  /-- Its index is an `int`. -/
  index : ∀ s, (machine x).Reachable s → s.client.i ≤ 2 ^ 31 - 1
  /-- It comes to an end, whatever its receives return. -/
  ends : (∀ run, ¬ (machine x).Endless run) ∧
    ∀ s, (machine x).Reachable s → (machine x).Stuck s → s.client.site = .exited
  /-- It has sent all of them in the end, where no other call fails. -/
  sends : ∀ tr, ((machine x).restrict Returns).Legal (machine x).init tr →
    ((machine x).after (machine x).init tr).client.site = .exited → messages tr = throws (asked x)
  /-- It never sends anything else. -/
  only : ∀ tr, (machine x).Legal (machine x).init tr → messages tr <+: throws (asked x)

theorem asked_eq (h : x ≤ 256) : asked x = x.toNat := by
  unfold asked
  split <;> omega

theorem not_bounded (h : 256 < x) : ¬ Bounded x := by
  intro hb
  obtain ⟨tr, hl, hend⟩ := exists_exited x
  have hsent := hb.sends tr hl hend
  rw [messages_of_exited hl hend] at hsent
  have hlength := congrArg List.length hsent
  have hasked : asked x = 0 := if_neg (by omega)
  simp only [throws, hasked, List.length_append, List.length_replicate] at hlength
  omega

/--
**What bounds the requests.**  For every 32-bit number that is read, the client sends that many
requests if the number is from 1 to 256 and none otherwise, and then the stop message, exactly
when the number is not over 256.
-/
theorem throws_bounded (x : BitVec 32) : Bounded x.toInt ↔ x.toInt ≤ 256 := by
  constructor
  · intro hb
    by_contra h
    exact not_bounded (by omega) hb
  · intro h
    refine ⟨fun s hs => ?_, ⟨fun run => ?_, fun s _ => exited_of_stuck⟩, fun tr hl hend => ?_,
      fun tr hl => ?_⟩
    · have hi := index_le hs
      omega
    · exact (descends x.toInt).not_endless (InvImage.wf _ Nat.lt_wfRel.wf)
    · rw [asked_eq h]
      exact messages_of_exited hl hend
    · rw [asked_eq h]
      exact (progress hl).sent

/-- One more than the client asks for. -/
theorem throws_unbounded : ¬ Bounded (BitVec.toInt 257#32) := not_bounded (by decide)

end LinuxSystems.Dice.Lone
