/-
How the TCP clients and their server come to an end.

Every client goes through its calls once, and makes the server go through one round; so only
calls of `accept` that fail can go on for ever.  Nobody waits for ever either: the server
waits for the request of a client that has yet to send it or to close, and a client for a
server that comes to it in its turn.  Where nothing goes wrong each client has its response.
-/
import LinuxSystems.Tcp.Rounds
import LinuxSystems.Machine.Endless
import LinuxSystems.Machine.Tally

namespace LinuxSystems.TcpExample

open Tcp

variable {ι : Type*} [DecidableEq ι] {serverPid : Nat} {pid : ι → Nat} {s s' : TcpExample ι}
  {a : Action ι} {t u : ι} {ok : Bool} {r : Received}

/-! ### What is left to do -/

def clientLeft : ClientSite → Nat
  | .connect => 4
  | .send => 3
  | .recv => 2
  | .close => 1
  | .done | .refused | .threw => 0

/-- A step of the server counts for the pieces that it brings. -/
def serverLeft : ServerSite ι → Nat
  | .recv _ => 12
  | .send _ => 5
  | .close _ => 3
  | .accept | .throwing => 1
  | .exited | .threw => 0

/-- An answer that can still be lost. -/
def answerLeft (l : List UInt8) : Nat := if l = [] then 0 else 1

section Left

variable [Fintype ι]

/-- What the clients, the round of the server and the rounds to come have left. -/
def left (s : TcpExample ι) : Nat :=
  tally clientLeft s.client + tally answerLeft s.answer +
    (serverLeft s.server + s.pending.length) + 14 * (Fintype.card ι - s.accepted.length)

/-- A client goes on. -/
theorem left_client {x : ClientSite} (hclient : s'.client = Function.update s.client t x)
    (hframe : ServerSame s s') (hx : clientLeft x < clientLeft (s.client t)) :
    s'.left < s.left := by
  have htally := tally_update clientLeft s.client t x
  unfold left
  rw [hclient, hframe.answer, hframe.server, hframe.pending, hframe.accepted]
  omega

omit [DecidableEq ι] in
/-- The server goes on in its round. -/
theorem left_server (hclient : s'.client = s.client) (hanswer : s'.answer = s.answer)
    (haccepted : s'.accepted = s.accepted)
    (hless : serverLeft s'.server + s'.pending.length < serverLeft s.server + s.pending.length) :
    s'.left < s.left := by
  unfold left
  rw [hclient, hanswer, haccepted]
  omega

omit [DecidableEq ι] in
/-- Somebody who is in the queue is not accepted yet. -/
theorem Queued.accepted_lt (h : Queued s) (hat : s.backlog ≠ []) :
    s.accepted.length < Fintype.card ι := by
  have hcard := h.nodup.length_le_card
  have hpos := List.length_pos_iff.mpr hat
  rw [List.length_append] at hcard
  omega

theorem left_accept (h : Queued s) (ha : s.enabled (.accept t)) :
    (s.step serverPid pid (.accept t)).left < s.left := by
  have hlt := h.accepted_lt (List.ne_nil_of_mem (List.mem_of_mem_head? ha.2))
  have haccepted : (s.accepted ++ [t]).length = s.accepted.length + 1 := by simp
  show tally clientLeft s.client + tally answerLeft s.answer + (12 + 2) +
    14 * (Fintype.card ι - (s.accepted ++ [t]).length) < s.left
  unfold left
  rw [haccepted, ha.1.1, show serverLeft (.accept : ServerSite ι) = 1 from rfl]
  omega

theorem left_answer (hat : s.server = .send t) (hnil : s.pending = []) :
    (s.step serverPid pid (.answer t ok)).left < s.left := by
  cases ok with
  | false =>
      refine left_server rfl rfl rfl ?_
      rw [hat, hnil]
      show 3 + 0 < 5 + 0
      decide
  | true =>
      have htally := tally_update answerLeft s.answer t (Buffer.ofNat serverPid)
      have hone : answerLeft (Buffer.ofNat serverPid) = 1 := if_neg (Buffer.ofNat_ne_nil serverPid)
      show tally clientLeft s.client +
        tally answerLeft (Function.update s.answer t (Buffer.ofNat serverPid)) + (3 + 0) +
        14 * (Fintype.card ι - s.accepted.length) < s.left
      unfold left
      rw [hat, hnil, show serverLeft (.send t) = 5 from rfl]
      omega

theorem left_lose (hne : s.answer t ≠ []) : (s.step serverPid pid (.lose t)).left < s.left := by
  have htally := tally_update answerLeft s.answer t []
  have hone : answerLeft (s.answer t) = 1 := if_neg hne
  have hzero : answerLeft [] = 0 := rfl
  show tally clientLeft s.client + tally answerLeft (Function.update s.answer t []) +
    (serverLeft s.server + s.pending.length) + 14 * (Fintype.card ι - s.accepted.length) < s.left
  unfold left
  omega

/-- A call of `accept` that fails. -/
def isAcceptFails : Action ι → Prop
  | .acceptFails => True
  | .connect _ _ | .send _ _ | .recv _ _ | .close _ _ | .accept _ | .serve _ _ | .answer _ _
  | .closeClient _ _ | .insert | .throws | .lose _ | .interrupt => False

theorem left_step (h : Queued s) (ha : s.enabled a) (hno : ¬ isAcceptFails a) :
    (s.step serverPid pid a).left < s.left := by
  cases a with
  | connect t ok =>
      refine left_client (t := t) (x := if ok then .send else .refused) ?_
        (clientStep_frame trivial) ?_
      · cases ok <;> rfl
      · rw [ha.1]
        cases ok <;> decide
  | send t ok =>
      have hat : s.client t = .send := ha
      refine left_client (t := t) (x := if ok then .recv else .close) ?_
        (clientStep_frame trivial) ?_
      · cases ok <;> rfl
      · rw [hat]
        cases ok <;> decide
  | recv t r =>
      refine left_client (t := t) (x := .close) rfl (clientStep_frame trivial) ?_
      rw [ha.1]
      decide
  | close t ok =>
      have hat : s.client t = .close := ha
      refine left_client (t := t) (x := if ok then .done else .threw) ?_
        (clientStep_frame trivial) ?_
      · cases ok <;> rfl
      · rw [hat]
        cases ok <;> decide
  | accept t => exact left_accept h ha
  | acceptFails => exact absurd trivial hno
  | serve t r =>
      obtain ⟨⟨hat, hnil⟩, -⟩ := ha
      show (s.serveStep serverPid t r).left < s.left
      unfold serveStep
      cases (Server.serve serverPid r).printed with
      | none =>
          refine left_server rfl rfl rfl ?_
          rw [hat, hnil]
          show 3 + 1 < 12 + 0
          decide
      | some text =>
          refine left_server rfl rfl rfl ?_
          rw [hat, hnil]
          show 5 + 6 < 12 + 0
          decide
  | answer t ok => exact left_answer ha.1 ha.2
  | closeClient t ok =>
      obtain ⟨hat, hnil⟩ := ha
      cases ok with
      | true =>
          refine left_server rfl rfl rfl ?_
          rw [hat, hnil]
          show 1 + 0 < 3 + 0
          decide
      | false =>
          refine left_server rfl rfl rfl ?_
          rw [hat, hnil]
          show 1 + 1 < 3 + 0
          decide
  | insert =>
      have hpos := List.length_pos_iff.mpr ha.2
      refine left_server rfl rfl rfl ?_
      show serverLeft s.server + s.pending.tail.length < serverLeft s.server + s.pending.length
      rw [List.length_tail]
      omega
  | throws =>
      obtain ⟨hat, hnil⟩ := ha
      refine left_server rfl rfl rfl ?_
      rw [hat, hnil]
      show 0 + 0 < 1 + 0
      decide
  | lose t => exact left_lose ha.2
  | interrupt =>
      have hgoes : s.server.hasEnded = false := ha
      have hpos : 0 < serverLeft s.server := by
        cases hat : s.server <;> simp_all [ServerSite.hasEnded, serverLeft]
      refine left_server rfl rfl rfl ?_
      show 0 + s.pending.length < serverLeft s.server + s.pending.length
      omega

end Left

/-! ### Whose connection is closed -/

/-- The server is done with the client, or about to be, or at its end. -/
def IsClosed (s : TcpExample ι) (t : ι) : Prop :=
  s.closed t = true ∨ s.server = .send t ∨ s.server = .close t ∨ s.server.hasEnded = true

/-- Every round closes its connection. -/
def RoundsClosed (s : TcpExample ι) : Prop := ∀ t ∈ s.rounds.map Prod.fst, s.IsClosed t

omit [DecidableEq ι] in
/-- A server that is not in a round is done with all of them. -/
theorem RoundsClosed.closed (h : RoundsClosed s) (hat : s.server = .accept ∨ s.server = .recv u)
    (ht : t ∈ s.rounds.map Prod.fst) : s.closed t = true := by
  rcases h t ht with hclosed | hserver
  · exact hclosed
  · rcases hat with hat | hat <;> simp [hat, ServerSite.hasEnded] at hserver

omit [DecidableEq ι] in
theorem RoundsClosed.serve (h : RoundsClosed s) (hat : s.server = .recv t) :
    RoundsClosed (s.serveStep serverPid t r) := by
  intro u hu
  have hu' : u ∈ (s.rounds ++ [(t, (Server.serve serverPid r).printed)]).map Prod.fst := hu
  rw [List.map_append, List.mem_append] at hu'
  unfold serveStep
  rcases hu' with hold | hnew
  · have hclosed := h.closed (Or.inr hat) hold
    cases (Server.serve serverPid r).printed <;> exact Or.inl hclosed
  · obtain rfl : u = t := List.mem_singleton.mp hnew
    cases (Server.serve serverPid r).printed with
    | none => exact Or.inr (Or.inr (Or.inl rfl))
    | some text => exact Or.inr (Or.inl rfl)

theorem RoundsClosed.close (h : RoundsClosed s) (hat : s.server = .close t) :
    RoundsClosed (s.step serverPid pid (.closeClient t ok)) := by
  intro u hu
  have hclosed : (s.step serverPid pid (.closeClient t ok)).closed u = true := by
    show Function.update s.closed t true u = true
    by_cases hut : u = t
    · subst hut
      exact Function.update_self ..
    · rw [Function.update_of_ne hut]
      have hmem : u ∈ s.rounds.map Prod.fst := by cases ok <;> exact hu
      simpa [IsClosed, hat, Ne.symm hut, ServerSite.hasEnded] using h u hmem
  exact Or.inl hclosed

theorem RoundsClosed.step (h : RoundsClosed s) (ha : s.enabled a) :
    RoundsClosed (s.step serverPid pid a) := by
  by_cases hclient : isClient a
  · have hframe := @clientStep_frame _ _ serverPid pid s a hclient
    intro t ht
    rw [hframe.rounds] at ht
    unfold IsClosed
    rw [hframe.closed, hframe.server]
    exact h t ht
  cases a with
  | connect t ok | send t ok | recv t r | close t ok => exact absurd trivial hclient
  | accept t =>
      intro u hu
      have hclosed : s.closed u = true := h.closed (u := t) (Or.inl ha.1.1) hu
      exact Or.inl hclosed
  | acceptFails =>
      intro u hu
      have hclosed : s.closed u = true := h.closed (u := u) (Or.inl ha.1) hu
      exact Or.inl hclosed
  | serve t r => exact h.serve ha.1.1
  | insert => exact h
  | throws => exact fun u _ => Or.inr (Or.inr (Or.inr rfl))
  | answer t ok =>
      have hat : s.server = .send t := ha.1
      intro u hu
      by_cases hut : u = t
      · exact Or.inr (Or.inr (Or.inl (by rw [hut]; rfl)))
      · have hclosed : s.closed u = true := by
          simpa [IsClosed, hat, Ne.symm hut, ServerSite.hasEnded] using h u hu
        exact Or.inl hclosed
  | closeClient t ok => exact h.close ha.1
  | lose t => exact h
  | interrupt => exact fun u _ => Or.inr (Or.inr (Or.inr rfl))

theorem roundsClosed (h : (machine serverPid pid).Reachable s) : RoundsClosed s := by
  refine h.invariant (P := RoundsClosed) ?_ fun _ _ _ hs ha => hs.step ha
  exact fun _ hmem => absurd hmem List.not_mem_nil

/-! ### Where nobody can go on -/

/-- A call that does not fail. -/
def succeeds : Action ι → Prop
  | .connect _ ok | .send _ ok | .close _ ok | .answer _ ok | .closeClient _ ok => ok = true
  | .recv _ r | .serve _ r => r ≠ .failed
  | .accept _ | .insert | .throws => True
  | .acceptFails | .lose _ | .interrupt => False

instance : ∀ a : Action ι, Decidable (succeeds a)
  | .connect _ ok | .send _ ok | .close _ ok | .answer _ ok | .closeClient _ ok =>
      inferInstanceAs (Decidable (ok = true))
  | .recv _ .failed | .serve _ .failed => isFalse fun hne => hne rfl
  | .recv _ (.got _) | .serve _ (.got _) => isTrue nofun
  | .accept _ | .insert | .throws => isTrue trivial
  | .acceptFails | .lose _ | .interrupt => isFalse id

/-- Nobody can go on but by a failing call. -/
def Quiet (s : TcpExample ι) : Prop := ∀ a, s.enabled a → ¬ succeeds a

theorem got_ne_failed (bytes : List UInt8) : Received.got bytes ≠ .failed :=
  fun h => Received.noConfusion h

/-- A receive does not wait where there is something, or nothing more will be. -/
theorem takes_take {capacity : Nat} {sent : List UInt8} {ended : Bool} (hcap : 0 < capacity)
    (h : sent ≠ [] ∨ ended = true) : Takes capacity sent ended (.got (sent.take capacity)) := by
  have hnil : sent.take capacity = [] → sent = [] := by
    rw [List.take_eq_nil_iff]
    exact fun hor => hor.resolve_left (by omega)
  exact ⟨⟨List.take_prefix _ _, List.length_take_le _ _, hnil⟩,
    fun hb => h.resolve_left fun hne => hne (hnil hb)⟩

omit [DecidableEq ι] in
/-- Who was connected waits for the server or has ended. -/
theorem Quiet.client (hq : Quiet s) (t : ι) : s.client t = .connect ∨
    s.client t = .recv ∧ s.answer t = [] ∧ s.isOver t = false ∨ (s.client t).hasEnded = true := by
  cases hat : s.client t with
  | connect => exact Or.inl rfl
  | done | refused | threw => exact Or.inr (Or.inr rfl)
  | send => exact absurd rfl (hq (.send t true) hat)
  | close => exact absurd rfl (hq (.close t true) hat)
  | recv =>
      refine Or.inr (Or.inl ⟨rfl, ?_⟩)
      by_contra hno
      have hsome : s.answer t ≠ [] ∨ s.isOver t = true := by
        by_cases hnil : s.answer t = []
        · exact Or.inr (by simpa using fun hover => hno ⟨hnil, hover⟩)
        · exact Or.inl hnil
      exact hq (.recv t _) ⟨hat, takes_take (by decide) hsome⟩ (got_ne_failed _)

omit [DecidableEq ι] in
/-- What there was to be inserted is inserted, unless the server has ended before. -/
theorem Quiet.inserted (hq : Quiet s) (hgoes : s.server.hasEnded = false) : s.pending = [] := by
  by_contra hne
  exact hq .insert ⟨hgoes, hne⟩ trivial

/-- The server does not wait for a request. -/
theorem Quiet.not_recv (hq : Quiet s) (hr : (machine serverPid pid).Reachable s) (t : ι) :
    s.server ≠ .recv t := by
  intro hat
  obtain ⟨pend, hserved⟩ := served hr
  have hturn := hserved.turn
  rw [hat] at hturn
  obtain rfl : pend = [t] := hturn
  have hconnected : (s.client t).isConnected = true := by
    rw [← (queued hr).connected, hserved.accepted]
    simp
  have hsome : s.request t ≠ [] ∨ (s.client t).hasClosed = true := by
    rcases hq.client t with hconnect | ⟨hrecv, -⟩ | hended
    · rw [hconnect] at hconnected
      cases hconnected
    · rw [(heard hr).sent t hrecv]
      exact Or.inl (Buffer.ofNat_ne_nil _)
    · right
      cases hsite : s.client t <;>
        simp_all [ClientSite.hasEnded, ClientSite.isConnected, ClientSite.hasClosed]
  have hnil := hq.inserted (by rw [hat]; rfl)
  exact hq (.serve t _) ⟨⟨hat, hnil⟩, takes_take (by decide) hsome⟩ (got_ne_failed _)

theorem Quiet.server (hq : Quiet s) (hr : (machine serverPid pid).Reachable s) :
    s.server.hasEnded = true ∨ s.server = .accept ∧ s.backlog = [] := by
  cases hended : s.server.hasEnded with
  | true => exact Or.inl rfl
  | false =>
      have hnil := hq.inserted hended
      cases hat : s.server with
      | exited | threw => simp [hat, ServerSite.hasEnded] at hended
      | recv t => exact absurd hat (hq.not_recv hr t)
      | send t => exact absurd rfl (hq (.answer t true) ⟨hat, hnil⟩)
      | close t => exact absurd rfl (hq (.closeClient t true) ⟨hat, hnil⟩)
      | throwing => exact absurd trivial (hq .throws ⟨hat, hnil⟩)
      | accept =>
          refine Or.inr ⟨rfl, ?_⟩
          cases hb : s.backlog with
          | nil => rfl
          | cons t rest => exact absurd trivial (hq (.accept t) ⟨⟨hat, hnil⟩, by rw [hb]; rfl⟩)

/-- Everybody who was accepted has had a round, where the server is done with the last one. -/
theorem rounds_eq_accepted (hr : (machine serverPid pid).Reachable s) (hat : s.server = .accept) :
    s.rounds.map Prod.fst = s.accepted := by
  obtain ⟨pend, hserved⟩ := served hr
  have hturn := hserved.turn
  rw [hat] at hturn
  obtain rfl : pend = [] := hturn
  rw [hserved.accepted, List.append_nil]

/-- A server that has accepted everybody has had a round with everybody. -/
theorem mem_rounds_iff (hr : (machine serverPid pid).Reachable s) (hat : s.server = .accept)
    (hempty : s.backlog = []) :
    t ∈ s.rounds.map Prod.fst ↔ (s.client t).isConnected = true := by
  rw [rounds_eq_accepted hr hat, ← (queued hr).connected, hempty, List.append_nil]

theorem Quiet.ended (hq : Quiet s) (hr : (machine serverPid pid).Reachable s) (t : ι) :
    (s.client t).hasEnded = true ∨ s.client t = .connect ∧ s.server.hasEnded = true := by
  rcases hq.client t with hconnect | ⟨hrecv, hnil, hover⟩ | hended
  · refine Or.inr ⟨hconnect, ?_⟩
    rcases hq.server hr with hserver | ⟨hat, hempty⟩
    · exact hserver
    · refine absurd rfl (hq (.connect t true) ⟨hconnect, fun _ => ⟨by rw [hat]; rfl, ?_⟩⟩)
      rw [hempty]
      exact Nat.zero_le _
  · -- the server would have closed the connection
    rw [isOver, Bool.or_eq_false_iff] at hover
    rcases hq.server hr with hserver | ⟨hat, hempty⟩
    · rw [hserver] at hover
      exact absurd hover.2 (by decide)
    · have hround := (mem_rounds_iff hr hat hempty (t := t)).mpr (by rw [hrecv]; rfl)
      have hclosed := (roundsClosed hr).closed (u := t) (Or.inl hat) hround
      rw [hclosed] at hover
      exact absurd hover.1 (by decide)
  · exact Or.inl hended

/-! ### Where nothing goes wrong -/

/-- The client has printed a response. -/
def HasResponse (s : TcpExample ι) (t : ι) : Prop := ∃ text, .response text ∈ s.clientOutput t

/-- The server has not ended, and is not about to. -/
def goesOn : ServerSite ι → Bool
  | .accept | .recv _ | .send _ | .close _ => true
  | .throwing | .exited | .threw => false

omit [DecidableEq ι] in
theorem hasEnded_of_goesOn {x : ServerSite ι} (h : goesOn x = true) : x.hasEnded = false := by
  cases x with
  | accept | recv t | send t | close t => rfl
  | throwing | exited | threw => cases h

structure Smooth (serverPid : Nat) (s : TcpExample ι) : Prop where
  server : goesOn s.server = true
  client : ∀ t, s.client t ≠ .refused ∧ s.client t ≠ .threw
  rounds : ∀ t, (t, none) ∉ s.rounds
  answer : ∀ t, s.closed t = true ∨ s.server = .close t → s.answer t = Buffer.ofNat serverPid
  response : ∀ t, s.client t = .close ∨ s.client t = .done → s.HasResponse t

/-- A client goes on. -/
theorem Smooth.move (h : Smooth serverPid s) {x : ClientSite} (hframe : ServerSame s s')
    (hclient : s'.client = Function.update s.client t x)
    (houtput : ∀ u, s.clientOutput u ⊆ s'.clientOutput u) (hx : x ≠ .refused ∧ x ≠ .threw)
    (hresponse : x = .close ∨ x = .done → s'.HasResponse t) : Smooth serverPid s' := by
  refine ⟨by rw [hframe.server]; exact h.server, fun u => ?_, fun u => ?_, fun u => ?_, fun u => ?_⟩
  · rw [hclient]
    by_cases hut : u = t
    · rw [hut, Function.update_self]
      exact hx
    · rw [Function.update_of_ne hut]
      exact h.client u
  · rw [hframe.rounds]
    exact h.rounds u
  · rw [hframe.closed, hframe.server, hframe.answer]
    exact h.answer u
  · rw [hclient]
    by_cases hut : u = t
    · rw [hut, Function.update_self]
      exact hresponse
    · rw [Function.update_of_ne hut]
      intro hat
      obtain ⟨text, hmem⟩ := h.response u hat
      exact ⟨text, houtput u hmem⟩

theorem clientOutput_subset (s : TcpExample ι) (t : ι) (x : ClientSite) (line : ClientLine)
    (u : ι) : s.clientOutput u ⊆ (s.tell t x line).clientOutput u := by
  show s.clientOutput u ⊆ Function.update s.clientOutput t (s.clientOutput t ++ [line]) u
  by_cases hut : u = t
  · rw [hut, Function.update_self]
    exact List.subset_append_left _ _
  · rw [Function.update_of_ne hut]
    exact List.Subset.refl _

/-- A client that has closed was heard. -/
theorem Smooth.isHeard (h : Smooth serverPid s) (hr : (machine serverPid pid).Reachable s)
    (hclosed : (s.client t).hasClosed = true) : s.IsHeard t := by
  have htells := tells hr t
  have hdone : s.client t = .done := by
    have hthrew := (h.client t).2
    cases hat : s.client t <;> simp_all [ClientSite.hasClosed]
  obtain ⟨text, hmem⟩ := h.response t (Or.inr hdone)
  rw [hdone] at htells
  obtain ⟨x, hx, hout⟩ := htells
  rw [hout] at hmem
  obtain rfl : .response text = x := by simpa using hmem
  exact hx.2.2

omit [DecidableEq ι] in
/-- The server has closed only what it has answered, so the client does not come to the end. -/
theorem Smooth.received (h : Smooth serverPid s) (hanswered : Answered serverPid s)
    (ha : s.enabled (.recv t r)) (hok : r ≠ .failed) : ∃ text, received r = .response text := by
  have hprinted := Client.receive_printed (hanswered.zero_notMem t) ha.2
  unfold TcpExample.received
  cases htext : (Client.receive r).printed with
  | some text => exact ⟨text, rfl⟩
  | none =>
      rw [htext] at hprinted
      cases hprinted with
      | nothing hor =>
          obtain ⟨hnil, hover⟩ := hor.resolve_left hok
          rw [isOver, hasEnded_of_goesOn h.server, Bool.or_false] at hover
          rw [h.answer t (Or.inl hover)] at hnil
          exact absurd hnil (Buffer.ofNat_ne_nil serverPid)

/-- Nobody closes before the server has received from it. -/
theorem Smooth.printed (h : Smooth serverPid s) (hr : (machine serverPid pid).Reachable s)
    (ha : s.enabled (.serve t r)) (hok : r ≠ .failed) :
    ∃ text, (Server.serve serverPid r).printed = some text := by
  have hprinted := Server.serve_printed serverPid ((heard hr).zero_notMem t) ha.2
  cases htext : (Server.serve serverPid r).printed with
  | some text => exact ⟨text, rfl⟩
  | none =>
      rw [htext] at hprinted
      cases hprinted with
      | nothing hor =>
          obtain ⟨text, hmem⟩ := h.isHeard hr (hor.resolve_left hok).2
          obtain ⟨pend, hserved⟩ := served hr
          have hturn := hserved.turn
          rw [ha.1.1] at hturn
          obtain rfl : pend = [t] := hturn
          -- it would have had its round before
          have hnodup := (List.nodup_append.mp (queued hr).nodup).1
          rw [hserved.accepted] at hnodup
          have hround : t ∈ s.rounds.map Prod.fst := List.mem_map_of_mem hmem
          exact absurd rfl ((List.nodup_append.mp hnodup).2.2 t hround t List.mem_cons_self)

theorem Smooth.client_step (h : Smooth serverPid s) (hanswered : Answered serverPid s)
    (hclient : isClient a) (ha : s.enabled a) (hok : succeeds a) :
    Smooth serverPid (s.step serverPid pid a) := by
  have hframe := @clientStep_frame _ _ serverPid pid s a hclient
  cases a with
  | connect t ok =>
      obtain rfl : ok = true := hok
      exact h.move hframe rfl (clientOutput_subset s t .send _) (by decide) (by simp)
  | send t ok =>
      obtain rfl : ok = true := hok
      exact h.move (x := .recv) hframe rfl (fun u => List.Subset.refl _) (by decide) (by simp)
  | recv t r =>
      obtain ⟨text, htext⟩ := h.received hanswered ha hok
      refine h.move hframe rfl (clientOutput_subset s t .close _) (by decide) fun _ => ⟨text, ?_⟩
      show .response text ∈ (s.tell t .close (TcpExample.received r)).clientOutput t
      rw [clientOutput_tell, htext]
      exact List.mem_append_right _ List.mem_cons_self
  | close t ok =>
      obtain rfl : ok = true := hok
      obtain ⟨text, hmem⟩ := h.response t (Or.inl ha)
      have hsubset := clientOutput_subset s t .done .jobDone
      exact h.move hframe rfl hsubset (by decide) fun _ => ⟨text, hsubset t hmem⟩
  | accept t | acceptFails | serve t r | answer t ok | closeClient t ok | insert | throws | lose t
  | interrupt => exact hclient.elim

omit [DecidableEq ι] in
theorem Smooth.serve (h : Smooth serverPid s) {text : List UInt8}
    (hprinted : (Server.serve serverPid r).printed = some text) :
    Smooth serverPid (s.serveStep serverPid t r) := by
  unfold serveStep
  rw [hprinted]
  refine ⟨rfl, h.client, fun u hmem => ?_, fun u hu => ?_, h.response⟩
  · have hmem' : (u, none) ∈ s.rounds ++ [(t, some text)] := hmem
    rcases List.mem_append.mp hmem' with hold | hnew
    · exact h.rounds u hold
    · simp at hnew
  · have hclosed : s.closed u = true := hu.resolve_right nofun
    exact h.answer u (Or.inl hclosed)

theorem Smooth.send (h : Smooth serverPid s) :
    Smooth serverPid (s.step serverPid pid (.answer t true)) := by
  refine ⟨rfl, h.client, h.rounds, fun u hu => ?_, h.response⟩
  show Function.update s.answer t (Buffer.ofNat serverPid) u = Buffer.ofNat serverPid
  by_cases hut : u = t
  · rw [hut, Function.update_self]
  · rw [Function.update_of_ne hut]
    refine h.answer u (Or.inl (hu.resolve_right fun hclose => ?_))
    have hsite : ServerSite.close t = ServerSite.close u := hclose
    exact hut (ServerSite.close.inj hsite).symm

theorem Smooth.close (h : Smooth serverPid s) (hat : s.server = .close t) :
    Smooth serverPid (s.step serverPid pid (.closeClient t true)) := by
  refine ⟨rfl, h.client, h.rounds, fun u hu => ?_, h.response⟩
  have hclosed : Function.update s.closed t true u = true := hu.resolve_right nofun
  show s.answer u = Buffer.ofNat serverPid
  by_cases hut : u = t
  · rw [hut]
    exact h.answer t (Or.inr hat)
  · rw [Function.update_of_ne hut] at hclosed
    exact h.answer u (Or.inl hclosed)

theorem Smooth.step (h : Smooth serverPid s) (hr : (machine serverPid pid).Reachable s)
    (ha : s.enabled a) (hok : succeeds a) : Smooth serverPid (s.step serverPid pid a) := by
  by_cases hclient : isClient a
  · exact h.client_step (answered hr) hclient ha hok
  cases a with
  | connect t ok | send t ok | recv t r | close t ok => exact absurd trivial hclient
  | acceptFails | lose t | interrupt => exact hok.elim
  | accept t =>
      refine ⟨rfl, h.client, h.rounds, fun u hu => ?_, h.response⟩
      have hclosed : s.closed u = true := hu.resolve_right nofun
      exact h.answer u (Or.inl hclosed)
  | serve t r =>
      obtain ⟨text, htext⟩ := h.printed hr ha hok
      exact h.serve htext
  | answer t ok =>
      obtain rfl : ok = true := hok
      exact h.send
  | closeClient t ok =>
      obtain rfl : ok = true := hok
      exact h.close ha.1
  | insert => exact ⟨h.server, h.client, h.rounds, h.answer, h.response⟩
  | throws =>
      have hgoes := h.server
      rw [ha.1] at hgoes
      cases hgoes

attribute [local instance] neZeroTwo

/-- The server's round with a client, and the client's with it. -/
def talk (t : Fin 2) : List (Action (Fin 2)) :=
  [.accept t, .insert, .insert, .serve t (.got (Buffer.ofNat (pids t)))] ++
    List.replicate 6 .insert ++
  [.answer t true, .closeClient t true, .recv t (.got (Buffer.ofNat 5)), .close t true]

/-- Both connect, and the second one sends first. -/
def pairRun : List (Action (Fin 2)) :=
  [.connect 0 true, .connect 1 true, .send 1 true, .send 0 true] ++ talk 0 ++ talk 1

end LinuxSystems.TcpExample
