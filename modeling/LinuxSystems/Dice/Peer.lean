/-
Whom the client talks to.

The record the client sends to is also the one in which `recvfrom` reports a sender,
and `recvfrom` writes as many bytes of it as `len` says.  `len` starts at zero and
every receive sets it to the full size.  So the first datagram leaves the record as it
is, whoever sent it, and each later one makes its sender the client's new server.

Here the client is alone with the network: a receive may take any datagram of any
sender, and any of its calls may fail.  `sent` are the addresses it has sent to.
-/
import LinuxSystems.Dice.Exchange
import LinuxSystems.Machine.Names

namespace LinuxSystems

namespace Dice

/-- The call the client is at fails.  A failed receive prints nothing, a failed stop message is
passed over, and the others throw. -/
def Client.failed (c : Client) : Client :=
  match c.site with
  | .receive => { c with i := c.i + 1, site := .loop }
  | .stop => { c with site := .close }
  | .socket | .request | .close => { c with site := .exited }
  | .input | .loop | .exited => c

/-- The client, and the addresses it has sent to. -/
structure Lone where
  client : Client
  sent : List Sockaddr

namespace Lone

inductive Action where
  | input
  | socket
  | test
  | request
  | receive (d : Datagram)
  | stop
  | close
  | fail

def enabled (s : Lone) : Action → Prop
  | .input => s.client.site = .input
  | .socket => s.client.site = .socket
  | .test => s.client.site = .loop
  | .request => s.client.site = .request
  | .receive _ => s.client.site = .receive
  | .stop => s.client.site = .stop
  | .close => s.client.site = .close
  | .fail => s.client.site = .socket ∨ s.client.site = .request ∨ s.client.site = .receive ∨
      s.client.site = .stop ∨ s.client.site = .close

instance (s : Lone) : ∀ a, Decidable (enabled s a)
  | .input | .socket | .test | .request | .receive _ | .stop | .close =>
      inferInstanceAs (Decidable (s.client.site = _))
  | .fail => inferInstanceAs (Decidable (_ ∨ _))

/-- `x` is what the user types. -/
def step (x : Int) (s : Lone) : Action → Lone
  | .input => { s with client := s.client.input x }
  | .socket => { s with client := s.client.openSocket }
  | .test => { s with client := s.client.test }
  | .request => { client := s.client.sentRequest, sent := s.sent ++ [s.client.servaddr] }
  | .receive d => { s with client := s.client.received d }
  | .stop => { client := s.client.sentStop, sent := s.sent ++ [s.client.servaddr] }
  | .close => { s with client := s.client.close }
  | .fail => { s with client := s.client.failed }

def machine (x : Int) : Machine Lone Action where
  init := ⟨Client.start, []⟩
  enabled := enabled
  next := step x

instance (x : Int) (s : Lone) (a : Action) : Decidable ((machine x).enabled s a) :=
  inferInstanceAs (Decidable (enabled s a))

variable {x : Int} {s : Lone} {a : Action} {server : Sockaddr → Prop}

/-! ### What the record holds -/

/-- What is known of the record in every state. -/
structure Addressed (s : Lone) : Prop where
  len : s.client.len = 0 ∨ s.client.len = Sockaddr.size
  /-- A client that waits for a result has sent to the record. -/
  asked : s.client.site = .receive → s.client.servaddr ∈ s.sent

theorem test_site (c : Client) : c.test.site = .request ∨ c.test.site = .stop := by
  unfold Client.test
  dsimp only
  split
  · exact Or.inl rfl
  · exact Or.inr rfl

theorem failed_site (c : Client) : c.failed.site ≠ .receive := by
  unfold Client.failed
  cases hc : c.site <;> simp [hc]

theorem failed_rest (c : Client) : c.failed.len = c.len ∧ c.failed.servaddr = c.servaddr := by
  unfold Client.failed
  cases c.site <;> exact ⟨rfl, rfl⟩

theorem Addressed.step (h : Addressed s) : Addressed (s.step x a) := by
  cases a with
  | input => exact ⟨h.len, fun hat => nomatch hat⟩
  | socket => exact ⟨Or.inl rfl, fun hat => nomatch hat⟩
  | test =>
      refine ⟨h.len, fun hat => ?_⟩
      have hat' : s.client.test.site = .receive := hat
      rcases test_site s.client with ht | ht <;> simp [ht] at hat'
  | request => exact ⟨h.len, fun _ => by simp [Lone.step, Client.sentRequest]⟩
  | receive d =>
      obtain ⟨hsite, -, -, hlen, -⟩ := received_rest d s.client
      refine ⟨Or.inr hlen, fun hat => ?_⟩
      have hat' : (s.client.received d).site = .receive := hat
      simp [hsite] at hat'
  | stop => exact ⟨h.len, fun hat => nomatch hat⟩
  | close => exact ⟨h.len, fun hat => nomatch hat⟩
  | fail =>
      obtain ⟨hlen, -⟩ := failed_rest s.client
      have hlen' : (s.step x .fail).client.len = s.client.len := hlen
      refine ⟨?_, fun hat => absurd hat (failed_site s.client)⟩
      rw [hlen']
      exact h.len

theorem addressed (h : (machine x).Reachable s) : Addressed s :=
  h.invariant (P := Addressed) ⟨Or.inl rfl, by simp [machine, Client.start]⟩
    fun _ _ _ hs _ => hs.step

/-! ### Who is trusted -/

/-- The address the client starts with, or one of the server's socket. -/
def IsServer (server : Sockaddr → Prop) (a : Sockaddr) : Prop := a = Sockaddr.any port ∨ server a

/-- Every datagram but the first one received comes from the server. -/
def Trusts (server : Sockaddr → Prop) (s : Lone) : Action → Prop
  | .receive d => s.client.len = 0 ∨ IsServer server d.src
  | _ => True

instance [DecidablePred server] (a : Sockaddr) : Decidable (IsServer server a) :=
  inferInstanceAs (Decidable (_ ∨ _))

instance [DecidablePred server] (s : Lone) : ∀ a, Decidable (Trusts server s a)
  | .receive d => inferInstanceAs (Decidable (_ ∨ IsServer server d.src))
  | .input | .socket | .test | .request | .stop | .close | .fail => isTrue trivial

/-- The client has sent to the server only, and will send to it next. -/
def OnlyServer (server : Sockaddr → Prop) (s : Lone) : Prop :=
  (∀ a ∈ s.sent, IsServer server a) ∧ IsServer server s.client.servaddr

/-- What is sent goes where the record says, so it adds nothing to ask of it. -/
theorem onlyServer_sent (s : Lone) (c : Client) (hc : c.servaddr = s.client.servaddr) :
    OnlyServer server { client := c, sent := s.sent ++ [s.client.servaddr] } ↔
      OnlyServer server s := by
  simp only [OnlyServer, hc, List.mem_append, List.mem_singleton]
  constructor
  · rintro ⟨hsent, haddr⟩
    exact ⟨fun a ha => hsent a (Or.inl ha), haddr⟩
  · rintro ⟨hsent, haddr⟩
    refine ⟨fun a ha => ?_, haddr⟩
    rcases ha with ha | rfl
    · exact hsent a ha
    · exact haddr

/-- A step keeps the client with the server exactly when it trusts nobody else. -/
theorem onlyServer_step (h : Addressed s) (ha : enabled s a) :
    OnlyServer server (s.step x a) ↔ OnlyServer server s ∧ Trusts server s a := by
  cases a with
  | input | socket | test | close => exact (and_iff_left trivial).symm
  | request =>
      rw [show Trusts server s .request = True from rfl, and_true]
      exact onlyServer_sent s s.client.sentRequest rfl
  | stop =>
      rw [show Trusts server s .stop = True from rfl, and_true]
      exact onlyServer_sent s s.client.sentStop rfl
  | fail =>
      have haddr : (s.step x .fail).client.servaddr = s.client.servaddr :=
        (failed_rest s.client).2
      rw [show Trusts server s .fail = True from rfl, and_true]
      simp only [OnlyServer, haddr]
      exact Iff.rfl
  | receive d =>
      obtain ⟨-, -, -, -, haddr⟩ := received_rest d s.client
      have haddr' : (s.step x (.receive d)).client.servaddr =
          Sockaddr.report s.client.len d.src s.client.servaddr := haddr
      have hsent : (s.step x (.receive d)).sent = s.sent := rfl
      simp only [OnlyServer, Trusts, haddr', hsent]
      rcases h.len with hl | hl
      · simp [hl, Sockaddr.report_zero]
      · rw [hl, Sockaddr.report_size]
        constructor
        · rintro ⟨hall, hsrc⟩
          exact ⟨⟨hall, hall _ (h.asked ha)⟩, Or.inr hsrc⟩
        · rintro ⟨⟨hall, -⟩, hsrc⟩
          refine ⟨hall, hsrc.resolve_left ?_⟩
          simp [Sockaddr.size]

/-- A run has kept to the server, and goes on to, exactly when it trusted nobody else. -/
theorem trusts_iff {tr : List Action} (hl : (machine x).Legal (machine x).init tr) :
    ((machine x).restrict (Trusts server)).Legal (machine x).init tr ↔
      OnlyServer server ((machine x).after (machine x).init tr) := by
  refine Machine.restrict_legal_iff (P := OnlyServer server) ?_ ?_ hl
  · exact ⟨fun a ha => absurd ha List.not_mem_nil, Or.inl rfl⟩
  · exact fun s a hs ha => onlyServer_step (addressed hs) ha

/-! ### Where its datagrams go -/

/--
**The client talks to its server as long as only the server talks to it.**  Where every
datagram received after the first one comes from the server, every datagram sent goes to
the server; and in a run that comes to the stop message, only there.
-/
theorem client_talks_to_server (server : Sockaddr → Prop) (x : Int) (tr : List Action) :
    (((machine x).restrict (Trusts server)).Legal (machine x).init tr →
      ∀ a ∈ ((machine x).after (machine x).init tr).sent, IsServer server a) ∧
    ((machine x).Legal (machine x).init (tr ++ [.stop]) →
      (∀ a ∈ ((machine x).after (machine x).init (tr ++ [.stop])).sent, IsServer server a) →
      ((machine x).restrict (Trusts server)).Legal (machine x).init (tr ++ [.stop])) := by
  constructor
  · intro h
    exact ((trusts_iff (Machine.restrict_legal h)).mp h).1
  · intro hl hsent
    refine (trusts_iff hl).mpr ⟨hsent, hsent _ ?_⟩
    -- the stop message went to what the record holds
    rw [Machine.after_snoc]
    simp [machine, step, Client.sentStop]

attribute [local instance] neZeroSixteen

/-- The server's socket as `recvfrom` reports it to a client on the same host. -/
def loopback : Sockaddr := fun i => if i = 4 then 127 else if i = 7 then 1 else Sockaddr.any port i

/-- A socket of another program. -/
def stranger : Sockaddr := Sockaddr.any 9999

/-- Two throws, the second one answered by `src`. -/
def twoThrows (src : Sockaddr) : List Action :=
  [.input, .socket, .test, .request, .receive ⟨loopback, localhost.client, Buffer.ofNat 3⟩, .test,
    .request, .receive ⟨src, localhost.client, Buffer.ofNat 6⟩, .test]

/-- Both throws answered by the server. -/
theorem client_talks_to_server_two :
    (∀ a ∈ ((machine 2).after (machine 2).init (twoThrows loopback ++ [.stop])).sent,
        IsServer (· = loopback) a) ∧
      ((machine 2).restrict (Trusts (· = loopback))).Legal (machine 2).init
        (twoThrows loopback ++ [.stop]) := by
  have hsent := (client_talks_to_server (· = loopback) 2 (twoThrows loopback ++ [.stop])).1
    (by decide +kernel)
  exact ⟨hsent, (client_talks_to_server (· = loopback) 2 (twoThrows loopback)).2
    (by decide +kernel) hsent⟩

/-- The second throw is answered by a stranger, who then gets the stop message. -/
theorem client_talks_to_stranger :
    ¬ ∀ (x : Int) (tr : List Action), (machine x).Legal (machine x).init tr →
      ∀ a ∈ ((machine x).after (machine x).init tr).sent, IsServer (· = loopback) a := by
  intro hall
  have hl : (machine 2).Legal (machine 2).init (twoThrows stranger ++ [.stop]) := by decide +kernel
  have hsent : stranger ∈ ((machine 2).after (machine 2).init
      (twoThrows stranger ++ [.stop])).sent := by decide +kernel
  have hserver := hall 2 _ hl stranger hsent
  revert hserver
  decide

end Lone

end Dice

end LinuxSystems
