/-
When the exchange completes.

Nothing orders the child's `bind` before the parent's first `sendto`.  A datagram that
is sent before is discarded, also by a network that loses nothing, and then nobody
sends another one: the client waits for a result, or has exited, and the server waits
for a request for ever.  `Hung` is that situation.  It is the only way in which the
exchange fails to complete: a run that comes to its end has completed exactly when
every `sendto` of the client found the server's socket bound.
-/
import LinuxSystems.Dice.Exchange

namespace LinuxSystems.Dice

variable {hosts : Hosts} {n : Nat} {s : Dice} {a : Action}

/-- A `sendto` of the client is taken only while the server's socket is bound. -/
def SendsBound (s : Dice) : Action → Prop
  | .request | .stop => s.server.bound = true
  | _ => True

instance (s : Dice) : ∀ a, Decidable (SendsBound s a)
  | .request | .stop => inferInstanceAs (Decidable (s.server.bound = true))
  | .input | .clientSocket | .test | .clientReceive _ | .clientClose | .serverSocket | .bind
  | .serverReceive _ | .roll _ | .reply _ | .serverClose | .lose _ => isTrue trivial

/-- The client has sent, nothing is in flight, and the server has nothing to answer. -/
structure Hung (s : Dice) : Prop where
  client : s.client.site = .receive ∨ s.client.site.isDone
  server : s.server.site.isIdle
  net : s.net = []

def Exited (s : Dice) : Prop := s.client.site = .exited ∧ s.server.site = .exited

/-! ### Hung for good -/

namespace Hung

theorem client_ne (h : Hung s) {x : ClientSite} (hreceive : x ≠ .receive) (hdone : ¬ x.isDone) :
    s.client.site ≠ x := by
  rintro rfl
  rcases h.client with hc | hc
  · exact hreceive hc
  · exact hdone hc

theorem server_ne (h : Hung s) {x : ServerSite} (hidle : ¬ x.isIdle) : s.server.site ≠ x := by
  rintro rfl
  exact hidle h.server

theorem step (h : Hung s) (ha : enabled .reliable hosts s a) :
    Hung (Dice.step .reliable hosts n s a) := by
  cases a with
  | input => exact absurd ha (h.client_ne (by simp) id)
  | clientSocket => exact absurd ha (h.client_ne (by simp) id)
  | test => exact absurd ha (h.client_ne (by simp) id)
  | request => exact absurd ha (h.client_ne (by simp) id)
  | stop => exact absurd ha (h.client_ne (by simp) id)
  | clientReceive d => simp [enabled, h.net] at ha
  | serverReceive d => simp [enabled, h.net] at ha
  | clientClose => exact ⟨Or.inr trivial, h.server, h.net⟩
  | serverSocket => exact ⟨h.client, trivial, h.net⟩
  | bind => exact ⟨h.client, trivial, h.net⟩
  | roll rand => exact absurd ha (h.server_ne id)
  | reply v => exact absurd ha (h.server_ne id)
  | serverClose => exact absurd ha (h.server_ne id)
  | lose d => simp [enabled] at ha

theorem not_exited (h : Hung s) : ¬ Exited s := fun hx => h.server_ne id hx.2

end Hung

/-- What the client sends to a server that is not bound is discarded, and then both are hung. -/
theorem hung_of_unbound (h : Sound hosts n s) (ha : enabled .reliable hosts s a)
    (hb : ¬ SendsBound s a) : Hung (step .reliable hosts n s a) := by
  have hdiscard : s.server.bound = false → ∀ payload : List UInt8,
      s.send .reliable hosts ⟨hosts.client, s.client.servaddr, payload⟩ = s.net := by
    intro hserver payload
    refine Network.send_unbound ?_ s.net
    simp [bound, h.servaddr, hserver, hosts.client_port.symm]
  cases a with
  | request =>
      have hat : s.client.site = .request := ha
      obtain ⟨hserver, hnet, -⟩ :=
        h.exchange.idle_of (by simp [hat]) (by simp [hat, ClientSite.isDone])
      have hunbound : s.server.bound = false := by simpa [SendsBound] using hb
      exact ⟨Or.inl rfl, hserver, (hdiscard hunbound _).trans hnet⟩
  | stop =>
      have hat : s.client.site = .stop := ha
      obtain ⟨hserver, hnet, -⟩ :=
        h.exchange.idle_of (by simp [hat]) (by simp [hat, ClientSite.isDone])
      have hunbound : s.server.bound = false := by simpa [SendsBound] using hb
      exact ⟨Or.inr trivial, hserver, (hdiscard hunbound _).trans hnet⟩
  | input | clientSocket | test | clientReceive d | clientClose | serverSocket | bind
  | serverReceive d | roll rand | reply v | serverClose | lose d => exact absurd trivial hb

/-! ### Not hung while the server is bound -/

theorem not_hung_of_server {x : ServerSite} (hat : s.server.site = x) (hx : ¬ x.isIdle) :
    ¬ Hung s := fun hc => hc.server_ne hx hat

theorem not_hung_of_client {x : ClientSite} (hat : s.client.site = x) (hreceive : x ≠ .receive)
    (hdone : ¬ x.isDone) : ¬ Hung s := fun hc => hc.client_ne hreceive hdone hat

theorem not_hung_step (h : Sound hosts n s) (hn : ¬ Hung s) (ha : enabled .reliable hosts s a)
    (hb : SendsBound s a) : ¬ Hung (step .reliable hosts n s a) := by
  have hsent : s.server.bound = true → ∀ payload : List UInt8,
      s.send .reliable hosts ⟨hosts.client, s.client.servaddr, payload⟩ ≠ [] := by
    intro hserver payload
    unfold send
    rw [Network.send_bound _ (by simp [bound, h.servaddr, hserver])]
    simp
  cases a with
  | input => exact not_hung_of_client (x := .socket) rfl (by simp) id
  | clientSocket => exact not_hung_of_client (x := .loop) rfl (by simp) id
  | test =>
      intro hc
      have hsite : (s.client.test).site = .request ∨ (s.client.test).site = .stop := by
        unfold Client.test
        dsimp only
        split
        · exact Or.inl rfl
        · exact Or.inr rfl
      rcases hsite with hsite | hsite
      · exact hc.client_ne (by simp) id hsite
      · exact hc.client_ne (by simp) id hsite
  | request => exact fun hc => hsent hb _ hc.net
  | stop => exact fun hc => hsent hb _ hc.net
  | clientReceive d => exact not_hung_of_client (received_rest d s.client).1 (by simp) id
  | clientClose =>
      have hat : s.client.site = .close := ha
      refine fun hc => hn ⟨Or.inr ?_, hc.server, hc.net⟩
      rw [hat]
      trivial
  | serverSocket =>
      have hat : s.server.site = .socket := ha
      refine fun hc => hn ⟨hc.client, ?_, hc.net⟩
      rw [hat]
      trivial
  | bind =>
      have hat : s.server.site = .bind := ha
      refine fun hc => hn ⟨hc.client, ?_, hc.net⟩
      rw [hat]
      trivial
  | serverReceive d =>
      have hsite : (s.server.received d).site = .roll ∨ (s.server.received d).site = .close := by
        rw [received_site]
        split
        · exact Or.inl rfl
        · exact Or.inr rfl
      rcases hsite with hsite | hsite
      · exact not_hung_of_server hsite id
      · exact not_hung_of_server hsite id
  | roll rand => exact not_hung_of_server rfl id
  | reply v =>
      have hat : s.server.site = .reply v := ha
      intro hc
      have hnet : s.send .reliable hosts ⟨hosts.server, s.server.cliaddr, Buffer.ofNat v⟩ = [] :=
        hc.net
      obtain ⟨hclient, hcliaddr, -⟩ := h.exchange.of_reply hat
      rw [h.send_server hcliaddr hclient] at hnet
      simp at hnet
  | serverClose => exact not_hung_of_server rfl id
  | lose d => simp [enabled] at ha

/-! ### Where no step is possible -/

/-- A server that cannot move and has nothing to answer waits for a datagram. -/
theorem receive_of_idle (hstuck : ∀ a, ¬ enabled .reliable hosts s a)
    (hidle : s.server.site.isIdle) : s.server.site = .receive := by
  cases hat : s.server.site with
  | socket => exact absurd hat (hstuck .serverSocket)
  | bind => exact absurd hat (hstuck .bind)
  | receive => rfl
  | roll | reply _ | close | exited =>
      rw [hat] at hidle
      exact hidle.elim

/-- Unless they are hung, two processes that cannot move have exited. -/
theorem exited_of_stuck (h : Sound hosts n s) (hn : ¬ Hung s)
    (hstuck : ∀ a, ¬ enabled .reliable hosts s a) : Exited s := by
  have hclient : s.client.site = .receive ∨ s.client.site.isDone := by
    cases hat : s.client.site with
    | input => exact absurd hat (hstuck .input)
    | socket => exact absurd hat (hstuck .clientSocket)
    | loop => exact absurd hat (hstuck .test)
    | request => exact absurd hat (hstuck .request)
    | stop => exact absurd hat (hstuck .stop)
    | receive => exact Or.inl rfl
    | close | exited => exact Or.inr trivial
  cases h.exchange with
  | idle hserver hnet => exact absurd ⟨hclient, hserver, hnet⟩ hn
  | replyLost _ _ _ hserver hnet => exact absurd ⟨hclient, hserver, hnet⟩ hn
  | requested d _ hserver hnet _ hdst =>
      have hat := receive_of_idle hstuck hserver
      exact absurd ⟨hat, by simp [hnet], hdst⟩ (hstuck (.serverReceive d))
  | stopping d _ hserver hnet hdst =>
      have hat := receive_of_idle hstuck hserver
      exact absurd ⟨hat, by simp [hnet], hdst⟩ (hstuck (.serverReceive d))
  | replied d _ _ hat _ hnet _ hdst =>
      exact absurd ⟨hat, by simp [hnet], congrArg Sockaddr.port hdst⟩ (hstuck (.clientReceive d))
  | rolling _ hserver => exact absurd hserver (hstuck (.roll 0))
  | replying v _ hserver => exact absurd hserver (hstuck (.reply v))
  | finished hdone hserver =>
      refine ⟨?_, hserver.resolve_left (hstuck .serverClose)⟩
      cases hat : s.client.site with
      | exited => rfl
      | close => exact absurd hat (hstuck .clientClose)
      | input | socket | loop | request | receive | stop =>
          rw [hat] at hdone
          exact hdone.elim

theorem stuck_of_exited (h : Exited s) (a : Action) : ¬ enabled .reliable hosts s a := by
  intro ha
  cases a <;> simp [enabled, h.1, h.2] at ha

/-! ### A run that sends too early -/

/-- Both wait in `recvfrom`, or the client has exited. -/
theorem stuck_of_waiting (hclient : s.client.site = .receive ∨ s.client.site = .exited)
    (hserver : s.server.site = .receive) (hnet : s.net = []) (a : Action) :
    ¬ enabled .reliable hosts s a := by
  intro ha
  cases a <;> rcases hclient with hc | hc <;> simp [enabled, hc, hserver, hnet] at ha

/-- For every number of throws some run ends with the server waiting for ever. -/
theorem early_send (hosts : Hosts) (n : Nat) : ∃ s, (machine .reliable hosts n).Reachable s ∧
    (s.client.site = .receive ∨ s.client.site = .exited) ∧ s.server.site = .receive ∧
      s.net = [] := by
  have hport : (port == hosts.client.port) = false := by
    simpa using hosts.client_port.symm
  have haddr : (Sockaddr.any port).port = port := by decide
  have htest : (Client.test (Client.openSocket (Client.input n Client.start))).site =
      if (1 : Int) ≤ n then .request else .stop := by
    have hrolls : (Client.openSocket (Client.input n Client.start)).diceRolls = n :=
      input_diceRolls n Client.start
    simp only [Client.test, hrolls]
    rfl
  by_cases hn : (1 : Int) ≤ n
  · rw [if_pos hn] at htest
    refine ⟨_, ⟨[.input, .clientSocket, .test, .request, .serverSocket, .bind], ?_, rfl⟩,
      Or.inl rfl, rfl, ?_⟩
    · exact ⟨rfl, rfl, rfl, htest, rfl, rfl, trivial⟩
    · simp [machine, step, Client.start, Client.input, Client.openSocket, Client.test,
        Server.start, send, Network.send, bound, Server.bound, haddr, hport]
  · rw [if_neg hn] at htest
    refine ⟨_, ⟨[.input, .clientSocket, .test, .stop, .clientClose, .serverSocket, .bind], ?_,
      rfl⟩, Or.inr rfl, rfl, ?_⟩
    · exact ⟨rfl, rfl, rfl, htest, rfl, rfl, rfl, trivial⟩
    · simp [machine, step, Client.start, Client.input, Client.openSocket, Client.test,
        Server.start, send, Network.send, bound, Server.bound, haddr, hport]

/-! ### Completion -/

/-- A run has kept to the condition so far and is not hung, or has not and is. -/
theorem sendsBound_or_hung {tr : List Action}
    (hl : (machine .reliable hosts n).Legal (machine .reliable hosts n).init tr) :
    (((machine .reliable hosts n).restrict SendsBound).Legal (machine .reliable hosts n).init tr ∧
      ¬ Hung ((machine .reliable hosts n).after (machine .reliable hosts n).init tr)) ∨
    (¬ ((machine .reliable hosts n).restrict SendsBound).Legal
        (machine .reliable hosts n).init tr ∧
      Hung ((machine .reliable hosts n).after (machine .reliable hosts n).init tr)) := by
  refine Machine.run_invariant (m := machine .reliable hosts n) (P := fun tr s =>
    (((machine .reliable hosts n).restrict SendsBound).Legal
      (machine .reliable hosts n).init tr ∧ ¬ Hung s) ∨
    (¬ ((machine .reliable hosts n).restrict SendsBound).Legal
      (machine .reliable hosts n).init tr ∧ Hung s)) (Or.inl ⟨trivial, ?_⟩) ?_ hl
  · exact not_hung_of_client (x := .input) rfl (by simp) id
  · intro tr a hl' ih ha
    have hsound := reachable_sound (Machine.reachable_after hl')
    rcases ih with ⟨hkept, hn⟩ | ⟨hkept, hh⟩
    · by_cases hb : SendsBound ((machine .reliable hosts n).after
          (machine .reliable hosts n).init tr) a
      · exact Or.inl ⟨Machine.legal_snoc.mpr ⟨hkept, ha, hb⟩, not_hung_step hsound hn ha hb⟩
      · refine Or.inr ⟨fun hc => hb (Machine.legal_snoc.mp hc).2.2, ?_⟩
        exact hung_of_unbound hsound ha hb
    · exact Or.inr ⟨fun hc => hkept (Machine.legal_snoc.mp hc).1, hh.step ha⟩

/--
**When the exchange completes.**  For every number `n` of throws there is a run over a network
that loses nothing, but discards what is sent to an unbound port, that ends without both
processes having exited.  And a run that comes to its end has completed exactly when
every `sendto` of the client was taken while the server's socket was bound.
-/
theorem dice_completes (hosts : Hosts) (n : Nat) :
    (¬ ∀ s, (machine .reliable hosts n).Reachable s → (machine .reliable hosts n).Stuck s →
      Exited s) ∧
    ∀ tr, (machine .reliable hosts n).Legal (machine .reliable hosts n).init tr →
      (machine .reliable hosts n).Stuck
        ((machine .reliable hosts n).after (machine .reliable hosts n).init tr) →
      (Exited ((machine .reliable hosts n).after (machine .reliable hosts n).init tr) ↔
        ((machine .reliable hosts n).restrict SendsBound).Legal
          (machine .reliable hosts n).init tr) := by
  refine ⟨?_, ?_⟩
  · intro hall
    obtain ⟨s, hs, hclient, hserver, hnet⟩ := early_send hosts n
    have hexited := (hall s hs (stuck_of_waiting hclient hserver hnet)).2
    rw [hserver] at hexited
    simp at hexited
  · intro tr hl hstuck
    rcases sendsBound_or_hung hl with ⟨hkept, hn⟩ | ⟨hkept, hh⟩
    · have hsound := reachable_sound (Machine.reachable_after hl)
      exact ⟨fun _ => hkept, fun _ => exited_of_stuck hsound hn hstuck⟩
    · exact ⟨fun hx => absurd hx hh.not_exited, fun hc => absurd hc hkept⟩

/-- One throw, with the server's socket bound before the request: both exit. -/
theorem dice_completes_one :
    Exited ((machine .reliable localhost 1).after (machine .reliable localhost 1).init
      oneThrowRun) := by
  refine ((dice_completes localhost 1).2 oneThrowRun (by decide) ?_).mpr (by decide)
  exact stuck_of_exited ⟨by decide, by decide⟩

/-- One throw, with the request sent before the server's socket is bound: both wait. -/
theorem dice_completes_early :
    ¬ ∀ s, (machine .reliable localhost 1).Reachable s → (machine .reliable localhost 1).Stuck s →
      Exited s := by
  intro hall
  have hl : (machine .reliable localhost 1).Legal (machine .reliable localhost 1).init
      [.input, .clientSocket, .test, .request, .serverSocket, .bind] := by decide
  have hexited := hall _ (Machine.reachable_after hl)
    (stuck_of_waiting (Or.inl (by decide)) (by decide) (by decide))
  exact absurd hexited.2 (by decide)

end LinuxSystems.Dice
