/-
The client and the server agree on the results.

At any time at most one datagram is in flight, and who holds the turn follows from it:
the request of the client, the roll of the server, its reply, or, once the client is
through, the stop message.  A loss ends the exchange for good, with nobody ahead of
the other by more than the one result that was lost.  `Exchange` has one case for each
of these situations, and each step of either process leads from one of them to
another.

The stop message is not taken for a request although it is cut to the size of the
buffer, and a request and a result are what was sent.
-/
import LinuxSystems.Dice.Model

namespace LinuxSystems.Dice

variable {hosts : Hosts} {n : Nat} {s : Dice} {a : Action}

/-! ### What is recognised -/

theorem dieRoll_range (rand : Nat) : 1 ≤ dieRoll rand ∧ dieRoll rand ≤ 6 := by
  show 1 ≤ rand % 6 + 1 ∧ rand % 6 + 1 ≤ 6
  omega

/-- A result is read as it was written. -/
theorem cString_ofNat {v : Nat} (h : 1 ≤ v ∧ v ≤ 6) :
    Buffer.cString ((Buffer.ofNat v).take bufSize) = Buffer.ofNat v ∧
      0 < ((Buffer.ofNat v).take bufSize).length := by
  obtain ⟨h1, h6⟩ := h
  have hall : ∀ v, v < 7 → 1 ≤ v → Buffer.cString ((Buffer.ofNat v).take bufSize)
      = Buffer.ofNat v ∧ 0 < ((Buffer.ofNat v).take bufSize).length := by decide
  exact hall v (by omega) h1

/-- The server goes on to a roll exactly when the received bytes, up to a zero, are as many
characters of the request as it received. -/
theorem received_site (d : Datagram) (v : Server) :
    (v.received d).site =
      if request.take (d.payload.take bufSize).length = Buffer.cString (d.payload.take bufSize)
      then .roll else .close := by
  have hiff : (Buffer.compare request 0 (Buffer.receive bufSize d.payload v.buffer).2
      (Buffer.terminate (Buffer.receive bufSize d.payload v.buffer).2
        (Buffer.receive bufSize d.payload v.buffer).1) = .eq) ↔
      request.take (d.payload.take bufSize).length = Buffer.cString (d.payload.take bufSize) := by
    rw [Buffer.compare_eq_iff, Buffer.cString_received]
    rfl
  simp only [Server.received, hiff]

theorem received_request {d : Datagram} (hd : d.payload = request) (v : Server) :
    (v.received d).site = .roll := by
  have hreq : request.take (request.take bufSize).length
      = Buffer.cString (request.take bufSize) := by decide
  rw [received_site, hd, if_pos hreq]

/-- The stop message is not mistaken for a request. -/
theorem received_stop {d : Datagram} (hd : d.payload = stop) (v : Server) :
    (v.received d).site = .close := by
  have hstop : request.take (stop.take bufSize).length
      ≠ Buffer.cString (stop.take bufSize) := by decide
  rw [received_site, hd, if_neg hstop]

/-- A received result is printed. -/
theorem received_result {d : Datagram} {v : Nat} (hd : d.payload = Buffer.ofNat v)
    (hv : 1 ≤ v ∧ v ≤ 6) (c : Client) :
    (c.received d).printed = c.printed ++ [(c.i, Buffer.ofNat v)] := by
  obtain ⟨htext, hpos⟩ := cString_ofNat hv
  have hrecv : (Buffer.receive bufSize d.payload c.buffer).2 > 0 := by
    rw [hd]
    exact hpos
  simp only [Client.received, if_pos hrecv, Buffer.cString_received]
  rw [hd, htext]

theorem received_rest (d : Datagram) (c : Client) :
    (c.received d).site = .loop ∧ (c.received d).i = c.i + 1 ∧
      (c.received d).diceRolls = c.diceRolls ∧ (c.received d).len = Sockaddr.size ∧
      (c.received d).servaddr = Sockaddr.report c.len d.src c.servaddr := by
  unfold Client.received
  dsimp only
  split <;> exact ⟨rfl, rfl, rfl, rfl, rfl⟩

theorem input_diceRolls (n : Nat) (c : Client) : (c.input n).diceRolls = n := by
  show (if (n : Int) ≤ 0 ∧ (n : Int) > 256 then 0 else (n : Int)) = n
  rw [if_neg (by omega)]

/-! ### The situations of an exchange -/

/-- The client has sent the stop message. -/
def ClientSite.isDone : ClientSite → Prop
  | .close | .exited => True
  | .input | .socket | .loop | .request | .receive | .stop => False

/-- The server has nothing to answer. -/
def ServerSite.isIdle : ServerSite → Prop
  | .socket | .bind | .receive => True
  | .roll | .reply _ | .close | .exited => False

/-- Every roll has been sent and printed. -/
def Settled (s : Dice) : Prop :=
  s.server.replies = s.server.rolls ∧
    s.client.results = s.server.rolls.map Buffer.ofNat

/-- Every roll has been sent, and all but the last printed. -/
def Behind (s : Dice) (v : Nat) (rolls : List Nat) : Prop :=
  s.server.rolls = rolls ++ [v] ∧ s.server.replies = s.server.rolls ∧
    s.client.results = rolls.map Buffer.ofNat

inductive Exchange (hosts : Hosts) (s : Dice) : Prop where
  /-- Nothing is in flight: before a request, or after a request or the stop message was lost. -/
  | idle (hserver : s.server.site.isIdle) (hnet : s.net = []) (hsettled : Settled s)
  | requested (d : Datagram) (hclient : s.client.site = .receive) (hserver : s.server.site.isIdle)
      (hnet : s.net = [d]) (hsrc : d.src = hosts.client) (hdst : d.dst.port = port)
      (hpayload : d.payload = request) (hsettled : Settled s)
  | rolling (hclient : s.client.site = .receive) (hserver : s.server.site = .roll)
      (hcliaddr : s.server.cliaddr = hosts.client) (hnet : s.net = []) (hsettled : Settled s)
  | replying (v : Nat) (hclient : s.client.site = .receive) (hserver : s.server.site = .reply v)
      (hcliaddr : s.server.cliaddr = hosts.client) (hnet : s.net = [])
      (hrolls : s.server.rolls = s.server.replies ++ [v])
      (hresults : s.client.results = s.server.replies.map Buffer.ofNat)
  | replied (d : Datagram) (v : Nat) (rolls : List Nat) (hclient : s.client.site = .receive)
      (hserver : s.server.site.isIdle) (hnet : s.net = [d]) (hsrc : d.src = hosts.server)
      (hdst : d.dst = hosts.client) (hpayload : d.payload = Buffer.ofNat v)
      (hbehind : Behind s v rolls)
  | replyLost (v : Nat) (rolls : List Nat) (hclient : s.client.site = .receive)
      (hserver : s.server.site.isIdle) (hnet : s.net = []) (hbehind : Behind s v rolls)
  | stopping (d : Datagram) (hclient : s.client.site.isDone) (hserver : s.server.site.isIdle)
      (hnet : s.net = [d]) (hdst : d.dst.port = port) (hpayload : d.payload = stop)
      (hsettled : Settled s)
  | finished (hclient : s.client.site.isDone)
      (hserver : s.server.site = .close ∨ s.server.site = .exited) (hnet : s.net = [])
      (hsettled : Settled s)

/-- What is known of the client at each place: how far it has come with its throws. -/
def Client.Fits (n : Nat) (c : Client) : Prop :=
  match c.site with
  | .input => c.printed = [] ∧ c.i = 0
  | .socket => c.printed = [] ∧ c.i = 0 ∧ c.diceRolls = n
  | .loop => c.i = c.printed.length + 1 ∧ c.printed.length ≤ n ∧ c.diceRolls = n
  | .request => c.i = c.printed.length + 1 ∧ c.printed.length < n ∧ c.diceRolls = n
  | .receive => c.i = c.printed.length + 1 ∧ c.printed.length < n ∧ c.diceRolls = n ∧
      c.bound = true
  | .stop | .close | .exited => c.i = c.printed.length + 1 ∧ c.printed.length = n

structure Sound (hosts : Hosts) (n : Nat) (s : Dice) : Prop where
  client : s.client.Fits n
  exchange : Exchange hosts s
  servaddr : s.client.servaddr.port = port
  clientLen : s.client.len = 0 ∨ s.client.len = Sockaddr.size
  serverLen : s.server.site ≠ .socket → s.server.site ≠ .bind → s.server.len = Sockaddr.size
  rolls : ∀ v ∈ s.server.rolls, 1 ≤ v ∧ v ≤ 6

namespace Exchange

/-- A client that neither waits for a result nor is through is in an idle exchange. -/
theorem idle_of (h : Exchange hosts s) (hreceive : s.client.site ≠ .receive)
    (hdone : ¬ s.client.site.isDone) :
    s.server.site.isIdle ∧ s.net = [] ∧ Settled s := by
  cases h with
  | idle hserver hnet hsettled => exact ⟨hserver, hnet, hsettled⟩
  | requested _ hclient => exact absurd hclient hreceive
  | rolling hclient => exact absurd hclient hreceive
  | replying _ hclient => exact absurd hclient hreceive
  | replied _ _ _ hclient => exact absurd hclient hreceive
  | replyLost _ _ hclient => exact absurd hclient hreceive
  | stopping _ hclient => exact absurd hclient hdone
  | finished hclient => exact absurd hclient hdone

/-- A server that is to roll has a client that waits, and nothing is in flight. -/
theorem of_roll (h : Exchange hosts s) (hat : s.server.site = .roll) :
    s.client.site = .receive ∧ s.server.cliaddr = hosts.client ∧ s.net = [] ∧ Settled s := by
  cases h with
  | rolling hclient _ hcliaddr hnet hsettled => exact ⟨hclient, hcliaddr, hnet, hsettled⟩
  | replying _ _ hserver | finished _ hserver => simp [hat] at hserver
  | idle hserver | requested _ _ hserver | replied _ _ _ _ hserver | replyLost _ _ _ hserver
  | stopping _ _ hserver =>
      rw [hat] at hserver
      exact hserver.elim

/-- A server that is to reply has just rolled, for a client that waits. -/
theorem of_reply (h : Exchange hosts s) {v : Nat} (hat : s.server.site = .reply v) :
    s.client.site = .receive ∧ s.server.cliaddr = hosts.client ∧ s.net = [] ∧
      s.server.rolls = s.server.replies ++ [v] ∧
      s.client.results = s.server.replies.map Buffer.ofNat := by
  cases h with
  | replying v' hclient hserver hcliaddr hnet hrolls hresults =>
      obtain rfl : v = v' := ServerSite.reply.inj (hat.symm.trans hserver)
      exact ⟨hclient, hcliaddr, hnet, hrolls, hresults⟩
  | rolling _ hserver | finished _ hserver => simp [hat] at hserver
  | idle hserver | requested _ _ hserver | replied _ _ _ _ hserver | replyLost _ _ _ hserver
  | stopping _ _ hserver =>
      rw [hat] at hserver
      exact hserver.elim

/-- A server that has left its loop has a client that is through. -/
theorem of_finished (h : Exchange hosts s)
    (hat : s.server.site = .close ∨ s.server.site = .exited) :
    s.client.site.isDone ∧ s.net = [] ∧ Settled s := by
  have hnot : ¬ s.server.site.isIdle := by
    rcases hat with he | he <;> (rw [he]; exact id)
  cases h with
  | finished hclient _ hnet hsettled => exact ⟨hclient, hnet, hsettled⟩
  | rolling _ hserver | replying _ _ hserver => simp [hserver] at hat
  | idle hserver | requested _ _ hserver | replied _ _ _ _ hserver | replyLost _ _ _ hserver
  | stopping _ _ hserver => exact absurd hserver hnot

/-- In an idle exchange the client may go wherever it wants. -/
theorem idle_client (h : Exchange hosts s) (hreceive : s.client.site ≠ .receive)
    (hdone : ¬ s.client.site.isDone) {c : Client} (hc : c.results = s.client.results) :
    Exchange hosts { s with client := c } := by
  obtain ⟨hserver, hnet, hreplies, hresults⟩ := h.idle_of hreceive hdone
  exact .idle hserver hnet ⟨hreplies, hc.trans hresults⟩

/-- A server with nothing to answer may go on to receive. -/
theorem idle_server (h : Exchange hosts s) (hserver : s.server.site.isIdle) {v : Server}
    (hv : v.site.isIdle) (hrolls : v.rolls = s.server.rolls)
    (hreplies : v.replies = s.server.replies) : Exchange hosts { s with server := v } := by
  have hsettled : Settled s → Settled { s with server := v } := by
    rintro ⟨h1, h2⟩
    exact ⟨hreplies.trans (h1.trans hrolls.symm), h2.trans (congrArg _ hrolls.symm)⟩
  have hbehind : ∀ {r rs}, Behind s r rs → Behind { s with server := v } r rs := by
    rintro r rs ⟨h1, h2, h3⟩
    exact ⟨hrolls.trans h1, hreplies.trans (h2.trans hrolls.symm), h3⟩
  cases h with
  | idle _ hnet hs => exact .idle hv hnet (hsettled hs)
  | requested d hclient _ hnet hsrc hdst hpayload hs =>
      exact .requested d hclient hv hnet hsrc hdst hpayload (hsettled hs)
  | rolling _ hsite =>
      rw [hsite] at hserver
      exact hserver.elim
  | replying _ _ hsite =>
      rw [hsite] at hserver
      exact hserver.elim
  | replied d r rs hclient _ hnet hsrc hdst hpayload hb =>
      exact .replied d r rs hclient hv hnet hsrc hdst hpayload (hbehind hb)
  | replyLost r rs hclient _ hnet hb => exact .replyLost r rs hclient hv hnet (hbehind hb)
  | stopping d hclient _ hnet hdst hpayload hs =>
      exact .stopping d hclient hv hnet hdst hpayload (hsettled hs)
  | finished _ hsite =>
      rcases hsite with hsite | hsite <;>
      · rw [hsite] at hserver
        exact hserver.elim

/-- A client that is through may exit. -/
theorem done_client (h : Exchange hosts s) (hdone : s.client.site.isDone) {c : Client}
    (hc : c.site.isDone) (hresults : c.results = s.client.results) :
    Exchange hosts { s with client := c } := by
  have hne : s.client.site ≠ .receive := by
    intro hr
    rw [hr] at hdone
    exact hdone
  have hsettled : Settled s → Settled { s with client := c } := by
    rintro ⟨h1, h2⟩
    exact ⟨h1, hresults.trans h2⟩
  cases h with
  | idle hserver hnet hs => exact .idle hserver hnet (hsettled hs)
  | stopping d _ hserver hnet hdst hpayload hs =>
      exact .stopping d hc hserver hnet hdst hpayload (hsettled hs)
  | finished _ hserver hnet hs => exact .finished hc hserver hnet (hsettled hs)
  | requested _ hclient => exact absurd hclient hne
  | rolling hclient => exact absurd hclient hne
  | replying _ hclient => exact absurd hclient hne
  | replied _ _ _ hclient => exact absurd hclient hne
  | replyLost _ _ hclient => exact absurd hclient hne

/-- At most one datagram is in flight. -/
theorem net_length (h : Exchange hosts s) : s.net.length ≤ 1 := by
  cases h <;> simp [*]

end Exchange

/-! ### One lemma a step -/

/-- What is sent is in flight, or discarded at once. -/
theorem send_cases (s : Dice) (network : Network) (hosts : Hosts) (d : Datagram) :
    s.send network hosts d = s.net ++ [d] ∨ s.send network hosts d = s.net := by
  cases hb : s.bound hosts d.dst.port with
  | true => exact Or.inl (Network.send_bound network hb s.net)
  | false =>
      cases network with
      | lossy => exact Or.inl rfl
      | reliable => exact Or.inr (Network.send_unbound hb s.net)

namespace Sound

variable {network : Network}

/-- A reply is sent to a client that waits for it. -/
theorem send_server (h : Sound hosts n s) (hcliaddr : s.server.cliaddr = hosts.client)
    (hclient : s.client.site = .receive) (payload : List UInt8) :
    s.send network hosts ⟨hosts.server, s.server.cliaddr, payload⟩ =
      s.net ++ [⟨hosts.server, s.server.cliaddr, payload⟩] := by
  refine Network.send_bound network ?_ s.net
  have hfits := h.client
  simp only [Client.Fits, hclient] at hfits
  simp [bound, hcliaddr, hfits.2.2.2]

theorem input (h : Sound hosts n s) (hat : s.client.site = .input) :
    Sound hosts n { s with client := s.client.input n } := by
  refine ⟨?_, h.exchange.idle_client ?_ ?_ rfl, h.servaddr, h.clientLen, h.serverLen, h.rolls⟩
  · have hfits := h.client
    simp only [Client.Fits, hat] at hfits
    exact ⟨hfits.1, hfits.2, input_diceRolls n s.client⟩
  · simp [hat]
  · simp [hat, ClientSite.isDone]

theorem clientSocket (h : Sound hosts n s) (hat : s.client.site = .socket) :
    Sound hosts n { s with client := s.client.openSocket } := by
  refine ⟨?_, h.exchange.idle_client ?_ ?_ rfl, h.servaddr, Or.inl rfl, h.serverLen, h.rolls⟩
  · have hfits := h.client
    simp only [Client.Fits, hat] at hfits
    obtain ⟨hprinted, -, hrolls⟩ := hfits
    simp [Client.Fits, Client.openSocket, hprinted, hrolls]
  · simp [hat]
  · simp [hat, ClientSite.isDone]

theorem test (h : Sound hosts n s) (hat : s.client.site = .loop) :
    Sound hosts n { s with client := s.client.test } := by
  refine ⟨?_, h.exchange.idle_client ?_ ?_ rfl, h.servaddr, h.clientLen, h.serverLen, h.rolls⟩
  · have hfits := h.client
    simp only [Client.Fits, hat] at hfits
    obtain ⟨hi, hle, hrolls⟩ := hfits
    by_cases hnext : s.client.i ≤ s.client.diceRolls
    · simp only [Client.Fits, Client.test, if_pos hnext]
      exact ⟨hi, by omega, hrolls⟩
    · simp only [Client.Fits, Client.test, if_neg hnext]
      exact ⟨hi, by omega⟩
  · simp [hat]
  · simp [hat, ClientSite.isDone]

theorem request (h : Sound hosts n s) (hat : s.client.site = .request) :
    Sound hosts n (step network hosts n s .request) := by
  obtain ⟨hserver, hnet, hsettled⟩ :=
    h.exchange.idle_of (by simp [hat]) (by simp [hat, ClientSite.isDone])
  refine ⟨?_, ?_, h.servaddr, h.clientLen, h.serverLen, h.rolls⟩
  · have hfits := h.client
    simp only [Client.Fits, hat] at hfits
    obtain ⟨hi, hlt, hrolls⟩ := hfits
    exact ⟨hi, hlt, hrolls, rfl⟩
  · rcases s.send_cases network hosts ⟨hosts.client, s.client.servaddr, Dice.request⟩
      with hsend | hsend
    · exact .requested _ rfl hserver (hsend.trans (by rw [hnet, List.nil_append])) rfl h.servaddr rfl hsettled
    · exact .idle hserver (hsend.trans hnet) hsettled

theorem clientReceive (h : Sound hosts n s) {d : Datagram}
    (ha : enabled network hosts s (.clientReceive d)) :
    Sound hosts n (step network hosts n s (.clientReceive d)) := by
  obtain ⟨hat, hd, hport⟩ := ha
  cases h.exchange with
  | idle _ hnet => simp [hnet] at hd
  | requested d' _ _ hnet _ hdst =>
      rw [hnet, List.mem_singleton] at hd
      rw [hd, hdst] at hport
      exact absurd hport.symm hosts.client_port
  | rolling _ _ _ hnet => simp [hnet] at hd
  | replying _ _ _ _ hnet => simp [hnet] at hd
  | replyLost _ _ _ _ hnet => simp [hnet] at hd
  | stopping _ hclient =>
      rw [hat] at hclient
      exact hclient.elim
  | finished hclient =>
      rw [hat] at hclient
      exact hclient.elim
  | replied d' v rolls _ hserver hnet hsrc _ hpayload hbehind =>
      rw [hnet, List.mem_singleton] at hd
      subst hd
      obtain ⟨hrolls, hreplies, hresults⟩ := hbehind
      have hv : 1 ≤ v ∧ v ≤ 6 := h.rolls v (by simp [hrolls])
      have hprinted := received_result hpayload hv s.client
      obtain ⟨hsite, hi, hdice, hlen, haddr⟩ := received_rest d s.client
      simp only [step, hnet, List.erase_cons_head]
      refine ⟨?_, ?_, ?_, Or.inr hlen, h.serverLen, h.rolls⟩
      · have hfits := h.client
        simp only [Client.Fits, hat] at hfits
        simp only [Client.Fits, hsite, hprinted, hi, hdice, List.length_append,
          List.length_singleton]
        exact ⟨by omega, by omega, hfits.2.2.1⟩
      · refine .idle hserver rfl ⟨hreplies, ?_⟩
        show (s.client.received d).results = s.server.rolls.map Buffer.ofNat
        rw [Client.results, hprinted, List.map_append, hrolls, List.map_append, ← hresults]
        rfl
      · show (s.client.received d).servaddr.port = port
        rw [haddr]
        rcases h.clientLen with hl | hl
        · rw [hl, Sockaddr.report_zero]
          exact h.servaddr
        · rw [hl, Sockaddr.report_size, hsrc]
          exact hosts.server_port

theorem stop (h : Sound hosts n s) (hat : s.client.site = .stop) :
    Sound hosts n (step network hosts n s .stop) := by
  obtain ⟨hserver, hnet, hsettled⟩ :=
    h.exchange.idle_of (by simp [hat]) (by simp [hat, ClientSite.isDone])
  refine ⟨?_, ?_, h.servaddr, h.clientLen, h.serverLen, h.rolls⟩
  · have hfits := h.client
    simp only [Client.Fits, hat] at hfits
    exact hfits
  · rcases s.send_cases network hosts ⟨hosts.client, s.client.servaddr, Dice.stop⟩
      with hsend | hsend
    · exact .stopping _ trivial hserver (hsend.trans (by rw [hnet, List.nil_append])) h.servaddr rfl hsettled
    · exact .idle hserver (hsend.trans hnet) hsettled

theorem clientClose (h : Sound hosts n s) (hat : s.client.site = .close) :
    Sound hosts n { s with client := s.client.close } := by
  have hdone : s.client.site.isDone := by
    rw [hat]
    trivial
  refine ⟨?_, h.exchange.done_client hdone trivial rfl, h.servaddr, h.clientLen, h.serverLen,
    h.rolls⟩
  have hfits := h.client
  simp only [Client.Fits, hat] at hfits
  exact hfits

theorem serverSocket (h : Sound hosts n s) (hat : s.server.site = .socket) :
    Sound hosts n { s with server := s.server.openSocket } := by
  have hserver : s.server.site.isIdle := by
    rw [hat]
    trivial
  exact ⟨h.client, h.exchange.idle_server hserver trivial rfl rfl, h.servaddr, h.clientLen,
    fun _ hbind => absurd rfl hbind, h.rolls⟩

theorem bind (h : Sound hosts n s) (hat : s.server.site = .bind) :
    Sound hosts n { s with server := s.server.bind } := by
  have hserver : s.server.site.isIdle := by
    rw [hat]
    trivial
  exact ⟨h.client, h.exchange.idle_server hserver trivial rfl rfl, h.servaddr, h.clientLen,
    fun _ _ => rfl, h.rolls⟩

theorem serverReceive (h : Sound hosts n s) {d : Datagram}
    (ha : enabled network hosts s (.serverReceive d)) :
    Sound hosts n (step network hosts n s (.serverReceive d)) := by
  obtain ⟨hat, hd, hport⟩ := ha
  have hcliaddr : (s.server.received d).cliaddr = d.src := by
    show Sockaddr.report s.server.len d.src s.server.cliaddr = d.src
    rw [h.serverLen (by simp [hat]) (by simp [hat]), Sockaddr.report_size]
  cases h.exchange with
  | idle _ hnet => simp [hnet] at hd
  | rolling _ hserver =>
      rw [hat] at hserver
      simp at hserver
  | replying _ _ hserver =>
      rw [hat] at hserver
      simp at hserver
  | replyLost _ _ _ _ hnet => simp [hnet] at hd
  | finished _ _ hnet => simp [hnet] at hd
  | replied d' _ _ _ _ hnet _ hdst =>
      rw [hnet, List.mem_singleton] at hd
      rw [hd, hdst] at hport
      exact absurd hport hosts.client_port
  | requested d' hclient _ hnet hsrc _ hpayload hsettled =>
      rw [hnet, List.mem_singleton] at hd
      subst hd
      have hsite := received_request hpayload s.server
      simp only [step, hnet, List.erase_cons_head]
      refine ⟨h.client, ?_, h.servaddr, h.clientLen, ?_, h.rolls⟩
      · exact .rolling hclient hsite (hcliaddr.trans hsrc) rfl hsettled
      · intro _ _
        rfl
  | stopping d' hclient _ hnet _ hpayload hsettled =>
      rw [hnet, List.mem_singleton] at hd
      subst hd
      have hsite := received_stop hpayload s.server
      simp only [step, hnet, List.erase_cons_head]
      refine ⟨h.client, ?_, h.servaddr, h.clientLen, ?_, h.rolls⟩
      · exact .finished hclient (Or.inl hsite) rfl hsettled
      · intro _ _
        rfl

theorem roll (h : Sound hosts n s) (rand : Nat) (hat : s.server.site = .roll) :
    Sound hosts n { s with server := s.server.rolled rand } := by
  obtain ⟨hclient, hcliaddr, hnet, hreplies, hresults⟩ := h.exchange.of_roll hat
  refine ⟨h.client, ?_, h.servaddr, h.clientLen,
    fun _ _ => h.serverLen (by simp [hat]) (by simp [hat]), ?_⟩
  · refine .replying (dieRoll rand) hclient rfl hcliaddr hnet ?_ ?_
    · exact congrArg (· ++ [dieRoll rand]) hreplies.symm
    · exact hresults.trans (congrArg _ hreplies.symm)
  · intro v hv
    rcases List.mem_append.mp hv with hv | hv
    · exact h.rolls v hv
    · rw [List.mem_singleton.mp hv]
      exact dieRoll_range rand

theorem reply (h : Sound hosts n s) {v : Nat} (hat : s.server.site = .reply v) :
    Sound hosts n (step network hosts n s (.reply v)) := by
  obtain ⟨hclient, hcliaddr, hnet, hrolls, hresults⟩ := h.exchange.of_reply hat
  simp only [step, h.send_server hcliaddr hclient, hnet, List.nil_append]
  refine ⟨h.client, ?_, h.servaddr, h.clientLen,
    fun _ _ => h.serverLen (by simp [hat]) (by simp [hat]), h.rolls⟩
  exact .replied _ v s.server.replies hclient trivial rfl rfl hcliaddr rfl
    ⟨hrolls, hrolls.symm, hresults⟩

theorem serverClose (h : Sound hosts n s) (hat : s.server.site = .close) :
    Sound hosts n { s with server := s.server.close } := by
  obtain ⟨hclient, hnet, hsettled⟩ := h.exchange.of_finished (Or.inl hat)
  exact ⟨h.client, .finished hclient (Or.inr rfl) hnet hsettled, h.servaddr, h.clientLen,
    fun _ _ => h.serverLen (by simp [hat]) (by simp [hat]), h.rolls⟩

theorem lose (h : Sound hosts n s) {d : Datagram} (hd : d ∈ s.net) :
    Sound hosts n { s with net := s.net.erase d } := by
  have hnil : ∀ {d'}, s.net = [d'] → s.net.erase d = [] := by
    intro d' hnet
    rw [hnet, List.mem_singleton] at hd
    rw [hnet, hd, List.erase_cons_head]
  refine ⟨h.client, ?_, h.servaddr, h.clientLen, h.serverLen, h.rolls⟩
  cases h.exchange with
  | requested d' _ hserver hnet _ _ _ hsettled => exact .idle hserver (hnil hnet) hsettled
  | replied d' v rolls hclient hserver hnet _ _ _ hbehind =>
      exact .replyLost v rolls hclient hserver (hnil hnet) hbehind
  | stopping d' _ hserver hnet _ _ hsettled => exact .idle hserver (hnil hnet) hsettled
  | idle _ hnet | rolling _ _ _ hnet | replying _ _ _ _ hnet | replyLost _ _ _ _ hnet
  | finished _ _ hnet => simp [hnet] at hd

end Sound

theorem sound_init (hosts : Hosts) (n : Nat) :
    Sound hosts n ⟨Client.start, Server.start, []⟩ where
  client := ⟨rfl, rfl⟩
  exchange := .idle trivial rfl ⟨rfl, rfl⟩
  servaddr := by decide
  clientLen := Or.inl rfl
  serverLen := fun hsocket => absurd rfl hsocket
  rolls := by simp [Server.start]

theorem Sound.step {network : Network} (h : Sound hosts n s) (ha : enabled network hosts s a) :
    Sound hosts n (Dice.step network hosts n s a) := by
  cases a with
  | input => exact h.input ha
  | clientSocket => exact h.clientSocket ha
  | test => exact h.test ha
  | request => exact h.request ha
  | clientReceive d => exact h.clientReceive ha
  | stop => exact h.stop ha
  | clientClose => exact h.clientClose ha
  | serverSocket => exact h.serverSocket ha
  | bind => exact h.bind ha
  | serverReceive d => exact h.serverReceive ha
  | roll rand => exact h.roll rand ha
  | reply v => exact h.reply ha
  | serverClose => exact h.serverClose ha
  | lose d => exact h.lose ha.2

/-- Whatever the network does with the datagrams. -/
theorem reachable_sound {network : Network} (hs : (machine network hosts n).Reachable s) :
    Sound hosts n s :=
  hs.invariant (P := Sound hosts n) (sound_init hosts n) fun _ _ _ h ha => h.step ha

/-! ### Agreement -/

namespace Sound

/-- The printed results are the rolls, or all of them but the last. -/
theorem results_eq (h : Sound hosts n s) :
    s.client.results = s.server.rolls.map Buffer.ofNat ∨
      s.client.results = s.server.rolls.dropLast.map Buffer.ofNat := by
  have hbehind : ∀ {v rolls}, Behind s v rolls →
      s.client.results = s.server.rolls.dropLast.map Buffer.ofNat := by
    rintro v rolls ⟨hrolls, -, hresults⟩
    rw [hresults, hrolls, List.dropLast_concat]
  cases h.exchange with
  | replying v _ _ _ _ hrolls hresults =>
      refine Or.inr ?_
      rw [hresults, hrolls, List.dropLast_concat]
  | replied _ _ _ _ _ _ _ _ _ hb => exact Or.inr (hbehind hb)
  | replyLost _ _ _ _ _ hb => exact Or.inr (hbehind hb)
  | idle _ _ hs | requested _ _ _ _ _ _ _ hs | rolling _ _ _ _ hs | stopping _ _ _ _ _ _ hs
  | finished _ _ _ hs => exact Or.inl hs.2

/-- Every printed result is the text of a number from 1 to 6. -/
theorem results_range (h : Sound hosts n s) :
    ∀ text ∈ s.client.results, ∃ v, 1 ≤ v ∧ v ≤ 6 ∧ text = Buffer.ofNat v := by
  intro text htext
  have hmem : text ∈ s.server.rolls.map Buffer.ofNat := by
    rcases h.results_eq with he | he
    · rwa [he] at htext
    · rw [he] at htext
      exact List.map_subset _ (List.dropLast_subset _) htext
  obtain ⟨v, hv, rfl⟩ := List.mem_map.mp hmem
  exact ⟨v, (h.rolls v hv).1, (h.rolls v hv).2, rfl⟩

/-- A server that has left its loop has answered everything, and all of it was printed. -/
theorem counts_of_finished (h : Sound hosts n s)
    (hfinished : s.server.site = .close ∨ s.server.site = .exited) :
    s.server.rolls.length = n ∧ s.server.replies.length = n ∧ s.client.results.length = n := by
  obtain ⟨hclient, -, hreplies, hresults⟩ := h.exchange.of_finished hfinished
  have hprinted : s.client.printed.length = n := by
    have hfits := h.client
    unfold Client.Fits at hfits
    split at hfits <;> simp_all [ClientSite.isDone]
  have hlen : s.client.results.length = n := by
    rw [Client.results, List.length_map, hprinted]
  have hrolls : s.server.rolls.length = n := by
    rwa [hresults, List.length_map] at hlen
  exact ⟨hrolls, by rw [hreplies, hrolls], hlen⟩

theorem index_le (h : Sound hosts n s) : s.client.i ≤ n + 1 := by
  have hfits := h.client
  unfold Client.Fits at hfits
  split at hfits <;> omega

end Sound

/--
**The client and the server agree on the results.**  Over a network that may lose or delay
datagrams, for any number `n < INT_MAX` of throws and in every reachable state: what
the client printed are the rolls of the server, or all of them but the last; each is
the text of a number from 1 to 6; at most one datagram is in flight; and if the server
has left its loop it has answered `n` requests and the client has printed `n` results.
The client's index never overflows.
-/
theorem dice_agreement (hosts : Hosts) (n : Nat) (hmax : n < 2 ^ 31 - 1) (s : Dice)
    (hs : (machine .lossy hosts n).Reachable s) :
    (s.client.results = s.server.rolls.map Buffer.ofNat ∨
      s.client.results = s.server.rolls.dropLast.map Buffer.ofNat) ∧
    (∀ text ∈ s.client.results, ∃ v, 1 ≤ v ∧ v ≤ 6 ∧ text = Buffer.ofNat v) ∧
    s.net.length ≤ 1 ∧
    (s.server.site = .close ∨ s.server.site = .exited →
      s.server.replies.length = n ∧ s.client.results.length = n) ∧
    s.client.i ≤ 2 ^ 31 - 1 := by
  have h := reachable_sound hs
  refine ⟨h.results_eq, h.results_range, h.exchange.net_length, ?_, ?_⟩
  · intro hfinished
    exact (h.counts_of_finished hfinished).2
  · have hi := h.index_le
    omega

/-- The two sockets on one host, the client's at port 40000. -/
def localhost : Hosts where
  server := Sockaddr.any port
  client := Sockaddr.any 40000
  server_port := by decide
  client_port := by decide

/-- One throw, from the fork to both exits. -/
def oneThrowRun : List Action :=
  [.input, .clientSocket, .test, .serverSocket, .bind, .request,
    .serverReceive ⟨localhost.client, Sockaddr.any port, request⟩, .roll 9, .reply 4,
    .clientReceive ⟨localhost.server, localhost.client, Buffer.ofNat 4⟩, .test, .stop,
    .serverReceive ⟨localhost.client, Sockaddr.any port, stop⟩, .serverClose, .clientClose]

/-- One throw: the server has left its loop, and so one result was printed. -/
theorem dice_agreement_one :
    ((machine .lossy localhost 1).after (machine .lossy localhost 1).init
        oneThrowRun).server.replies.length = 1 ∧
      ((machine .lossy localhost 1).after (machine .lossy localhost 1).init
        oneThrowRun).client.results.length = 1 :=
  (dice_agreement localhost 1 (by decide) _ ⟨oneThrowRun, by decide, rfl⟩).2.2.2.1
    (by decide)

end LinuxSystems.Dice
