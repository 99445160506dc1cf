/-
What the server and its clients print.

A client's step leaves the server's side, and the server's step the client's, so each fact is
about the steps of one side.  The server's lines are one group for each connection, in
the order of the connections.  What a client prints as the response is the beginning of what the
server sent it, after the server had received its request.
-/
import LinuxSystems.Tcp.Clients
import LinuxSystems.Machine.Names
import Mathlib.Data.List.Nodup

namespace LinuxSystems.TcpExample

open Tcp

variable {ι : Type*} [DecidableEq ι] {serverPid : Nat} {pid : ι → Nat} {s s' : TcpExample ι}
  {a : Action ι} {t u : ι} {ok : Bool} {r : Received}

/-! ### The two sides -/

/-- The steps of the clients. -/
def isClient : Action ι → Prop
  | .connect _ _ | .send _ _ | .recv _ _ | .close _ _ => True
  | .accept _ | .acceptFails | .serve _ _ | .answer _ _ | .closeClient _ _ | .insert | .throws
  | .lose _ | .interrupt => False

/-- A step that leaves the clients as they are. -/
structure ClientsSame (s s' : TcpExample ι) : Prop where
  client : s'.client = s.client
  request : s'.request = s.request
  clientOutput : s'.clientOutput = s.clientOutput

/-- A step that leaves the server as it is. -/
structure ServerSame (s s' : TcpExample ι) : Prop where
  server : s'.server = s.server
  accepted : s'.accepted = s.accepted
  rounds : s'.rounds = s.rounds
  answer : s'.answer = s.answer
  closed : s'.closed = s.closed
  pending : s'.pending = s.pending
  serverOutput : s'.serverOutput = s.serverOutput

theorem clientStep_frame (h : isClient a) : ServerSame s (s.step serverPid pid a) := by
  cases a with
  | connect t ok => cases ok <;> exact ⟨rfl, rfl, rfl, rfl, rfl, rfl, rfl⟩
  | send t ok => cases ok <;> exact ⟨rfl, rfl, rfl, rfl, rfl, rfl, rfl⟩
  | recv t r => exact ⟨rfl, rfl, rfl, rfl, rfl, rfl, rfl⟩
  | close t ok => cases ok <;> exact ⟨rfl, rfl, rfl, rfl, rfl, rfl, rfl⟩
  | _ => exact h.elim

theorem serverStep_frame (h : ¬ isClient a) : ClientsSame s (s.step serverPid pid a) := by
  cases a with
  | connect t ok | send t ok | recv t r | close t ok => exact (h trivial).elim
  | serve t r =>
      show ClientsSame s (s.serveStep serverPid t r)
      unfold serveStep
      cases (Server.serve serverPid r).printed <;> exact ⟨rfl, rfl, rfl⟩
  | answer t ok => cases ok <;> exact ⟨rfl, rfl, rfl⟩
  | closeClient t ok => cases ok <;> exact ⟨rfl, rfl, rfl⟩
  | accept t | acceptFails | insert | throws | lose t | interrupt => exact ⟨rfl, rfl, rfl⟩

/-- No round is taken back. -/
theorem rounds_subset (s : TcpExample ι) (a : Action ι) :
    s.rounds ⊆ (s.step serverPid pid a).rounds := by
  by_cases hclient : isClient a
  · rw [(clientStep_frame hclient).rounds]
    exact List.Subset.refl _
  cases a with
  | connect t ok | send t ok | recv t r | close t ok => exact absurd trivial hclient
  | serve t r => exact List.subset_append_left _ _
  | closeClient t ok => cases ok <;> exact List.Subset.refl _
  | accept t | acceptFails | answer t ok | insert | throws | lose t | interrupt =>
      exact List.Subset.refl _

/-! ### The order of the connections -/

/-- Everybody who is connected is in the queue or accepted, once. -/
structure Queued (s : TcpExample ι) : Prop where
  nodup : (s.accepted ++ s.backlog).Nodup
  connected : ∀ t, t ∈ s.accepted ++ s.backlog ↔ (s.client t).isConnected = true

omit [DecidableEq ι] in
/-- A step after which the same ones are connected, in the same order. -/
theorem Queued.move (h : Queued s) (hqueue : s'.accepted ++ s'.backlog = s.accepted ++ s.backlog)
    (hclient : ∀ t, (s'.client t).isConnected = (s.client t).isConnected) : Queued s' := by
  refine ⟨?_, fun t => ?_⟩
  · rw [hqueue]
    exact h.nodup
  · rw [hqueue, hclient]
    exact h.connected t

theorem isConnected_update {f : ι → ClientSite} {x : ClientSite}
    (h : x.isConnected = (f t).isConnected) (u : ι) :
    (Function.update f t x u).isConnected = (f u).isConnected := by
  by_cases hu : u = t
  · subst hu
    rw [Function.update_self, h]
  · rw [Function.update_of_ne hu]

theorem Queued.connect (h : Queued s) (ha : s.enabled (.connect t true)) :
    Queued (s.connectStep pid t true) := by
  have hno : t ∉ s.accepted ++ s.backlog := by
    rw [h.connected, ha.1]
    exact Bool.false_ne_true
  show Queued { s.tell t .send (.request (Buffer.ofNat (pid t))) with backlog := s.backlog ++ [t] }
  refine ⟨?_, fun u => ?_⟩
  · show (s.accepted ++ (s.backlog ++ [t])).Nodup
    rw [← List.append_assoc]
    exact h.nodup.append (List.nodup_singleton t) (List.disjoint_singleton.mpr hno)
  · show u ∈ s.accepted ++ (s.backlog ++ [t]) ↔
      (Function.update s.client t .send u).isConnected = true
    rw [← List.append_assoc, List.mem_append, h.connected, List.mem_singleton]
    by_cases hu : u = t
    · subst hu
      simp [ClientSite.isConnected]
    · simp [hu]

theorem Queued.step (h : Queued s) (ha : s.enabled a) : Queued (s.step serverPid pid a) := by
  cases a with
  | connect t ok =>
      cases ok with
      | true => exact h.connect ha
      | false => exact h.move rfl (isConnected_update (by rw [ha.1]; rfl))
  | send t ok =>
      have hat : s.client t = .send := ha
      cases ok <;> exact h.move rfl (isConnected_update (by rw [hat]; rfl))
  | recv t r => exact h.move rfl (isConnected_update (by rw [ha.1]; rfl))
  | close t ok =>
      have hat : s.client t = .close := ha
      cases ok <;> exact h.move rfl (isConnected_update (by rw [hat]; rfl))
  | accept t =>
      refine h.move ?_ fun _ => rfl
      obtain ⟨rest, hrest⟩ := List.head?_eq_some_iff.mp ha.2
      show s.accepted ++ [t] ++ s.backlog.tail = s.accepted ++ s.backlog
      rw [hrest, List.append_assoc]
      rfl
  | serve t r =>
      show Queued (s.serveStep serverPid t r)
      unfold serveStep
      cases (Server.serve serverPid r).printed <;> exact h.move rfl fun _ => rfl
  | closeClient t ok => cases ok <;> exact h.move rfl fun _ => rfl
  | acceptFails | answer t ok | insert | throws | lose t | interrupt =>
      exact h.move rfl fun _ => rfl

theorem queued (h : (machine serverPid pid).Reachable s) : Queued s := by
  refine h.invariant (P := Queued) ?_ fun _ _ _ hs ha => hs.step ha
  exact ⟨List.nodup_nil, fun t => iff_of_false List.not_mem_nil Bool.false_ne_true⟩

/-! ### What the server prints -/

/-- The server's lines about one connection. -/
def lines (serverPid : Nat) : ι × Option (List UInt8) → List ServerPiece
  | (_, some text) => connectedLine ++ talkLines serverPid text
  | (_, none) => connectedLine ++ [.errorReceiving]

/-- A piece of a line about a connection. -/
def isTalk : ServerPiece → Bool
  | .clientConnected | .clientRequest | .serverResponse | .text _ | .endl | .errorReceiving => true
  | .errorClosing | .connectionFailed | .terminating | .cerrEndl => false

/-- Who was accepted and not received from, with the server where it is. -/
def Turn (pend : List ι) : ServerSite ι → Prop
  | .recv t => pend = [t]
  | .exited => pend.length ≤ 1
  | .accept | .send _ | .close _ | .throwing | .threw => pend = []

/-- The lines about all who were accepted. -/
def groups (serverPid : Nat) (rounds : List (ι × Option (List UInt8))) (pend : List ι) :
    List (List ServerPiece) :=
  rounds.map (lines serverPid) ++ pend.map fun _ => connectedLine

/-- The server's lines about connections are one group for each of them.  What is missing is the end
of the last one. -/
structure Served (serverPid : Nat) (s : TcpExample ι) (pend : List ι) : Prop where
  accepted : s.accepted = s.rounds.map Prod.fst ++ pend
  turn : Turn pend s.server
  talk : s.serverOutput.filter isTalk ++ s.pending.filter isTalk =
    (groups serverPid s.rounds pend).flatten
  cut : s.pending.filter isTalk <:+ (groups serverPid s.rounds pend).getLastD []

variable {pend : List ι}

omit [DecidableEq ι] in
theorem Turn.length_le {x : ServerSite ι} (h : Turn pend x) : pend.length ≤ 1 := by
  cases x with
  | exited => exact h
  | recv t =>
      obtain rfl : pend = [t] := h
      exact le_rfl
  | accept | send t | close t | throwing | threw =>
      obtain rfl : pend = [] := h
      exact Nat.zero_le 1

omit [DecidableEq ι] in
/-- A step that ends no round and accepts nobody, and has nothing to say of a connection. -/
theorem Served.move (h : Served serverPid s pend) (haccepted : s'.accepted = s.accepted)
    (hrounds : s'.rounds = s.rounds) (houtput : s'.serverOutput = s.serverOutput)
    (hpending : s'.pending.filter isTalk = s.pending.filter isTalk) (hturn : Turn pend s'.server) :
    Served serverPid s' pend := by
  refine ⟨?_, hturn, ?_, ?_⟩
  · rw [haccepted, hrounds]
    exact h.accepted
  · rw [houtput, hpending, hrounds]
    exact h.talk
  · rw [hpending, hrounds]
    exact h.cut

omit [DecidableEq ι] in
/-- What a server that has nothing to insert has said. -/
theorem Served.said (h : Served serverPid s pend) (hnil : s.pending = []) :
    s.serverOutput.filter isTalk = (groups serverPid s.rounds pend).flatten := by
  have htalk := h.talk
  rwa [hnil, List.filter_nil, List.append_nil] at htalk

theorem Served.accept (h : Served serverPid s pend) (hat : s.server = .accept)
    (hnil : s.pending = []) : Served serverPid (s.step serverPid pid (.accept t)) [t] := by
  have hturn := h.turn
  rw [hat] at hturn
  obtain rfl : pend = [] := hturn
  have haccepted := h.accepted
  have hsaid := h.said hnil
  rw [List.append_nil] at haccepted
  rw [groups, List.map_nil, List.append_nil] at hsaid
  refine ⟨?_, rfl, ?_, ?_⟩
  · show s.accepted ++ [t] = s.rounds.map Prod.fst ++ [t]
    rw [haccepted]
  · show s.serverOutput.filter isTalk ++ connectedLine =
      (s.rounds.map (lines serverPid) ++ [connectedLine]).flatten
    rw [hsaid, List.flatten_concat]
  · show connectedLine <:+ (s.rounds.map (lines serverPid) ++ [connectedLine]).getLastD []
    have hlast : (s.rounds.map (lines serverPid) ++ [connectedLine]).getLastD [] = connectedLine :=
      List.getLastD_concat
    exact ⟨[], hlast.symm⟩

omit [DecidableEq ι] in
theorem Served.serve (h : Served serverPid s pend) (hat : s.server = .recv t)
    (hnil : s.pending = []) : Served serverPid (s.serveStep serverPid t r) [] := by
  have hturn := h.turn
  rw [hat] at hturn
  obtain rfl : pend = [t] := hturn
  have haccepted := h.accepted
  have hsaid := h.said hnil
  have hall : (groups serverPid s.rounds [t]).flatten =
      (s.rounds.map (lines serverPid)).flatten ++ connectedLine := by
    simp [groups]
  rw [hall] at hsaid
  have hgroups : ∀ printed, groups serverPid (s.rounds ++ [(t, printed)]) [] =
      s.rounds.map (lines serverPid) ++ [lines serverPid (t, printed)] := by
    simp [groups]
  unfold serveStep
  cases (Server.serve serverPid r).printed with
  | none =>
      refine ⟨?_, rfl, ?_, ?_⟩
      · simpa [goServer] using haccepted
      · show s.serverOutput.filter isTalk ++ [.errorReceiving] =
          (groups serverPid (s.rounds ++ [(t, none)]) []).flatten
        rw [hgroups, hsaid, List.flatten_append]
        simp [lines]
      · show [ServerPiece.errorReceiving] <:+
          (groups serverPid (s.rounds ++ [(t, none)]) []).getLastD []
        rw [hgroups, List.getLastD_concat]
        exact List.suffix_append _ _
  | some text =>
      refine ⟨?_, rfl, ?_, ?_⟩
      · simpa [goServer] using haccepted
      · show s.serverOutput.filter isTalk ++ talkLines serverPid text =
          (groups serverPid (s.rounds ++ [(t, some text)]) []).flatten
        rw [hgroups, hsaid, List.flatten_append]
        simp [lines]
      · show talkLines serverPid text <:+
          (groups serverPid (s.rounds ++ [(t, some text)]) []).getLastD []
        rw [hgroups, List.getLastD_concat]
        exact List.suffix_append _ _

theorem Served.insert (h : Served serverPid s pend) (hne : s.pending ≠ []) :
    Served serverPid (s.step serverPid pid .insert) pend := by
  obtain ⟨x, rest, hrest⟩ := List.exists_cons_of_ne_nil hne
  have htalk := h.talk
  have hcut := h.cut
  rw [hrest, ← List.singleton_append, List.filter_append] at htalk hcut
  refine ⟨h.accepted, h.turn, ?_, ?_⟩
  · show (s.serverOutput ++ s.pending.head?.toList).filter isTalk ++
      s.pending.tail.filter isTalk = (groups serverPid s.rounds pend).flatten
    rw [hrest, List.filter_append, List.append_assoc]
    exact htalk
  · show s.pending.tail.filter isTalk <:+ _
    rw [hrest]
    exact (List.suffix_append _ _).trans hcut

theorem Served.step (h : Served serverPid s pend) (ha : s.enabled a) :
    ∃ pend, Served serverPid (s.step serverPid pid a) pend := by
  have hturn : ∀ {x}, s.server = x → Turn pend x := by
    rintro x rfl
    exact h.turn
  by_cases hclient : isClient a
  · have hframe := @clientStep_frame _ _ serverPid pid s a hclient
    refine ⟨pend, h.move hframe.accepted hframe.rounds hframe.serverOutput ?_ ?_⟩
    · rw [hframe.pending]
    · rw [hframe.server]
      exact h.turn
  cases a with
  | connect t ok | send t ok | recv t r | close t ok => exact absurd trivial hclient
  | accept t => exact ⟨_, h.accept ha.1.1 ha.1.2⟩
  | serve t r => exact ⟨_, h.serve ha.1.1 ha.1.2⟩
  | insert => exact ⟨pend, h.insert ha.2⟩
  | acceptFails | throws | answer t ok =>
      obtain ⟨hat, hnil⟩ := ha
      have hnobody : pend = [] := hturn hat
      exact ⟨pend, h.move rfl rfl rfl (by rw [hnil]; rfl) hnobody⟩
  | closeClient t ok =>
      obtain ⟨hat, hnil⟩ := ha
      have hnobody : pend = [] := hturn hat
      cases ok <;> exact ⟨pend, h.move rfl rfl rfl (by rw [hnil]; rfl) hnobody⟩
  | lose t => exact ⟨pend, h.move rfl rfl rfl rfl h.turn⟩
  | interrupt =>
      refine ⟨pend, h.accepted, h.turn.length_le, ?_, h.cut⟩
      have hlast : [ServerPiece.terminating, .cerrEndl].filter isTalk = [] := rfl
      show (s.serverOutput ++ [ServerPiece.terminating, .cerrEndl]).filter isTalk ++ _ = _
      rw [List.filter_append, hlast, List.append_nil]
      exact h.talk

theorem served (h : (machine serverPid pid).Reachable s) : ∃ pend, Served serverPid s pend := by
  refine h.invariant (P := fun s => ∃ pend, Served serverPid s pend) ?_ ?_
  · exact ⟨[], rfl, rfl, rfl, List.suffix_refl _⟩
  · rintro s a - ⟨pend, hs⟩ ha
    exact hs.step ha

/-! ### What the server has received -/

/-- What has come to the server, and what it has printed of it. -/
structure Heard (pid : ι → Nat) (s : TcpExample ι) : Prop where
  request : ∀ t, s.request t = [] ∨ s.request t = Buffer.ofNat (pid t)
  sent : ∀ t, s.client t = .recv → s.request t = Buffer.ofNat (pid t)
  rounds : ∀ t text, (t, some text) ∈ s.rounds → text ≠ [] ∧ text <+: Buffer.ofNat (pid t)

/-- The step of a client that does not send. -/
theorem Heard.tell (h : Heard pid s) {x : ClientSite} (hx : x ≠ .recv) (line : ClientLine)
    (backlog : List ι) : Heard pid { s.tell t x line with backlog := backlog } := by
  refine ⟨h.request, fun u hu => ?_, h.rounds⟩
  have hat : Function.update s.client t x u = .recv := hu
  by_cases hut : u = t
  · rw [hut, Function.update_self] at hat
    exact absurd hat hx
  · rw [Function.update_of_ne hut] at hat
    exact h.sent u hat

theorem Heard.send (h : Heard pid s) : Heard pid (s.sendStep pid t true) := by
  show Heard pid { s with
    client := Function.update s.client t .recv
    request := Function.update s.request t (Buffer.ofNat (pid t)) }
  refine ⟨fun u => ?_, fun u hu => ?_, h.rounds⟩
  · show Function.update s.request t (Buffer.ofNat (pid t)) u = [] ∨
      Function.update s.request t (Buffer.ofNat (pid t)) u = Buffer.ofNat (pid u)
    by_cases hut : u = t
    · rw [hut]
      exact Or.inr (Function.update_self ..)
    · rw [Function.update_of_ne hut]
      exact h.request u
  · have hat : Function.update s.client t .recv u = .recv := hu
    show Function.update s.request t (Buffer.ofNat (pid t)) u = _
    by_cases hut : u = t
    · rw [hut]
      exact Function.update_self ..
    · rw [Function.update_of_ne hut] at hat ⊢
      exact h.sent u hat

omit [DecidableEq ι] in
theorem Heard.zero_notMem (h : Heard pid s) (t : ι) : 0 ∉ s.request t := by
  rcases h.request t with hnil | hpid
  · rw [hnil]
    exact List.not_mem_nil
  · rw [hpid]
    exact Buffer.zero_notMem_ofNat _

omit [DecidableEq ι] in
/-- What is printed is a part of the process id. -/
theorem Heard.part (h : Heard pid s) {text : List UInt8} (hne : text ≠ [])
    (hpre : text <+: s.request t) : text ≠ [] ∧ text <+: Buffer.ofNat (pid t) := by
  rcases h.request t with hnil | hpid
  · rw [hnil] at hpre
    exact absurd (List.prefix_nil.mp hpre) hne
  · rw [hpid] at hpre
    exact ⟨hne, hpre⟩

omit [DecidableEq ι] in
theorem Heard.serve (h : Heard pid s) (ha : s.enabled (.serve t r)) :
    Heard pid (s.serveStep serverPid t r) := by
  have hprinted := Server.serve_printed serverPid (h.zero_notMem t) ha.2
  refine ⟨?_, ?_, fun u text hmem => ?_⟩
  · unfold serveStep
    cases (Server.serve serverPid r).printed <;> exact h.request
  · unfold serveStep
    cases (Server.serve serverPid r).printed <;> exact h.sent
  · have hmem' : (u, some text) ∈ s.rounds ++ [(t, (Server.serve serverPid r).printed)] := hmem
    rcases List.mem_append.mp hmem' with hold | hnew
    · exact h.rounds u text hold
    · obtain ⟨rfl, htext⟩ := Prod.mk.inj (List.mem_singleton.mp hnew)
      rw [← htext] at hprinted
      cases hprinted with
      | text hne hpre => exact h.part hne hpre

theorem Heard.step (h : Heard pid s) (ha : s.enabled a) : Heard pid (s.step serverPid pid a) := by
  cases a with
  | connect t ok =>
      cases ok with
      | true => exact h.tell (by decide) _ _
      | false => exact h.tell (by decide) _ s.backlog
  | send t ok =>
      cases ok with
      | true => exact h.send
      | false => exact h.tell (by decide) _ s.backlog
  | recv t r => exact h.tell (by decide) _ s.backlog
  | close t ok => cases ok <;> exact h.tell (by decide) _ s.backlog
  | serve t r => exact h.serve ha
  | closeClient t ok => cases ok <;> exact ⟨h.request, h.sent, h.rounds⟩
  | accept t | acceptFails | answer t ok | insert | throws | lose t | interrupt =>
      exact ⟨h.request, h.sent, h.rounds⟩

theorem heard (h : (machine serverPid pid).Reachable s) : Heard pid s := by
  refine h.invariant (P := Heard pid) ?_ fun _ _ _ hs ha => hs.step ha
  exact ⟨fun _ => Or.inl rfl, fun _ => nofun, fun _ _ hmem => absurd hmem List.not_mem_nil⟩

/-! ### What the clients have received -/

/-- The server has received the client's request, and answered or is about to. -/
def IsHeard (s : TcpExample ι) (t : ι) : Prop := ∃ text, (t, some text) ∈ s.rounds

/-- What the server sent is what has come to the client, or nothing. -/
structure Answered (serverPid : Nat) (s : TcpExample ι) : Prop where
  answer : ∀ t, s.answer t = [] ∨ s.answer t = Buffer.ofNat serverPid ∧ s.IsHeard t
  sending : ∀ t, s.server = .send t → s.IsHeard t

omit [DecidableEq ι] in
theorem IsHeard.mono (h : s.IsHeard t) (hrounds : s.rounds ⊆ s'.rounds) : s'.IsHeard t := by
  obtain ⟨text, hmem⟩ := h
  exact ⟨text, hrounds hmem⟩

omit [DecidableEq ι] in
/-- A step that sends nothing to a client. -/
theorem Answered.move (h : Answered serverPid s) (hanswer : s'.answer = s.answer)
    (hrounds : s.rounds ⊆ s'.rounds) (hsending : ∀ t, s'.server = .send t → s'.IsHeard t) :
    Answered serverPid s' := by
  refine ⟨fun t => ?_, hsending⟩
  rw [hanswer]
  exact (h.answer t).imp_right fun hsome => ⟨hsome.1, hsome.2.mono hrounds⟩

omit [DecidableEq ι] in
theorem Answered.serve (h : Answered serverPid s) :
    Answered serverPid (s.serveStep serverPid t r) := by
  have hrounds : s.rounds ⊆ (s.serveStep serverPid t r).rounds := List.subset_append_left _ _
  unfold serveStep at hrounds ⊢
  cases hprinted : (Server.serve serverPid r).printed with
  | none => exact h.move rfl (hprinted ▸ hrounds) nofun
  | some text =>
      refine h.move rfl (hprinted ▸ hrounds) fun u hu => ?_
      obtain rfl : t = u := by simpa [goServer] using hu
      exact ⟨text, List.mem_append_right _ (List.mem_singleton.mpr rfl)⟩

theorem Answered.send (h : Answered serverPid s) (hat : s.server = .send t) :
    Answered serverPid (s.step serverPid pid (.answer t true)) := by
  refine ⟨fun u => ?_, nofun⟩
  show Function.update s.answer t (Buffer.ofNat serverPid) u = [] ∨
    Function.update s.answer t (Buffer.ofNat serverPid) u = Buffer.ofNat serverPid ∧ s.IsHeard u
  by_cases hut : u = t
  · subst hut
    exact Or.inr ⟨Function.update_self .., h.sending u hat⟩
  · rw [Function.update_of_ne hut]
    exact h.answer u

theorem Answered.lose (h : Answered serverPid s) :
    Answered serverPid (s.step serverPid pid (.lose t)) := by
  refine ⟨fun u => ?_, h.sending⟩
  show Function.update s.answer t [] u = [] ∨
    Function.update s.answer t [] u = Buffer.ofNat serverPid ∧ s.IsHeard u
  by_cases hut : u = t
  · subst hut
    exact Or.inl (Function.update_self ..)
  · rw [Function.update_of_ne hut]
    exact h.answer u

theorem Answered.step (h : Answered serverPid s) (ha : s.enabled a) :
    Answered serverPid (s.step serverPid pid a) := by
  by_cases hclient : isClient a
  · have hframe := @clientStep_frame _ _ serverPid pid s a hclient
    have hrounds : s.rounds ⊆ (s.step serverPid pid a).rounds := rounds_subset s a
    refine h.move hframe.answer hrounds fun t ht => ?_
    rw [hframe.server] at ht
    exact (h.sending t ht).mono hrounds
  cases a with
  | connect t ok | send t ok | recv t r | close t ok => exact absurd trivial hclient
  | accept t | acceptFails | throws | interrupt => exact h.move rfl (List.Subset.refl _) nofun
  | insert => exact h.move rfl (List.Subset.refl _) h.sending
  | serve t r => exact h.serve
  | answer t ok =>
      cases ok with
      | true => exact h.send ha.1
      | false => exact h.move rfl (List.Subset.refl _) nofun
  | closeClient t ok => cases ok <;> exact h.move rfl (List.Subset.refl _) nofun
  | lose t => exact h.lose

theorem answered (h : (machine serverPid pid).Reachable s) : Answered serverPid s := by
  refine h.invariant (P := Answered serverPid) ?_ fun _ _ _ hs ha => hs.step ha
  exact ⟨fun _ => Or.inl rfl, fun _ => nofun⟩

/-! ### What the clients print -/

/-- What a client prints of its request's fate. -/
def Outcome (serverPid : Nat) (s : TcpExample ι) (t : ι) : ClientLine → Prop
  | .errorSending | .errorReceiving => True
  | .response text => text ≠ [] ∧ text <+: Buffer.ofNat serverPid ∧ s.IsHeard t
  | .errorConnecting | .request _ | .errorClosing | .jobDone => False

/-- The client has printed its request and what became of it, and then `l`. -/
def HasTold (serverPid : Nat) (pid : ι → Nat) (s : TcpExample ι) (t : ι) (l : List ClientLine) :
    Prop :=
  ∃ x, Outcome serverPid s t x ∧ s.clientOutput t = .request (Buffer.ofNat (pid t)) :: x :: l

/-- What a client has printed, where it is. -/
def Tells (serverPid : Nat) (pid : ι → Nat) (s : TcpExample ι) (t : ι) : ClientSite → Prop
  | .connect => s.clientOutput t = []
  | .refused => s.clientOutput t = [.errorConnecting]
  | .send | .recv => s.clientOutput t = [.request (Buffer.ofNat (pid t))]
  | .close => HasTold serverPid pid s t []
  | .done => HasTold serverPid pid s t [.jobDone]
  | .threw => HasTold serverPid pid s t [.errorClosing]

variable {x : ClientSite}

omit [DecidableEq ι] in
theorem Outcome.mono {line : ClientLine} (h : Outcome serverPid s t line)
    (hrounds : s.rounds ⊆ s'.rounds) : Outcome serverPid s' t line := by
  cases line with
  | errorSending | errorReceiving => trivial
  | response text => exact ⟨h.1, h.2.1, h.2.2.mono hrounds⟩
  | errorConnecting | request text | errorClosing | jobDone => exact h.elim

omit [DecidableEq ι] in
theorem Tells.mono (h : Tells serverPid pid s t x) (houtput : s'.clientOutput t = s.clientOutput t)
    (hrounds : s.rounds ⊆ s'.rounds) : Tells serverPid pid s' t x := by
  have told : ∀ {l}, HasTold serverPid pid s t l → HasTold serverPid pid s' t l := by
    rintro l ⟨line, hline, hl⟩
    exact ⟨line, hline.mono hrounds, houtput.trans hl⟩
  cases x with
  | connect | refused | send | recv => exact houtput.trans h
  | close | done | threw => exact told h

/-- A line that the client prints on its way to `y`. -/
theorem tells_tell (h : ∀ u, Tells serverPid pid s u (s.client u)) (y : ClientSite)
    (line : ClientLine) (hself : Tells serverPid pid (s.tell t y line) t y) (u : ι) :
    Tells serverPid pid (s.tell t y line) u ((s.tell t y line).client u) := by
  by_cases hut : u = t
  · subst hut
    rw [show (s.tell u y line).client u = y from Function.update_self ..]
    exact hself
  · rw [show (s.tell t y line).client u = s.client u from Function.update_of_ne hut ..]
    exact (h u).mono (Function.update_of_ne hut ..) (List.Subset.refl _)

omit [DecidableEq ι] in
theorem Answered.zero_notMem (h : Answered serverPid s) (t : ι) : 0 ∉ s.answer t := by
  rcases h.answer t with hnil | ⟨hpid, -⟩
  · rw [hnil]
    exact List.not_mem_nil
  · rw [hpid]
    exact Buffer.zero_notMem_ofNat _

/-- What the client prints of its receive. -/
def received (r : Received) : ClientLine :=
  match (Client.receive r).printed with
  | some text => .response text
  | none => .errorSending

omit [DecidableEq ι] in
theorem Answered.received (h : Answered serverPid s) (ha : s.enabled (.recv t r)) :
    Outcome serverPid s t (received r) := by
  have hprinted := Client.receive_printed (h.zero_notMem t) ha.2
  unfold TcpExample.received
  cases htext : (Client.receive r).printed with
  | none => trivial
  | some text =>
      rw [htext] at hprinted
      cases hprinted with
      | text hne hpre =>
          rcases h.answer t with hnil | ⟨hpid, hheard⟩
          · rw [hnil] at hpre
            exact absurd (List.prefix_nil.mp hpre) hne
          · rw [hpid] at hpre
            exact ⟨hne, hpre, hheard⟩

/-- One more line of a client. -/
theorem clientOutput_tell (s : TcpExample ι) (t : ι) (y : ClientSite) (line : ClientLine) :
    (s.tell t y line).clientOutput t = s.clientOutput t ++ [line] := Function.update_self ..

/-- The line that says what became of the request. -/
theorem hasTold_tell {y : ClientSite} {line : ClientLine} (hline : Outcome serverPid s t line)
    (hout : s.clientOutput t = [.request (Buffer.ofNat (pid t))]) :
    HasTold serverPid pid (s.tell t y line) t [] := by
  refine ⟨line, hline.mono (List.Subset.refl _), ?_⟩
  rw [clientOutput_tell, hout]
  rfl

/-- The last line. -/
theorem HasTold.tell {y : ClientSite} (h : HasTold serverPid pid s t []) (line : ClientLine) :
    HasTold serverPid pid (s.tell t y line) t [line] := by
  obtain ⟨x, hx, hout⟩ := h
  refine ⟨x, hx.mono (List.Subset.refl _), ?_⟩
  rw [clientOutput_tell, hout]
  rfl

theorem tells_client (h : ∀ u, Tells serverPid pid s u (s.client u))
    (hanswered : Answered serverPid s) (hclient : isClient a) (ha : s.enabled a) (u : ι) :
    Tells serverPid pid (s.step serverPid pid a) u ((s.step serverPid pid a).client u) := by
  cases a with
  | connect t ok =>
      have hself := h t
      rw [ha.1] at hself
      have hnil : s.clientOutput t = [] := hself
      cases ok with
      | true =>
          refine (tells_tell h .send _ ?_ u).mono rfl (List.Subset.refl _)
          rw [Tells, clientOutput_tell, hnil]
          rfl
      | false =>
          refine tells_tell h .refused _ ?_ u
          rw [Tells, clientOutput_tell, hnil]
          rfl
  | send t ok =>
      have hat : s.client t = .send := ha
      have hself := h t
      rw [hat] at hself
      cases ok with
      | true =>
          have hclient : (s.step serverPid pid (.send t true)).client =
            Function.update s.client t .recv := rfl
          rw [hclient]
          refine Tells.mono ?_ rfl (List.Subset.refl _)
          by_cases hut : u = t
          · subst hut
            rw [Function.update_self]
            exact hself
          · rw [Function.update_of_ne hut]
            exact h u
      | false =>
          have hline : Outcome serverPid s t .errorReceiving := trivial
          exact tells_tell h .close _ (hasTold_tell hline hself) u
  | recv t r =>
      have hself := h t
      rw [ha.1] at hself
      exact tells_tell h .close _ (hasTold_tell (hanswered.received ha) hself) u
  | close t ok =>
      have hat : s.client t = .close := ha
      have hself := h t
      rw [hat] at hself
      cases ok with
      | true => exact tells_tell h .done _ (HasTold.tell hself .jobDone) u
      | false => exact tells_tell h .threw _ (HasTold.tell hself .errorClosing) u
  | accept t | acceptFails | serve t r | answer t ok | closeClient t ok | insert | throws | lose t
  | interrupt => exact hclient.elim

theorem tells (h : (machine serverPid pid).Reachable s) (t : ι) :
    Tells serverPid pid s t (s.client t) := by
  revert t
  refine h.invariant (P := fun s => ∀ t, Tells serverPid pid s t (s.client t)) ?_ ?_
  · exact fun _ => rfl
  · intro s a hr hs ha u
    by_cases hclient : isClient a
    · exact tells_client hs (answered hr) hclient ha u
    · have hframe := @serverStep_frame _ _ serverPid pid s a hclient
      show Tells serverPid pid (s.step serverPid pid a) u ((s.step serverPid pid a).client u)
      rw [hframe.client]
      exact (hs u).mono (congrFun hframe.clientOutput u) (rounds_subset s a)

/-! ### All connections -/

attribute [local instance] neZeroTwo

/-- The server's process id is 5 below, and those of its clients are 71 and 72. -/
def pids (t : Fin 2) : Nat := 71 + t

/-- `SIGINT` comes before the end of the first line. -/
example : ((machine 5 pids).after (machine 5 pids).init
    [.connect 0 true, .accept 0, .insert, .interrupt]).serverOutput =
    [.clientConnected, .terminating, .cerrEndl] := by decide +kernel

end LinuxSystems.TcpExample
