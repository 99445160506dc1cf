/-
What the two threads of the socket program print.

The server numbers its calls, and shows of each what it returned.  The client numbers its own.
Nothing tells it of a call that failed, and it prints what is in the array of `recv_from`: a line
shows what the calls up to it have left there.

Where nobody else sends to the port, that is nothing until the first message is received and
the message ever after.  So of the client's ten lines some number are empty, and the others show
the message, whole.
-/
import LinuxSystems.CoroutineSocket.Model

namespace LinuxSystems

open CoroutineSocket Enumeration

namespace CoroutineSocket

variable {s : CoroutineSocket} {a : Action} {t u : Thread} {tr : List Action} {i : ℕ}

/-- Lines with their numbers. -/
def numbered {α : Type*} (line : ℕ → α → List Piece) (l : List α) : List Piece :=
  (l.mapIdx fun i x => line (i + 1) x).flatten

theorem numbered_concat {α : Type*} (line : ℕ → α → List Piece) (l : List α) (x : α) :
    numbered line (l ++ [x]) = numbered line l ++ line (l.length + 1) x := by
  rw [numbered, List.mapIdx_concat, List.flatten_append]
  simp [numbered]

/-- How a call of `sendto` went. -/
def Action.sent? : Action → Option Bool
  | .send ok => some ok
  | _ => none

/-- What a call of `recvfrom` received. -/
def Action.received? : Action → Option Received
  | .recv none => some .failed
  | .recv (some _) => some (.got message)
  | .hear d => some (.got d)
  | _ => none

/-- How the calls of `sendto` went, in their order. -/
def sends (tr : List Action) : List Bool := tr.filterMap Action.sent?

/-- What the calls of `recvfrom` received, in their order. -/
def receptions (tr : List Action) : List Received := tr.filterMap Action.received?

/-- What the receiver returns: nothing for a while, and then the message. -/
def texts (k m : ℕ) : List (Answer (List UInt8)) :=
  List.replicate k (.returned (some [])) ++ List.replicate m (.returned (some message))

/-- The calls that the thread has made. -/
def Site.calls : Site → ℕ
  | .loop i => i - 1
  | .done => rounds
  | .absent | .begin | .exited => 0

/-- The header, once the thread has begun. -/
def Site.header (l : List Piece) : Site → List Piece
  | .absent | .begin | .exited => []
  | .loop _ | .done => l

/-! ### The strings of the receiver -/

/-- What the calls have left in the array. -/
def arrayAfter (calls : List Received) : List UInt8 := calls.foldl RecvFrom.receive RecvFrom.start

theorem answers_concat (tmpBuf : List UInt8) (calls : List Received) (r : Received) :
    RecvFrom.answers tmpBuf (calls ++ [r]) =
      RecvFrom.answers tmpBuf calls ++
        [RecvFrom.yieldValue (RecvFrom.receive (calls.foldl RecvFrom.receive tmpBuf) r)] := by
  induction calls generalizing tmpBuf with
  | nil => rfl
  | cons call calls ih => simp [RecvFrom.answers, ih]

theorem length_answers (tmpBuf : List UInt8) (calls : List Received) :
    (RecvFrom.answers tmpBuf calls).length = calls.length := by
  induction calls generalizing tmpBuf with
  | nil => rfl
  | cons call calls ih => simp [RecvFrom.answers, ih]

/-- The array shows the message, or nothing yet. -/
def shown (m : ℕ) : List UInt8 := if m = 0 then RecvFrom.start else RecvFrom.filled message

theorem zero_notMem_message : 0 ∉ message := by decide

theorem texts_failed (k : ℕ) : texts k 0 ++ [.returned (some [])] = texts (k + 1) 0 := by
  simp [texts, List.replicate_succ']

theorem texts_message (k m : ℕ) :
    texts k m ++ [.returned (some message)] = texts k (m + 1) := by
  rw [texts, texts, List.append_assoc, ← List.replicate_succ']

theorem yieldValue_start : RecvFrom.yieldValue RecvFrom.start = .returned (some []) := by
  rw [← RecvFrom.filled_nil]
  exact RecvFrom.yieldValue_filled List.not_mem_nil (by decide)

theorem yieldValue_message :
    RecvFrom.yieldValue (RecvFrom.filled message) = .returned (some message) :=
  RecvFrom.yieldValue_filled zero_notMem_message (by decide)

theorem receive_message (m : ℕ) :
    RecvFrom.receive (shown m) (.got message) = RecvFrom.filled message := by
  rw [RecvFrom.receive]
  by_cases hm : m = 0
  · rw [shown, if_pos hm, ← RecvFrom.filled_nil]
    exact RecvFrom.receive_longer (Nat.zero_le _) (by decide)
  · rw [shown, if_neg hm]
    exact RecvFrom.receive_longer le_rfl (by decide)

/-- Calls each of which receives the message or fails. -/
theorem answers_texts {calls : List Received}
    (hcalls : ∀ r ∈ calls, r = .failed ∨ r = .got message) :
    ∃ k m, (m ≠ 0 → .got message ∈ calls) ∧
      RecvFrom.answers RecvFrom.start calls = texts k m ∧ arrayAfter calls = shown m := by
  induction calls using List.reverseRecOn with
  | nil => exact ⟨0, 0, fun h => absurd rfl h, rfl, rfl⟩
  | append_singleton calls r ih =>
      obtain ⟨k, m, hgot, htexts, hleft⟩ :=
        ih fun r hr => hcalls r (List.mem_append_left _ hr)
      have hnext : arrayAfter (calls ++ [r]) = RecvFrom.receive (shown m) r := by
        rw [← hleft]
        simp [arrayAfter]
      rw [answers_concat, htexts, hnext]
      rw [arrayAfter] at hleft
      rw [hleft]
      rcases hcalls r (List.mem_append_right _ List.mem_cons_self) with rfl | rfl
      · -- the array is as it was
        by_cases hm : m = 0
        · subst hm
          refine ⟨k + 1, 0, fun h => absurd rfl h, ?_, rfl⟩
          rw [← texts_failed, RecvFrom.receive, shown, if_pos rfl, yieldValue_start]
        · refine ⟨k, m + 1, fun _ => List.mem_append_left _ (hgot hm), ?_, ?_⟩
          · rw [← texts_message, RecvFrom.receive, shown, if_neg hm, yieldValue_message]
          · rw [RecvFrom.receive, shown, shown, if_neg hm, if_neg (Nat.succ_ne_zero m)]
      · refine ⟨k, m + 1, fun _ => List.mem_append_right _ List.mem_cons_self, ?_, ?_⟩
        · rw [receive_message, yieldValue_message, texts_message]
        · rw [receive_message, shown, if_neg (Nat.succ_ne_zero m)]

/-! ### What every step keeps -/

/-- What was sent, received and printed in a run. -/
structure Told (tr : List Action) (s : CoroutineSocket) : Prop where
  net : ∀ d ∈ s.net, d = message
  sendCalls : (sends tr).length = (s.site .server).calls
  server : s.out .server = (s.site .server).header [.sendTo] ++ numbered sendLine (sends tr)
  recvCalls : (receptions tr).length = (s.site .client).calls
  client : s.out .client = (s.site .client).header [.recvFrom, .endl] ++
    numbered recvLine (RecvFrom.answers RecvFrom.start (receptions tr))
  tmpBuf : s.tmpBuf = arrayAfter (receptions tr)
  /-- Nothing is received that was not sent. -/
  sent : s.net ≠ [] ∨ (∃ k, .recv (some k) ∈ tr) → true ∈ sends tr

theorem sends_snoc (tr : List Action) (a : Action) :
    sends (tr ++ [a]) = sends tr ++ a.sent?.toList := Machine.filterMap_snoc _ tr a

theorem receptions_snoc (tr : List Action) (a : Action) :
    receptions (tr ++ [a]) = receptions tr ++ a.received?.toList := Machine.filterMap_snoc _ tr a

/-- Nothing new is on its way, and nothing was received. -/
theorem Told.still_sent {net : List (List UInt8)} (hs : Told tr s) (hnet : ∀ d ∈ net, d ∈ s.net)
    (hreceived : a.received? = none) (h : net ≠ [] ∨ ∃ k, .recv (some k) ∈ tr ++ [a]) :
    true ∈ sends tr := by
  refine hs.sent ?_
  rcases h with h | ⟨k, hk⟩
  · obtain ⟨d, hd⟩ := List.exists_mem_of_ne_nil _ h
    exact Or.inl (List.ne_nil_of_mem (hnet d hd))
  · rcases List.mem_append.mp hk with hk | hk
    · exact Or.inr ⟨k, hk⟩
    · rw [← List.mem_singleton.mp hk] at hreceived
      exact absurd hreceived (by simp [Action.received?])

/-- A step that is no call, and inserts nothing new. -/
theorem Told.frame {s' : CoroutineSocket} (hs : Told tr s) (hsent : a.sent? = none)
    (hreceived : a.received? = none) (hcalls : ∀ u, (s'.site u).calls = (s.site u).calls)
    (hheader : ∀ u l, (s'.site u).header l = (s.site u).header l) (hnet : ∀ d ∈ s'.net, d ∈ s.net)
    (htmpBuf : s'.tmpBuf = s.tmpBuf) (hout : ∀ u, s'.out u = s.out u) : Told (tr ++ [a]) s' := by
  have hsends : sends (tr ++ [a]) = sends tr := by
    rw [sends_snoc, hsent]
    exact List.append_nil _
  have hreceptions : receptions (tr ++ [a]) = receptions tr := by
    rw [receptions_snoc, hreceived]
    exact List.append_nil _
  refine ⟨fun d hd => hs.net d (hnet d hd), ?_, ?_, ?_, ?_, ?_, ?_⟩
  · rw [hsends, hcalls, hs.sendCalls]
  · rw [hsends, hheader, hout, hs.server]
  · rw [hreceptions, hcalls, hs.recvCalls]
  · rw [hreceptions, hheader, hout, hs.client]
  · rw [hreceptions, htmpBuf, hs.tmpBuf]
  · rw [hsends]
    exact hs.still_sent hnet hreceived

/-- A thread goes on to a place where it has made as many calls. -/
theorem Told.goto {x : Site} (hs : Told tr s) (hsent : a.sent? = none)
    (hreceived : a.received? = none) (hcalls : x.calls = (s.site t).calls)
    (hheader : ∀ l, x.header l = (s.site t).header l) : Told (tr ++ [a]) (s.goto t x) := by
  refine hs.frame hsent hreceived (fun u => ?_) (fun u l => ?_) (fun d hd => hd) rfl fun u => rfl
  · by_cases hut : u = t
    · subst hut
      simpa [CoroutineSocket.goto] using hcalls
    · simp [CoroutineSocket.goto, hut]
  · by_cases hut : u = t
    · subst hut
      simpa [CoroutineSocket.goto] using hheader l
    · simp [CoroutineSocket.goto, hut]

theorem Told.mainStep (hs : Told tr s) (hstage : Staged s) : Told (tr ++ [.main]) s.mainStep := by
  have habsent := hstage.absent_iff
  have hkeep : ∀ x, Told (tr ++ [.main]) { s with main := x } := fun x =>
    hs.frame rfl rfl (fun u => rfl) (fun u l => rfl) (fun d hd => hd) rfl fun u => rfl
  have hmake : ∀ t : Thread, s.site t = .absent → Told (tr ++ [.main]) (s.goto t .begin) :=
    fun t hsite => hs.goto rfl rfl (by rw [hsite]; rfl) fun l => by rw [hsite]; rfl
  cases hmain : s.main with
  | returned | thrown =>
      simp only [CoroutineSocket.mainStep, hmain]
      exact hkeep s.main
  | opening | joinServer | joinClient | close =>
      simp only [CoroutineSocket.mainStep, hmain]
      exact hkeep _
  | makeServer =>
      have hsite : s.site .server = .absent := by
        simp [habsent, hmain, MainSite.stage, Thread.makeStage]
      have hmade := hmake .server hsite
      simp only [CoroutineSocket.mainStep, hmain]
      exact { hmade with }
  | makeClient =>
      have hsite : s.site .client = .absent := by
        simp [habsent, hmain, MainSite.stage, Thread.makeStage]
      have hmade := hmake .client hsite
      simp only [CoroutineSocket.mainStep, hmain]
      exact { hmade with }

/-- A thread that begins. -/
theorem Told.begun {l : List Piece} (hs : Told tr s) (hstage : Staged s) (hsite : s.site t = .begin)
    (hsent : a.sent? = none) (hreceived : a.received? = none)
    (hl : l = if t = .server then [.sendTo] else [.recvFrom, .endl]) :
    Told (tr ++ [a]) ((s.say t l).goto t (.loop 1)) := by
  have hpending : s.pending t = [] := hstage.quiet t (Or.inr (Or.inl hsite))
  have hsends : sends (tr ++ [a]) = sends tr := by
    rw [sends_snoc, hsent]
    exact List.append_nil _
  have hreceptions : receptions (tr ++ [a]) = receptions tr := by
    rw [receptions_snoc, hreceived]
    exact List.append_nil _
  have hout : ∀ u, ((s.say t l).goto t (.loop 1)).out u = (s.say t l).out u := fun u => rfl
  cases t with
  | server =>
      have hnone := hs.sendCalls
      rw [hsite] at hnone
      have hnil : sends tr = [] := List.length_eq_zero_iff.mp hnone
      refine ⟨hs.net, ?_, ?_, ?_, ?_, ?_, ?_⟩
      · rw [hsends, hnil]
        simp [CoroutineSocket.goto, Site.calls]
      · rw [hsends, hnil, hout, out_say _ hpending, hs.server, hsite, hnil, hl]
        simp [CoroutineSocket.goto, Site.header, numbered]
      · rw [hreceptions, hs.recvCalls]
        simp [CoroutineSocket.goto, say]
      · rw [hreceptions, hout, out_say_of_ne _ (by simp), hs.client]
        simp [CoroutineSocket.goto, say]
      · rw [hreceptions]
        exact hs.tmpBuf
      · rw [hsends]
        exact hs.still_sent (fun d hd => hd) hreceived
  | client =>
      have hnone := hs.recvCalls
      rw [hsite] at hnone
      have hnil : receptions tr = [] := List.length_eq_zero_iff.mp hnone
      refine ⟨hs.net, ?_, ?_, ?_, ?_, ?_, ?_⟩
      · rw [hsends, hs.sendCalls]
        simp [CoroutineSocket.goto, say]
      · rw [hsends, hout, out_say_of_ne _ (by simp), hs.server]
        simp [CoroutineSocket.goto, say]
      · rw [hreceptions, hnil]
        simp [CoroutineSocket.goto, Site.calls]
      · rw [hreceptions, hnil, hout, out_say _ hpending, hs.client, hsite, hnil, hl]
        simp [CoroutineSocket.goto, Site.header, numbered, RecvFrom.answers]
      · rw [hreceptions]
        exact hs.tmpBuf
      · rw [hsends]
        exact hs.still_sent (fun d hd => hd) hreceived

theorem Told.send (hs : Told tr s) (hstage : Staged s) (hsite : s.site .server = .loop i)
    (hpending : s.pending .server = []) (ok : Bool) :
    Told (tr ++ [.send ok]) (s.step (.send ok)) := by
  have hfits := hstage.fits .server
  have hsends := hs.sendCalls
  have hserver := hs.server
  rw [hsite] at hfits hsends hserver
  have hone : 1 ≤ i := hfits.1
  simp only [Site.calls] at hsends
  have hnext : sends (tr ++ [.send ok]) = sends tr ++ [ok] :=
    sends_snoc tr _
  have hreceptions : receptions (tr ++ [.send ok]) = receptions tr :=
    (receptions_snoc tr _).trans (List.append_nil _)
  refine ⟨fun d hd => ?_, ?_, ?_, ?_, ?_, ?_, fun h => ?_⟩
  · cases ok with
    | false => exact hs.net d hd
    | true =>
        rcases List.mem_append.mp hd with hd | hd
        · exact hs.net d hd
        · exact List.mem_singleton.mp hd
  · simp only [hnext, step, CoroutineSocket.goto, hsite, Site.next, Function.update_self,
      List.length_append, List.length_singleton, Site.calls]
    omega
  · show (s.say .server (sendLine (s.site .server).i ok)).out .server = _
    rw [hnext, out_say _ hpending, hserver, numbered_concat, hsends, hsite]
    simp only [step, CoroutineSocket.goto, hsite, Site.next, Function.update_self, Site.header,
      Site.i, List.append_assoc, Nat.sub_add_cancel hone]
  · rw [hreceptions, hs.recvCalls]
    simp [step, CoroutineSocket.goto, say]
  · show (s.say .server (sendLine (s.site .server).i ok)).out .client = _
    rw [hreceptions, out_say_of_ne _ (by simp), hs.client]
    simp [step, CoroutineSocket.goto, say]
  · rw [hreceptions]
    exact hs.tmpBuf
  · rw [hnext]
    cases ok with
    | true => exact List.mem_append_right _ List.mem_cons_self
    | false => exact List.mem_append_left _ (hs.still_sent (fun d hd => hd) rfl h)

/-- A call of the receiver. -/
theorem Told.receive {r : Received} {net : List (List UInt8)} (hs : Told tr s) (hstage : Staged s)
    (hsite : s.site .client = .loop i) (hpending : s.pending .client = [])
    (hsent : a.sent? = none) (hreceived : a.received? = some r) (hnet : ∀ d ∈ net, d ∈ s.net)
    (htaken : ∀ k, a = .recv (some k) → s.net ≠ []) : Told (tr ++ [a]) (s.recvStep r net) := by
  have hfits := hstage.fits .client
  have hreceives := hs.recvCalls
  have hclient := hs.client
  rw [hsite] at hfits hreceives hclient
  have hone : 1 ≤ i := hfits.1
  simp only [Site.calls] at hreceives
  have hsends : sends (tr ++ [a]) = sends tr := by
    rw [sends_snoc, hsent]
    exact List.append_nil _
  have hnext : receptions (tr ++ [a]) = receptions tr ++ [r] := by
    rw [receptions_snoc, hreceived]
    rfl
  have hbuf : RecvFrom.receive s.tmpBuf r = arrayAfter (receptions tr ++ [r]) := by
    rw [hs.tmpBuf]
    simp [arrayAfter]
  refine ⟨fun d hd => hs.net d (hnet d hd), ?_, ?_, ?_, ?_, ?_, fun h => ?_⟩
  · rw [hsends, hs.sendCalls]
    simp [recvStep, CoroutineSocket.goto, say]
  · show (s.say .client (recvLine (s.site .client).i
      (RecvFrom.yieldValue (RecvFrom.receive s.tmpBuf r)))).out .server = _
    rw [hsends, out_say_of_ne _ (by simp), hs.server]
    simp [recvStep, CoroutineSocket.goto, say]
  · simp only [hnext, recvStep, CoroutineSocket.goto, hsite, Site.next, Function.update_self,
      List.length_append, List.length_singleton, Site.calls]
    omega
  · show (s.say .client (recvLine (s.site .client).i
      (RecvFrom.yieldValue (RecvFrom.receive s.tmpBuf r)))).out .client = _
    have hvalue : RecvFrom.receive s.tmpBuf r =
        RecvFrom.receive ((receptions tr).foldl RecvFrom.receive RecvFrom.start) r := by
      rw [hs.tmpBuf, arrayAfter]
    rw [hnext, out_say _ hpending, hclient, answers_concat, numbered_concat, length_answers,
      hreceives, hsite, hvalue]
    simp only [recvStep, CoroutineSocket.goto, hsite, Site.next, Function.update_self, Site.header,
      Site.i, List.append_assoc, Nat.sub_add_cancel hone]
  · rw [hnext]
    exact hbuf
  · rw [hsends]
    refine hs.sent ?_
    rcases h with h | ⟨k, hk⟩
    · obtain ⟨d, hd⟩ := List.exists_mem_of_ne_nil _ h
      exact Or.inl (List.ne_nil_of_mem (hnet d hd))
    · rcases List.mem_append.mp hk with hk | hk
      · exact Or.inr ⟨k, hk⟩
      · exact Or.inl (htaken k (List.mem_singleton.mp hk).symm)

theorem Told.step (hs : Told tr s) (hstage : Staged s) (ha : s.ready a) :
    Told (tr ++ [a]) (s.step a) := by
  have hstill : ∀ d ∈ s.net, d ∈ s.net := fun d hd => hd
  cases a with
  | main => exact hs.mainStep hstage
  | socketFails => exact hs.frame rfl rfl (fun u => rfl) (fun u l => rfl) hstill rfl fun u => rfl
  | bind => exact hs.begun hstage ha rfl rfl rfl
  | begin => exact hs.begun hstage ha rfl rfl rfl
  | bindFails =>
      have hsite : s.site .server = .begin := ha
      exact hs.goto rfl rfl (by rw [hsite]; rfl) fun l => by rw [hsite]; rfl
  | send ok =>
      obtain ⟨i, hsite, -⟩ := goesOn_iff.mp ha.1
      exact hs.send hstage hsite ha.2 ok
  | recv j =>
      cases j with
      | none =>
          obtain ⟨i, hsite, -⟩ := goesOn_iff.mp ha.1
          exact hs.receive hstage hsite ha.2 rfl rfl hstill fun k hk => by simp at hk
      | some j =>
          obtain ⟨⟨hgoes, hpending⟩, hj⟩ := ha
          obtain ⟨i, hsite, -⟩ := goesOn_iff.mp hgoes
          have hmessage : s.net[j] = message := hs.net _ (List.getElem_mem hj)
          simp only [CoroutineSocket.step, List.getElem?_eq_getElem hj, hmessage]
          exact hs.receive hstage hsite hpending rfl rfl
            (fun d hd => List.mem_of_mem_eraseIdx hd) fun k _ hnil => by simp [hnil] at hj
  | hear d =>
      obtain ⟨i, hsite, -⟩ := goesOn_iff.mp ha.1.1
      exact hs.receive hstage hsite ha.1.2 rfl rfl hstill fun k hk => by simp at hk
  | finish t =>
      obtain ⟨i, hsite, hi⟩ := ends_iff.mp ha.1
      have hfits := hstage.fits t
      rw [hsite] at hfits
      have heq : i = rounds + 1 := Nat.le_antisymm hfits.2 hi
      exact hs.goto rfl rfl (by rw [hsite, heq]; rfl) fun l => by rw [hsite]; rfl
  | insert t =>
      exact hs.frame rfl rfl (fun u => rfl) (fun u l => rfl) hstill rfl (out_insert ha)
  | lose j =>
      exact hs.frame rfl rfl (fun u => rfl) (fun u l => rfl)
        (fun d hd => List.mem_of_mem_eraseIdx hd) rfl fun u => rfl

theorem told (hl : machine.Legal machine.init tr) : Told tr (machine.after machine.init tr) := by
  refine Machine.run_invariant (P := Told) ?_ (fun tr a hl' hs ha => ?_) hl
  · exact ⟨fun d hd => absurd hd List.not_mem_nil, rfl, rfl, rfl, rfl, rfl, fun h => by
      simp [machine] at h⟩
  · exact hs.step (reachable_staged (Machine.reachable_after hl')) ha.2

/-! ### The lines -/

theorem Staged.calls_le (hs : Staged s) (t : Thread) : (s.site t).calls ≤ rounds := by
  have hfits := hs.fits t
  cases hsite : s.site t with
  | loop i =>
      rw [hsite] at hfits
      have hi : i ≤ rounds + 1 := hfits.2
      simp only [Site.calls]
      omega
  | absent | begin | done | exited => simp [Site.calls]

/-- Where nobody else sends, only the message is received. -/
theorem received_message (hown : ∀ d, .hear d ∉ tr) {r : Received} (hr : r ∈ receptions tr) :
    r = .failed ∨ r = .got message ∧ ∃ k, .recv (some k) ∈ tr := by
  obtain ⟨a, ha, hreceived⟩ := List.mem_filterMap.mp hr
  cases a with
  | recv j =>
      cases j with
      | none => exact Or.inl (Option.some.inj hreceived).symm
      | some j => exact Or.inr ⟨(Option.some.inj hreceived).symm, j, ha⟩
  | hear d => exact absurd ha (hown d)
  | main | socketFails | bind | bindFails | begin | send ok | finish t | insert t | lose j =>
      exact absurd hreceived (by simp [Action.received?])

/--
**The lines of the two threads.**  What a thread has inserted, with what it has still to insert of
its statement, is its header and a line for each of its calls, in their order.  The server's line
shows the length of the message, or the number that stands for a call that failed.  The client's
line shows the array after that call, up to its first zero, and is undefined where it has none.
Where nobody else sends to the port these are some lines without a text and then lines with the
whole message, which was sent.  When `main` has returned, each has made ten calls and inserted
their lines.
-/
theorem message_lines (hl : machine.Legal machine.init tr) :
    let s := machine.after machine.init tr
    let answers := RecvFrom.answers RecvFrom.start (receptions tr)
    s.printed .server ++ s.pending .server =
      (s.site .server).header [.sendTo] ++ numbered sendLine (sends tr) ∧
    s.printed .client ++ s.pending .client =
      (s.site .client).header [.recvFrom, .endl] ++ numbered recvLine answers ∧
    (sends tr).length ≤ rounds ∧ (receptions tr).length ≤ rounds ∧
    ((∀ d, .hear d ∉ tr) → ∃ k m, answers = texts k m ∧ (m ≠ 0 → true ∈ sends tr)) ∧
    (s.main = .returned →
      (sends tr).length = rounds ∧ s.printed .server = .sendTo :: numbered sendLine (sends tr) ∧
      (receptions tr).length = rounds ∧
      s.printed .client = .recvFrom :: .endl :: numbered recvLine answers) := by
  intro s answers
  have hs := told hl
  have hstage := reachable_staged (Machine.reachable_after hl)
  refine ⟨hs.server, hs.client, hs.sendCalls ▸ hstage.calls_le _, hs.recvCalls ▸ hstage.calls_le _,
    fun hown => ?_, fun hmain => ?_⟩
  · have hmessage : ∀ r ∈ receptions tr, r = .failed ∨ r = .got message :=
      fun r hr => (received_message hown hr).imp_right And.left
    obtain ⟨k, m, hgot, htexts, -⟩ := answers_texts hmessage
    refine ⟨k, m, htexts, fun hm => hs.sent (Or.inr ?_)⟩
    rcases received_message hown (hgot hm) with h | ⟨-, hk⟩
    · exact absurd h (by simp)
    · exact hk
  · have hdone : ∀ t, s.site t = .done := by
      intro t
      refine hstage.joined t ?_
      rw [hmain]
      cases t <;> decide
    have hquiet : ∀ t, s.out t = s.printed t := by
      intro t
      rw [out, hstage.quiet t (Or.inr (Or.inr (hdone t))), List.append_nil]
    have hserver := hs.server
    have hclient := hs.client
    have hsends := hs.sendCalls
    have hreceives := hs.recvCalls
    rw [hquiet, hdone] at hserver hclient
    rw [hdone] at hsends hreceives
    exact ⟨hsends, hserver, hreceives, hclient⟩

/-- The client calls twice before the server has sent, and the datagram that is sent comes in the
end. -/
def lateMessage : List Action :=
  [.main, .main, .main, .begin, .insert .client, .insert .client, .recv none] ++
    List.replicate 4 (.insert .client) ++
  [.recv none, .bind, .insert .server, .send true] ++
    List.replicate 4 (.insert .client) ++
  [.recv (some 0)] ++ List.replicate 4 (.insert .client) ++ List.replicate 4 (.insert .server)

theorem message_lines_late :
    (machine.after machine.init lateMessage).printed .server =
      [.sendTo, .number 1, .bytesSent, .size 15, .endl] ∧
    ∃ k m, (machine.after machine.init lateMessage).printed .client =
      .recvFrom :: .endl :: numbered recvLine (texts k m) := by
  have hl : machine.Legal machine.init lateMessage := by decide +kernel
  obtain ⟨hserver, hclient, -, -, hown, -⟩ := message_lines hl
  obtain ⟨k, m, htexts, -⟩ := hown fun d => by simp [lateMessage]
  have hpending : ∀ t, (machine.after machine.init lateMessage).pending t = [] := by
    intro t
    cases t <;> decide +kernel
  have hloop : (machine.after machine.init lateMessage).site .server = .loop 2 ∧
      (machine.after machine.init lateMessage).site .client = .loop 4 := by decide +kernel
  rw [hpending, List.append_nil, hloop.1] at hserver
  rw [hpending, List.append_nil, hloop.2, htexts] at hclient
  exact ⟨hserver, k, m, hclient⟩

end CoroutineSocket

end LinuxSystems
