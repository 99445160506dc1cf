/-
What the server takes for a request.

The server compares as many characters of the request as it received bytes with the received
bytes up to a zero.  The beginning of the request is enough, down to the empty datagram, since
fewer bytes compare with fewer characters; and what follows the request behind a zero is not
looked at, since more bytes compare with no more characters than the request has.
-/
import LinuxSystems.Dice.Exchange

namespace LinuxSystems.Dice

variable {network : Network} {hosts : Hosts} {x : Int} {s : Dice} {d : Datagram}

/-- What the server does next is to roll, reply with the roll, and receive again. -/
def Answers (network : Network) (hosts : Hosts) (x : Int) (s : Dice) : Prop :=
  ∀ rand, (machine network hosts x).Legal s [.roll rand, .reply (dieRoll rand)] ∧
    ((machine network hosts x).after s [.roll rand, .reply (dieRoll rand)]).server.replies =
      s.server.replies ++ [dieRoll rand] ∧
    ((machine network hosts x).after s [.roll rand, .reply (dieRoll rand)]).server.site = .receive

/-- What it does next is to close its socket and exit. -/
def Leaves (network : Network) (hosts : Hosts) (x : Int) (s : Dice) : Prop :=
  (machine network hosts x).Legal s [.serverClose] ∧
    ((machine network hosts x).after s [.serverClose]).server.site = .exited

/-- Having received `d` the server answers if that is the request, and leaves if it is not. -/
def Recognises (network : Network) (hosts : Hosts) (x : Int) (s : Dice) (d : Datagram) : Prop :=
  (Answers network hosts x (step network hosts x s (.serverReceive d)) ↔ d.payload = request) ∧
    (Leaves network hosts x (step network hosts x s (.serverReceive d)) ↔ d.payload ≠ request)

theorem answers_iff : Answers network hosts x s ↔ s.server.site = .roll :=
  ⟨fun h => (h 0).1.1, fun h _ => ⟨⟨h, rfl, trivial⟩, rfl, rfl⟩⟩

theorem leaves_iff : Leaves network hosts x s ↔ s.server.site = .close :=
  ⟨fun h => h.1.1, fun h => ⟨⟨h, trivial⟩, rfl⟩⟩

/-! ### What is compared -/

/-- The end of the buffer makes no difference: the request, and a zero behind it, fit. -/
theorem taken_iff (p : List UInt8) :
    request.take (p.take bufSize).length = Buffer.cString (p.take bufSize) ↔
      p <+: request ∨ request ++ [0] <+: p := by
  rw [Buffer.take_eq_cString_iff (by decide)]
  have hlong : request ++ [0] <+: p.take bufSize ↔ request ++ [0] <+: p := by
    rw [List.prefix_take_iff]
    exact and_iff_left (by decide)
  have hshort : p.take bufSize <+: request ↔ p <+: request := by
    refine ⟨fun h => ?_, (List.take_prefix bufSize p).trans⟩
    -- what was cut is longer than the request
    have hlength : (p.take bufSize).length ≤ 11 := h.length_le
    have hall : p.take bufSize = p := by
      refine List.take_of_length_le ?_
      rw [List.length_take] at hlength
      unfold bufSize at *
      omega
    rwa [hall] at h
  rw [hlong, hshort]

theorem server_received :
    (step network hosts x s (.serverReceive d)).server.site =
      if d.payload <+: request ∨ request ++ [0] <+: d.payload then .roll else .close := by
  rw [← if_congr (taken_iff d.payload) rfl rfl]
  exact received_site d s.server

/--
**What the server takes for a request.**  Whatever it receives, it rolls and replies exactly to
the request and leaves its loop for everything else, if and only if what it received neither is
the beginning of a request that does not go on, nor goes on behind one with a zero.
-/
theorem request_recognised (network : Network) (hosts : Hosts) (x : Int) (s : Dice)
    (d : Datagram) :
    Recognises network hosts x s d ↔
      ¬ (d.payload <+: request ∧ d.payload ≠ request) ∧ ¬ request ++ [0] <+: d.payload := by
  unfold Recognises
  rw [answers_iff, leaves_iff, server_received]
  by_cases htaken : d.payload <+: request ∨ request ++ [0] <+: d.payload
  · have hno : ¬ (ServerSite.roll = .close) := nofun
    rw [if_pos htaken]
    by_cases hreq : d.payload = request
    · have hmore : ¬ request ++ [0] <+: request := by decide
      simp [hreq, hmore]
    · simp only [hreq, hno, iff_false, not_true_eq_false, ne_eq, not_false_eq_true, and_true]
      tauto
  · have hno : ¬ (ServerSite.close = .roll) := nofun
    have hreq : d.payload ≠ request := fun h => htaken (Or.inl (h ▸ List.prefix_rfl))
    rw [if_neg htaken]
    simp only [hreq, hno, ne_eq, not_false_eq_true, and_true]
    tauto

/-- The server has its socket, and `payload` is in flight to it. -/
def addressed (payload : List UInt8) : Dice :=
  ⟨Client.start, Server.start.openSocket.bind,
    [⟨localhost.client, Sockaddr.any port, payload⟩]⟩

/-- It answers nothing at all. -/
theorem request_unrecognised :
    enabled .reliable localhost (addressed [])
      (.serverReceive ⟨localhost.client, Sockaddr.any port, []⟩) ∧
    ¬ Recognises .reliable localhost 0 (addressed [])
      ⟨localhost.client, Sockaddr.any port, []⟩ := by
  refine ⟨by decide, fun h => ?_⟩
  have hroll : (step .reliable localhost 0 (addressed [])
      (.serverReceive ⟨localhost.client, Sockaddr.any port, []⟩)).server.site = .roll := by decide
  exact absurd (h.1.mp (answers_iff.mpr hroll)) (by decide)

end LinuxSystems.Dice
