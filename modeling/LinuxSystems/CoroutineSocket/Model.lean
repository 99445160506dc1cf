/-
The two threads of `Chapter 10/coroutine_socket.cpp`.

Both use one socket.  The server binds it and sends a message ten times to the port that it is
bound to; the client receives from it ten times.  Neither waits for the other: each
system call fails at once where it would have to wait, the client may call before anything was
sent, and the network may lose what was sent.

The port is open to everybody.  Once the socket is bound, any other process may send to it, so
that a call of the client may receive anything at all.  What fills the array of `recv_from` leaves
no end of the string in it: the text of the line is undefined then, and so is all that the real
program does from there on.
-/
import LinuxSystems.Ownership.RecvFrom
import LinuxSystems.Machine.Run
import Mathlib.Algebra.Group.Nat.Defs

namespace LinuxSystems.CoroutineSocket

open Enumeration

def message : List UInt8 := Buffer.ofString "This is a test!"

/-- How often each loop goes round. -/
def rounds : ℕ := 10

inductive Thread where
  | server
  | client
  deriving DecidableEq

inductive Piece where
  /-- `"\nsend_to():\n"` -/
  | sendTo
  /-- `"\nrecv_from():\n"` -/
  | recvFrom
  | number (i : ℕ)
  /-- `" Bytes sent: "` -/
  | bytesSent
  /-- `" Message received: "` -/
  | messageReceived
  | size (n : ℕ)
  | text (x : Answer (List UInt8))
  | endl
  deriving DecidableEq

inductive MainSite where
  /-- At `socket`. -/
  | opening
  | makeServer
  | makeClient
  | joinServer
  | joinClient
  | close
  | returned
  /-- `socket` failed. -/
  | thrown
  deriving DecidableEq

inductive Site where
  | absent
  | begin
  | loop (i : ℕ)
  | done
  /-- `bind` failed, and the process is at its end. -/
  | exited
  deriving DecidableEq

inductive Action where
  | main
  | socketFails
  | bind
  | bindFails
  /-- The client begins. -/
  | begin
  /-- A call of the sender, whose `sendto` succeeds or fails. -/
  | send (ok : Bool)
  /-- A call of the receiver, whose `recvfrom` takes the datagram at `k`, or fails. -/
  | recv (k : Option ℕ)
  /-- A call of the receiver, whose `recvfrom` takes what another process has sent. -/
  | hear (d : List UInt8)
  | finish (t : Thread)
  /-- The next `<<` of the thread. -/
  | insert (t : Thread)
  /-- The datagram at `k` is lost. -/
  | lose (k : ℕ)
  deriving DecidableEq

end CoroutineSocket

open CoroutineSocket Enumeration

structure CoroutineSocket where
  main : MainSite
  site : Thread → Site
  /-- What the server has sent, on its way to the port. -/
  net : List (List UInt8)
  /-- The array of the client's `recv_from`. -/
  tmpBuf : List UInt8
  /-- What the thread has still to insert before it goes on. -/
  pending : Thread → List Piece
  cout : List (Thread × Piece)

namespace CoroutineSocket

/-- The thread goes round its loop once more. -/
def Site.goesOn : Site → Prop
  | .loop i => i ≤ rounds
  | .absent | .begin | .done | .exited => False

def Site.ends : Site → Prop
  | .loop i => ¬ i ≤ rounds
  | .absent | .begin | .done | .exited => False

instance : ∀ x, Decidable (Site.goesOn x)
  | .loop i => inferInstanceAs (Decidable (i ≤ rounds))
  | .absent | .begin | .done | .exited => isFalse id

instance : ∀ x, Decidable (Site.ends x)
  | .loop i => inferInstanceAs (Decidable (¬ i ≤ rounds))
  | .absent | .begin | .done | .exited => isFalse id

/-- The server has bound the socket. -/
def Site.isBound : Site → Prop
  | .loop _ | .done => True
  | .absent | .begin | .exited => False

instance : ∀ x, Decidable (Site.isBound x)
  | .loop _ | .done => isTrue trivial
  | .absent | .begin | .exited => isFalse id

def mainReady (s : CoroutineSocket) : MainSite → Prop
  | .opening | .makeServer | .makeClient | .close => True
  | .joinServer => s.site .server = .done
  | .joinClient => s.site .client = .done
  | .returned | .thrown => False

instance (s : CoroutineSocket) : ∀ x, Decidable (s.mainReady x)
  | .opening | .makeServer | .makeClient | .close => isTrue trivial
  | .joinServer => inferInstanceAs (Decidable (s.site .server = .done))
  | .joinClient => inferInstanceAs (Decidable (s.site .client = .done))
  | .returned | .thrown => isFalse id

/-- In a process that is not at its end. -/
def ready (s : CoroutineSocket) : Action → Prop
  | .main => s.mainReady s.main
  | .socketFails => s.main = .opening
  | .bind | .bindFails => s.site .server = .begin
  | .begin => s.site .client = .begin
  | .send _ => (s.site .server).goesOn ∧ s.pending .server = []
  | .recv none => (s.site .client).goesOn ∧ s.pending .client = []
  | .recv (some k) => ((s.site .client).goesOn ∧ s.pending .client = []) ∧ k < s.net.length
  | .hear _ => ((s.site .client).goesOn ∧ s.pending .client = []) ∧ (s.site .server).isBound
  | .finish t => (s.site t).ends ∧ s.pending t = []
  | .insert t => s.pending t ≠ []
  | .lose k => k < s.net.length

instance (s : CoroutineSocket) : ∀ a, Decidable (s.ready a)
  | .main => inferInstanceAs (Decidable (s.mainReady s.main))
  | .socketFails => inferInstanceAs (Decidable (s.main = .opening))
  | .bind => inferInstanceAs (Decidable (s.site .server = .begin))
  | .bindFails => inferInstanceAs (Decidable (s.site .server = .begin))
  | .begin => inferInstanceAs (Decidable (s.site .client = .begin))
  | .send _ => inferInstanceAs (Decidable (_ ∧ s.pending .server = []))
  | .recv none => inferInstanceAs (Decidable (_ ∧ s.pending .client = []))
  | .recv (some k) => inferInstanceAs (Decidable ((_ ∧ _) ∧ k < s.net.length))
  | .hear _ => inferInstanceAs (Decidable ((_ ∧ _) ∧ (s.site .server).isBound))
  | .finish t => inferInstanceAs (Decidable (_ ∧ s.pending t = []))
  | .insert t => inferInstanceAs (Decidable (¬ s.pending t = []))
  | .lose k => inferInstanceAs (Decidable (k < s.net.length))

def enabled (s : CoroutineSocket) (a : Action) : Prop := s.site .server ≠ .exited ∧ s.ready a

instance (s : CoroutineSocket) (a : Action) : Decidable (s.enabled a) :=
  inferInstanceAs (Decidable (¬ s.site .server = .exited ∧ s.ready a))

def goto (s : CoroutineSocket) (t : Thread) (x : Site) : CoroutineSocket :=
  { s with site := Function.update s.site t x }

/-- A statement that inserts, one `<<` after the other. -/
def say (s : CoroutineSocket) (t : Thread) (l : List Piece) : CoroutineSocket :=
  { s with pending := Function.update s.pending t l }

def Site.next : Site → Site
  | .loop i => .loop (i + 1)
  | .absent => .absent
  | .begin => .begin
  | .done => .done
  | .exited => .exited

/-- The `i` of the loop. -/
def Site.i : Site → ℕ
  | .loop i => i
  | .absent | .begin | .done | .exited => 0

/-- What the sender yields: `-1` is no `size_t`. -/
def sentData (ok : Bool) : ℕ := if ok then message.length else 2 ^ 64 - 1

def sendLine (i : ℕ) (ok : Bool) : List Piece := [.number i, .bytesSent, .size (sentData ok), .endl]

def recvLine (i : ℕ) (x : Answer (List UInt8)) : List Piece :=
  [.number i, .messageReceived, .text x, .endl]

def mainStep (s : CoroutineSocket) : CoroutineSocket :=
  match s.main with
  | .opening => { s with main := .makeServer }
  | .makeServer => { s.goto .server .begin with main := .makeClient }
  | .makeClient => { s.goto .client .begin with main := .joinServer }
  | .joinServer => { s with main := .joinClient }
  | .joinClient => { s with main := .close }
  | .close => { s with main := .returned }
  | .returned | .thrown => s

/-- One call of the receiver, and the statement that prints what it returned. -/
def recvStep (s : CoroutineSocket) (r : Received) (net : List (List UInt8)) : CoroutineSocket :=
  let tmpBuf := RecvFrom.receive s.tmpBuf r
  { (s.say .client (recvLine (s.site .client).i (RecvFrom.yieldValue tmpBuf))).goto .client
      (s.site .client).next with tmpBuf := tmpBuf, net := net }

def step (s : CoroutineSocket) : Action → CoroutineSocket
  | .main => s.mainStep
  | .socketFails => { s with main := .thrown }
  | .bind => (s.say .server [.sendTo]).goto .server (.loop 1)
  | .bindFails => s.goto .server .exited
  | .begin => (s.say .client [.recvFrom, .endl]).goto .client (.loop 1)
  | .send ok =>
      { (s.say .server (sendLine (s.site .server).i ok)).goto .server (s.site .server).next with
        net := if ok then s.net ++ [message] else s.net }
  | .recv none => s.recvStep .failed s.net
  | .recv (some k) =>
      s.recvStep (match s.net[k]? with | some d => .got d | none => .failed) (s.net.eraseIdx k)
  | .hear d => s.recvStep (.got d) s.net
  | .finish t => s.goto t .done
  | .insert t =>
      { s.say t (s.pending t).tail with
        cout := s.cout ++ (s.pending t).head?.toList.map fun x => (t, x) }
  | .lose k => { s with net := s.net.eraseIdx k }

def machine : Machine CoroutineSocket Action where
  init := ⟨.opening, fun _ => .absent, [], RecvFrom.start, fun _ => [], []⟩
  enabled := enabled
  next := step

instance (s : CoroutineSocket) (a : Action) : Decidable (machine.enabled s a) :=
  inferInstanceAs (Decidable (s.enabled a))

variable {s : CoroutineSocket} {a : Action} {t u : Thread}

/-! ### What a thread has printed -/

/-- The pieces that the thread has inserted. -/
def printed (s : CoroutineSocket) (t : Thread) : List Piece :=
  (s.cout.filter fun x => x.1 = t).map Prod.snd

/-- What the thread has inserted or is about to insert. -/
def out (s : CoroutineSocket) (t : Thread) : List Piece := s.printed t ++ s.pending t

theorem out_say (l : List Piece) (hempty : s.pending t = []) :
    (s.say t l).out t = s.out t ++ l := by
  simp [out, printed, say, hempty]

theorem out_say_of_ne (l : List Piece) (h : u ≠ t) : (s.say t l).out u = s.out u := by
  simp [out, printed, say, h]

theorem out_insert (hne : s.pending t ≠ []) (u : Thread) :
    (s.step (.insert t)).out u = s.out u := by
  obtain ⟨x, rest, hrest⟩ := List.exists_cons_of_ne_nil hne
  by_cases hu : u = t
  · subst hu
    simp [step, out, printed, say, hrest]
  · simp [step, out, printed, say, hrest, hu, Ne.symm hu]

/-! ### Where the threads are -/

/-- The place is one that the thread comes to. -/
def Site.Fits (t : Thread) : Site → Prop
  | .loop i => 1 ≤ i ∧ i ≤ rounds + 1
  | .absent | .begin | .done => True
  | .exited => t = .server

theorem goesOn_iff {x : Site} : x.goesOn ↔ ∃ i, x = .loop i ∧ i ≤ rounds := by
  cases x <;> simp [Site.goesOn]

theorem ends_iff {x : Site} : x.ends ↔ ∃ i, x = .loop i ∧ rounds < i := by
  cases x <;> simp [Site.ends]

/-- How far `main` has come. -/
def MainSite.stage : MainSite → ℕ
  | .opening => 0
  | .thrown => 0
  | .makeServer => 1
  | .makeClient => 2
  | .joinServer => 3
  | .joinClient => 4
  | .close => 5
  | .returned => 6

def Thread.makeStage : Thread → ℕ
  | .server => 1
  | .client => 2

def Thread.joinStage : Thread → ℕ
  | .server => 3
  | .client => 4

/-- A thread is there once it was made, and done once it was joined.  It inserts only while it goes
round its loop. -/
structure Staged (s : CoroutineSocket) : Prop where
  absent_iff : ∀ t, s.site t = .absent ↔ s.main.stage ≤ t.makeStage
  joined : ∀ t, t.joinStage < s.main.stage → s.site t = .done
  fits : ∀ t, (s.site t).Fits t
  quiet : ∀ t, s.site t = .absent ∨ s.site t = .begin ∨ s.site t = .done → s.pending t = []

variable {i : ℕ}

/-- One thread goes on to `x`. -/
theorem Staged.goto {s' : CoroutineSocket} {x : Site} (hs : Staged s) (habsent : s.site t ≠ .absent)
    (hdone : s.site t ≠ .done) (hx : x ≠ .absent) (hfits : x.Fits t) (hmain : s'.main = s.main)
    (hsite : s'.site = Function.update s.site t x)
    (hothers : ∀ u, u ≠ t → s'.pending u = s.pending u)
    (hquiet : x = .begin ∨ x = .done → s'.pending t = []) : Staged s' := by
  have hself : s'.site t = x := by rw [hsite, Function.update_self]
  have hother : ∀ u, u ≠ t → s'.site u = s.site u := fun u hu => by
    rw [hsite, Function.update_of_ne hu]
  refine ⟨fun u => ?_, fun u hu => ?_, fun u => ?_, fun u hu => ?_⟩
  · rw [hmain, ← hs.absent_iff]
    by_cases hut : u = t
    · subst hut
      rw [hself]
      exact iff_of_false hx habsent
    · rw [hother u hut]
  · rw [hmain] at hu
    have hold := hs.joined u hu
    have hut : u ≠ t := by
      rintro rfl
      exact hdone hold
    rw [hother u hut, hold]
  · by_cases hut : u = t
    · subst hut
      rw [hself]
      exact hfits
    · rw [hother u hut]
      exact hs.fits u
  · by_cases hut : u = t
    · subst hut
      rw [hself] at hu
      exact hquiet (hu.resolve_left hx)
    · rw [hother u hut] at hu
      rw [hothers u hut]
      exact hs.quiet u hu

/-- A thread goes round its loop once more. -/
theorem Staged.loop {s' : CoroutineSocket} (hs : Staged s) (hsite : s.site t = .loop i)
    (hi : i ≤ rounds) (hmain : s'.main = s.main)
    (hupdate : s'.site = Function.update s.site t (.loop (i + 1)))
    (hothers : ∀ u, u ≠ t → s'.pending u = s.pending u) : Staged s' := by
  have hfits : (Site.loop (i + 1)).Fits t := ⟨Nat.le_add_left 1 i, Nat.succ_le_succ hi⟩
  exact hs.goto (by simp [hsite]) (by simp [hsite]) (by simp) hfits hmain hupdate hothers (by simp)

/-- A thread leaves the place where it begins. -/
theorem Staged.begun {s' : CoroutineSocket} {x : Site} (hs : Staged s) (hsite : s.site t = .begin)
    (hx : x = .loop 1 ∨ x = .exited ∧ t = .server) (hmain : s'.main = s.main)
    (hupdate : s'.site = Function.update s.site t x)
    (hothers : ∀ u, u ≠ t → s'.pending u = s.pending u) : Staged s' := by
  refine hs.goto (by simp [hsite]) (by simp [hsite]) ?_ ?_ hmain hupdate hothers ?_
  · rcases hx with rfl | ⟨rfl, -⟩ <;> simp
  · rcases hx with rfl | ⟨rfl, ht⟩
    · exact ⟨le_rfl, by decide⟩
    · exact ht
  · rcases hx with rfl | ⟨rfl, -⟩ <;> simp

/-- `main` makes a thread. -/
theorem Staged.made {s' : CoroutineSocket} (hs : Staged s) (hstage : s.main.stage = t.makeStage)
    (hmain : s'.main.stage = t.makeStage + 1)
    (hupdate : s'.site = Function.update s.site t .begin) (hpending : s'.pending = s.pending) :
    Staged s' := by
  have hsite : s.site t = .absent := (hs.absent_iff t).mpr hstage.le
  refine ⟨fun u => ?_, fun u hu => ?_, fun u => ?_, fun u hu => ?_⟩
  · rw [hmain, hupdate]
    by_cases hut : u = t
    · subst hut
      rw [Function.update_self]
      exact iff_of_false (by simp) (by omega)
    · rw [Function.update_of_ne hut, hs.absent_iff, hstage]
      cases u <;> cases t <;> simp_all [Thread.makeStage]
  · rw [hmain] at hu
    cases u <;> cases t <;> simp [Thread.makeStage, Thread.joinStage] at hu
  · rw [hupdate]
    by_cases hut : u = t
    · subst hut
      rw [Function.update_self]
      trivial
    · rw [Function.update_of_ne hut]
      exact hs.fits u
  · rw [hpending]
    by_cases hut : u = t
    · subst hut
      exact hs.quiet u (Or.inl hsite)
    · rw [hupdate, Function.update_of_ne hut] at hu
      exact hs.quiet u hu

/-- `main` goes on, and the threads are where they were. -/
theorem Staged.waited {x : MainSite} (hs : Staged s)
    (habsent : ∀ t : Thread, x.stage ≤ t.makeStage ↔ s.main.stage ≤ t.makeStage)
    (hjoined : ∀ t : Thread, t.joinStage < x.stage → s.site t = .done) :
    Staged { s with main := x } :=
  ⟨fun t => (hs.absent_iff t).trans (habsent t).symm, hjoined, hs.fits, hs.quiet⟩

theorem Staged.mainStep (hs : Staged s) (ha : s.mainReady s.main) : Staged s.mainStep := by
  cases hmain : s.main with
  | returned | thrown => simp [mainReady, hmain] at ha
  | makeServer =>
      simp only [CoroutineSocket.mainStep, hmain]
      exact hs.made (t := .server) (by rw [hmain]; rfl) rfl rfl rfl
  | makeClient =>
      simp only [CoroutineSocket.mainStep, hmain]
      exact hs.made (t := .client) (by rw [hmain]; rfl) rfl rfl rfl
  | opening =>
      simp only [CoroutineSocket.mainStep, hmain]
      refine hs.waited (fun t => ?_) fun t ht => ?_
      · rw [hmain]
        cases t <;> decide
      · cases t <;> exact absurd ht (by decide)
  | joinServer | joinClient | close =>
      simp only [mainReady, hmain] at ha
      have hjoined := hs.joined
      simp only [CoroutineSocket.mainStep, hmain]
      refine hs.waited (fun t => ?_) fun t ht => ?_
      · rw [hmain]
        cases t <;> decide
      · rw [hmain] at hjoined
        cases t
        all_goals first
          | exact ha
          | exact hjoined _ (by decide)
          | exact absurd ht (by decide)

theorem Staged.step (hs : Staged s) (ha : s.ready a) : Staged (s.step a) := by
  have hkeep : ∀ (u v : Thread) (l : List Piece), v ≠ u →
      Function.update s.pending u l v = s.pending v := fun u v l hv => Function.update_of_ne hv _ _
  cases a with
  | main => exact hs.mainStep ha
  | socketFails =>
      have hmain : s.main = .opening := ha
      refine hs.waited (fun t => ?_) fun t ht => absurd ht (Nat.not_lt_zero _)
      rw [hmain]
      exact Iff.rfl
  | bind => exact hs.begun (t := .server) ha (Or.inl rfl) rfl rfl fun u hu => hkeep _ u _ hu
  | bindFails =>
      exact hs.begun (t := .server) ha (Or.inr ⟨rfl, rfl⟩) rfl rfl fun u _ => rfl
  | begin => exact hs.begun (t := .client) ha (Or.inl rfl) rfl rfl fun u hu => hkeep _ u _ hu
  | send ok =>
      obtain ⟨i, hsite, hi⟩ := goesOn_iff.mp ha.1
      refine hs.loop (t := .server) hsite hi rfl ?_ fun u hu => hkeep _ u _ hu
      simp [CoroutineSocket.step, CoroutineSocket.goto, say, hsite, Site.next]
  | recv j =>
      have hgoes : (s.site .client).goesOn := by
        cases j with
        | none => exact ha.1
        | some j => exact ha.1.1
      obtain ⟨i, hsite, hi⟩ := goesOn_iff.mp hgoes
      cases j with
      | none | some j =>
          refine hs.loop (t := .client) hsite hi rfl ?_ fun u hu => hkeep _ u _ hu
          simp [CoroutineSocket.step, recvStep, CoroutineSocket.goto, say, hsite, Site.next]
  | hear d =>
      obtain ⟨i, hsite, hi⟩ := goesOn_iff.mp ha.1.1
      refine hs.loop (t := .client) hsite hi rfl ?_ fun u hu => hkeep _ u _ hu
      simp [CoroutineSocket.step, recvStep, CoroutineSocket.goto, say, hsite, Site.next]
  | finish t =>
      obtain ⟨i, hsite, -⟩ := ends_iff.mp ha.1
      have hfits : Site.done.Fits t := trivial
      exact hs.goto (by simp [hsite]) (by simp [hsite]) (by simp) hfits rfl rfl (fun u _ => rfl)
        fun _ => ha.2
  | insert t =>
      refine ⟨hs.absent_iff, hs.joined, hs.fits, fun u hu => ?_⟩
      have hquiet := hs.quiet u hu
      have hut : u ≠ t := by
        rintro rfl
        exact ha hquiet
      exact (hkeep t u _ hut).trans hquiet
  | lose k => exact ⟨hs.absent_iff, hs.joined, hs.fits, hs.quiet⟩

theorem reachable_staged (hr : machine.Reachable s) : Staged s := by
  refine hr.invariant (P := Staged) ?_ fun s a _ hs (ha : s.enabled a) => hs.step ha.2
  exact ⟨fun t => iff_of_true rfl (Nat.zero_le _), fun t ht => absurd ht (Nat.not_lt_zero _),
    fun t => trivial, fun t _ => rfl⟩

end CoroutineSocket

end LinuxSystems
