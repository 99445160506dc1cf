/-
Whether the two threads finish.

The reader leaves its loop when the empty message arrives, and the writer sends that
message in one place only: after `read` has returned 0.  Three of its ways out miss it:
the queue is not there yet, or cannot be opened; the file cannot be opened; the empty
message itself cannot be sent.  Then the reader waits for ever in an empty queue, unless
it could not open the queue either.  And a `read` that fails is taken again, so a file
that cannot be read keeps the writer in its loop.

Both are exact: a run spins if and only if `read` fails for ever, and a run that lets the
writer out without the empty message can be continued to a reader that waits for ever.
-/
import LinuxSystems.Machine.Endless
import LinuxSystems.Queue.Transfer

namespace LinuxSystems.Queue

variable {file : List UInt8} {s : Queue} {a : Action} {run : Nat → Action}

/-! ### The writer's loop -/

/-- The action is one of the writer's loop. -/
def Action.InLoop : Action → Prop
  | .read _ | .readFails | .send | .sendFails | .sendEnd | .sendEndFails => True
  | .create | .createFails | .receive | .receiveFails | .readerClose | .unlink | .openQueue
  | .openQueueFails | .openFile | .openFileFails | .closeFile | .closeQueue => False

/-- The writer goes on in its loop for ever, and from some time on not through the file. -/
structure Spins (file : List UInt8) (run : Nat → Action) : Prop where
  loops : Machine.Forever run Action.InLoop
  stays : ∃ k, ∀ n, k ≤ n → ((machine file).stateAt run n).writer.rest =
    ((machine file).stateAt run k).writer.rest

/-- How many steps may come before the writer exits or reads again. -/
def WriterSite.rank : WriterSite → Nat
  | .openQueue => 7
  | .openFile => 6
  | .send => 5
  | .read => 4
  | .sendEnd => 3
  | .closeFile => 2
  | .closeQueue => 1
  | .exited => 0

/-- What the writer has still to do, as long as `read` does not fail. -/
def Writer.work (w : Writer) : Nat := 2 * w.rest.length + w.site.rank

theorem read_work {w : Writer} {n : Nat} (hat : w.site = .read) (hn : Readable w.rest n) :
    (w.read n).work < w.work := by
  obtain ⟨-, hlen, -⟩ := hn
  by_cases hpos : n > 0
  · have hw : w.read n = { w with
        buffer := Writer.fill (w.rest.take n)
        rest := w.rest.drop n
        chunks := w.chunks ++ [w.rest.take n]
        site := .send } := if_pos hpos
    simp only [Writer.work, hw, hat, WriterSite.rank, List.length_drop]
    omega
  · obtain rfl : n = 0 := by omega
    have hw : w.read 0 = { w with
        buffer := Writer.fill [], rest := w.rest, site := .sendEnd } := rfl
    simp only [Writer.work, hw, hat, WriterSite.rank]
    omega

/-- A step of the writer other than a `read` that fails leaves it with less to do. -/
theorem work_step (ha : enabled s a) (hread : a ≠ .readFails) :
    (s.step a).writer.work < s.writer.work ∨ ((s.step a).writer = s.writer ∧ ¬ a.InLoop) := by
  have hlower : ∀ {w : Writer} {x : WriterSite}, s.writer.site = x → w.rest = s.writer.rest →
      w.site.rank < x.rank → w.work < s.writer.work := by
    intro w x hat hrest hlt
    unfold Writer.work
    rw [hrest, hat]
    omega
  cases a with
  | create | createFails | receive | receiveFails | readerClose | unlink =>
      exact Or.inr ⟨rfl, id⟩
  | readFails => exact absurd rfl hread
  | read n => exact Or.inl (read_work ha.1 ha.2)
  | openQueue => exact Or.inl (hlower ha.1 rfl (show 6 < 7 by decide))
  | openQueueFails => exact Or.inl (hlower ha rfl (show 0 < 7 by decide))
  | openFile => exact Or.inl (hlower ha rfl (show 4 < 6 by decide))
  | openFileFails => exact Or.inl (hlower ha rfl (show 2 < 6 by decide))
  | send => exact Or.inl (hlower ha.1 rfl (show 4 < 5 by decide))
  | sendFails => exact Or.inl (hlower ha rfl (show 4 < 5 by decide))
  | sendEnd => exact Or.inl (hlower ha.1 rfl (show 2 < 3 by decide))
  | sendEndFails => exact Or.inl (hlower ha rfl (show 2 < 3 by decide))
  | closeFile => exact Or.inl (hlower ha rfl (show 1 < 2 by decide))
  | closeQueue => exact Or.inl (hlower ha rfl (show 0 < 1 by decide))

/-- A step leaves the file where it is, or less of it. -/
theorem rest_step (ha : enabled s a) :
    (s.step a).writer.rest = s.writer.rest ∨
      (s.step a).writer.rest.length < s.writer.rest.length := by
  cases a with
  | read n =>
      obtain ⟨-, -, hlen, -⟩ := ha
      have hrest : (s.step (.read n)).writer.rest = s.writer.rest.drop n := by
        simp only [step, Writer.read]
        split <;> rfl
      rw [hrest]
      by_cases hpos : n > 0
      · refine Or.inr ?_
        rw [List.length_drop]
        omega
      · obtain rfl : n = 0 := by omega
        exact Or.inl rfl
  | create | createFails | receive | receiveFails | readerClose | unlink | openQueue
  | openQueueFails | openFile | openFileFails | readFails | send | sendFails | sendEnd
  | sendEndFails | closeFile | closeQueue => exact Or.inl rfl

/-- The writer spins in exactly those endless runs in which `read` fails for ever. -/
theorem spins_iff (h : (machine file).Endless run) :
    Spins file run ↔ Machine.Forever run (· = .readFails) := by
  constructor
  · intro hspin
    by_contra hfin
    refine h.not_forever (μ := fun s => s.writer.work) ?_ ?_ hfin hspin.loops
    · intro s a _ ha hloop hread
      exact (work_step ha hread).resolve_right fun hr => hr.2 hloop
    · intro s a _ ha hread
      rcases work_step ha hread with hlt | ⟨heq, -⟩
      · exact hlt.le
      · exact (congrArg Writer.work heq).le
  · intro hfails
    refine ⟨fun k => ?_, ?_⟩
    · obtain ⟨n, hn, hrun⟩ := hfails k
      exact ⟨n, hn, hrun ▸ trivial⟩
    · exact h.settles (f := fun s => s.writer.rest) (μ := List.length)
        fun s a _ ha => rest_step ha

/-! ### The empty message -/

/-- The writer has left its loop, or never entered it. -/
def WriterSite.isPast : WriterSite → Prop
  | .closeFile | .closeQueue | .exited => True
  | .openQueue | .openFile | .read | .send | .sendEnd => False

/-- The reader waits in an empty queue that nobody will send to. -/
structure Stranded (s : Queue) : Prop where
  writer : s.writer.site = .exited
  reader : s.reader.site = .receive
  messages : s.messages = []

/-- It waits for ever. -/
theorem Stranded.step (h : Stranded s) (ha : enabled s a) : Stranded (s.step a) := by
  cases a with
  | receiveFails => exact h
  | create | createFails | readerClose | unlink => simp [enabled, h.reader] at ha
  | receive => exact absurd h.messages ha.2
  | openQueue | openQueueFails | openFile | openFileFails | read n | readFails | send | sendFails
  | sendEnd | sendEndFails | closeFile | closeQueue => simp [enabled, h.writer] at ha

/-- The writer gets out without the empty message only where the reader has given up. -/
def Marks (s : Queue) : Action → Prop
  | .openQueueFails | .openFileFails | .sendEndFails =>
      s.reader.site = .unlink ∨ s.reader.site = .exited
  | _ => True

instance (s : Queue) : ∀ a, Decidable (Marks s a)
  | .openQueueFails | .openFileFails | .sendEndFails => inferInstanceAs (Decidable (_ ∨ _))
  | .create | .createFails | .receive | .receiveFails | .readerClose | .unlink | .openQueue
  | .openFile | .read _ | .readFails | .send | .sendFails | .sendEnd | .closeFile
  | .closeQueue => isTrue trivial

/-- Once the writer is out, the empty message is on its way or the reader out of its loop. -/
def Marked (s : Queue) : Prop := s.writer.site.isPast → [] ∈ s.messages ∨ s.reader.site.isLeft

theorem read_site (n : Nat) (w : Writer) : ¬ (w.read n).site.isPast := by
  unfold Writer.read
  dsimp only
  split <;> exact id

/-- What the reader takes off the queue either ends its loop or leaves the empty message there. -/
theorem receive_marked {m : List UInt8} {rest : List (List UInt8)} {r : Reader}
    (h : [] ∈ m :: rest) : [] ∈ rest ∨ (r.receive m).site.isLeft := by
  by_cases hm : m = []
  · refine Or.inr ?_
    rw [receive_site, if_pos hm]
    trivial
  · exact Or.inl ((List.mem_cons.mp h).resolve_left fun hnil => hm hnil.symm)

theorem Marked.step (h : Marked s) (ha : enabled s a) (hm : Marks s a) : Marked (s.step a) := by
  have hgiven : s.reader.site = .unlink ∨ s.reader.site = .exited → s.reader.site.isLeft := by
    rintro (h | h) <;> (rw [h]; trivial)
  cases a with
  | create =>
      intro hpast
      have hat : s.reader.site = .open := ha
      exact Or.inl ((h hpast).resolve_right (by rw [hat]; exact id))
  | createFails | readerClose | unlink => exact fun _ => Or.inr trivial
  | receiveFails => exact h
  | receive =>
      intro hpast
      obtain ⟨hat, hne⟩ := ha
      obtain ⟨m, rest, hmsg⟩ := List.exists_cons_of_ne_nil hne
      have hnil : [] ∈ m :: rest := by
        rw [← hmsg]
        exact (h hpast).resolve_right (by rw [hat]; exact id)
      simp only [Queue.step, hmsg, List.headD_cons, List.tail_cons]
      exact receive_marked hnil
  | openQueueFails | openFileFails | sendEndFails => exact fun _ => Or.inr (hgiven hm)
  | openQueue | openFile | sendFails | send => exact fun hpast => hpast.elim
  | read n => exact fun hpast => absurd hpast (read_site n s.writer)
  | readFails => exact h
  | sendEnd => exact fun _ => Or.inl (by simp [Queue.step])
  | closeFile =>
      have hat : s.writer.site = .closeFile := ha
      exact fun _ => h (by rw [hat]; trivial)
  | closeQueue =>
      have hat : s.writer.site = .closeQueue := ha
      exact fun _ => h (by rw [hat]; trivial)

theorem marked_reachable (h : ((machine file).restrict Marks).Reachable s) : Marked s := by
  refine h.invariant (P := Marked) ?_ ?_
  · exact fun hpast => False.elim hpast
  · exact fun s a _ hs ha => hs.step ha.1 ha.2

theorem Marked.not_stranded (h : Marked s) : ¬ Stranded s := by
  intro hs
  rcases h (by rw [hs.writer]; trivial) with hnil | hleft
  · rw [hs.messages] at hnil
    exact absurd hnil List.not_mem_nil
  · rw [hs.reader] at hleft
    exact hleft

/-! ### Without it -/

/-- What is known before the writer is out. -/
structure Pending (s : Queue) : Prop where
  chunk : s.writer.site = .send → s.writer.message ≠ []
  unmarked : ¬ s.writer.site.isPast → [] ∉ s.messages ∧ s.reader.site ≠ .close

/-- The writer is out, and no empty message is on its way. -/
structure Abandoned (s : Queue) : Prop where
  writer : s.writer.site.isPast
  messages : [] ∉ s.messages
  reader : s.reader.site ≠ .close

theorem receive_keeps {m : List UInt8} {rest : List (List UInt8)} {r : Reader}
    (hm : [] ∉ m :: rest) :
    [] ∉ rest ∧ (r.receive m).site = r.site := by
  obtain ⟨hne, hrest⟩ := not_or.mp (fun h => hm (List.mem_cons.mpr h))
  exact ⟨hrest, by rw [receive_site, if_neg fun h => hne h.symm]⟩

theorem read_message {w : Writer} {n : Nat} (hn : Readable w.rest n)
    (hat : (w.read n).site = .send) : (w.read n).message ≠ [] := by
  obtain ⟨hmax, hlen, -⟩ := hn
  unfold Writer.read at hat ⊢
  by_cases hpos : n > 0
  · rw [if_pos hpos]
    have htake : (w.rest.take n).length = n := by
      rw [List.length_take]
      omega
    have hfill : (Writer.fill (w.rest.take n)).length = maxSize := fill_length (by omega)
    intro hnil
    have hzero : ((Writer.fill (w.rest.take n)).take maxSize).length = 0 := by
      rw [List.length_eq_zero_iff]
      exact hnil
    rw [List.length_take, hfill] at hzero
    simp [maxSize] at hzero
  · rw [if_neg hpos] at hat
    cases hat

theorem Pending.step (h : Pending s) (ha : enabled s a) : Pending (s.step a) := by
  cases a with
  | create | createFails | unlink => exact ⟨h.chunk, fun hp => ⟨(h.unmarked hp).1, fun hc => by cases hc⟩⟩
  | readerClose =>
      refine ⟨h.chunk, fun hp => ?_⟩
      exact absurd ha (h.unmarked hp).2
  | receiveFails | readFails => exact h
  | receive =>
      obtain ⟨m, rest, hmsg⟩ := List.exists_cons_of_ne_nil ha.2
      simp only [Queue.step, hmsg, List.headD_cons, List.tail_cons]
      refine ⟨h.chunk, fun hp => ?_⟩
      obtain ⟨hnil, hclose⟩ := h.unmarked hp
      obtain ⟨hrest, hsite⟩ := receive_keeps (r := s.reader) (hmsg ▸ hnil)
      exact ⟨hrest, fun hc => hclose (hsite.symm.trans hc)⟩
  | openQueue => exact ⟨fun hc => (by cases hc), fun _ => h.unmarked (by rw [ha.1]; exact id)⟩
  | openFile =>
      have hat : s.writer.site = .openFile := ha
      exact ⟨fun hc => (by cases hc), fun _ => h.unmarked (by rw [hat]; exact id)⟩
  | sendFails =>
      have hat : s.writer.site = .send := ha
      exact ⟨fun hc => (by cases hc), fun _ => h.unmarked (by rw [hat]; exact id)⟩
  | read n =>
      exact ⟨read_message ha.2, fun _ => h.unmarked (by rw [ha.1]; exact id)⟩
  | send =>
      refine ⟨fun hc => (by cases hc), fun _ => ?_⟩
      obtain ⟨hnil, hclose⟩ := h.unmarked (by rw [ha.1]; exact id)
      refine ⟨fun hmem => ?_, hclose⟩
      rcases List.mem_append.mp hmem with hmem | hmem
      · exact hnil hmem
      · exact h.chunk ha.1 (List.mem_singleton.mp hmem).symm
  | openQueueFails | openFileFails | sendEnd | sendEndFails | closeFile | closeQueue =>
      exact ⟨fun hc => (by cases hc), fun hp => absurd trivial hp⟩

theorem pending (h : (machine file).Reachable s) : Pending s := by
  refine h.invariant (P := Pending) ⟨?_, fun _ => ⟨List.not_mem_nil, ?_⟩⟩ ?_
  · simp [machine, Writer.start]
  · simp [machine, Reader.start]
  · exact fun s a _ hs ha => hs.step ha

/-- A way out without the empty message leaves the reader without it. -/
theorem abandoned_of_not_marks (h : Pending s) (ha : enabled s a) (hm : ¬ Marks s a) :
    Abandoned (s.step a) := by
  have hout : ∀ x, s.writer.site = x → ¬ x.isPast →
      [] ∉ s.messages ∧ s.reader.site ≠ .close := by
    rintro x rfl hx
    exact h.unmarked hx
  cases a with
  | openQueueFails =>
      obtain ⟨hnil, hclose⟩ := hout .openQueue ha id
      exact ⟨trivial, hnil, hclose⟩
  | openFileFails =>
      obtain ⟨hnil, hclose⟩ := hout .openFile ha id
      exact ⟨trivial, hnil, hclose⟩
  | sendEndFails =>
      obtain ⟨hnil, hclose⟩ := hout .sendEnd ha id
      exact ⟨trivial, hnil, hclose⟩
  | create | createFails | receive | receiveFails | readerClose | unlink | openQueue | openFile
  | read n | readFails | send | sendFails | sendEnd | closeFile | closeQueue =>
      exact absurd trivial hm

theorem Abandoned.step (h : Abandoned s) (ha : enabled s a) : Abandoned (s.step a) := by
  have hpast : ∀ x, s.writer.site = x → x.isPast := by
    rintro x rfl
    exact h.writer
  cases a with
  | create | createFails | unlink => exact ⟨h.writer, h.messages, nofun⟩
  | readerClose => exact absurd ha h.reader
  | receiveFails => exact h
  | receive =>
      obtain ⟨m, rest, hmsg⟩ := List.exists_cons_of_ne_nil ha.2
      simp only [Queue.step, hmsg, List.headD_cons, List.tail_cons]
      obtain ⟨hrest, hsite⟩ := receive_keeps (r := s.reader) (hmsg ▸ h.messages)
      exact ⟨h.writer, hrest, fun hc => h.reader (hsite.symm.trans hc)⟩
  | openQueue => exact (hpast .openQueue ha.1).elim
  | openQueueFails => exact (hpast .openQueue ha).elim
  | openFile | openFileFails => exact (hpast .openFile ha).elim
  | read n => exact (hpast .read ha.1).elim
  | readFails => exact (hpast .read ha).elim
  | send => exact (hpast .send ha.1).elim
  | sendFails => exact (hpast .send ha).elim
  | sendEnd => exact (hpast .sendEnd ha.1).elim
  | sendEndFails => exact (hpast .sendEnd ha).elim
  | closeFile | closeQueue => exact ⟨trivial, h.messages, h.reader⟩

/-- The reader takes what there is off the queue. -/
theorem exists_drained (file : List UInt8) (hreader : s.reader.site = .receive) (hnil : [] ∉ s.messages) :
    ∃ tr, (machine file).Legal s tr ∧ ((machine file).after s tr).writer = s.writer ∧
      ((machine file).after s tr).reader.site = .receive ∧
      ((machine file).after s tr).messages = [] := by
  induction hl : s.messages generalizing s with
  | nil => exact ⟨[], trivial, rfl, hreader, hl⟩
  | cons m rest ih =>
      obtain ⟨hrest, hsite⟩ := receive_keeps (r := s.reader) (hl ▸ hnil)
      have hstep : s.step .receive =
          { s with reader := s.reader.receive m, messages := rest } := by
        simp [Queue.step, hl]
      have hmsg : (s.step .receive).messages = rest := by rw [hstep]
      obtain ⟨tr, htr, hw, hr, hm⟩ := @ih (s.step .receive)
        (by rw [hstep]; exact hsite.trans hreader) (by rw [hmsg]; exact hrest) hmsg
      refine ⟨.receive :: tr, ⟨⟨hreader, by rw [hl]; exact List.cons_ne_nil m rest⟩, htr⟩,
        ?_, hr, hm⟩
      exact hw.trans (by rw [hstep])

/-- A writer that is past its loop goes on to its end. -/
theorem exists_exited (file : List UInt8) (hpast : s.writer.site.isPast) :
    ∃ tr, (machine file).Legal s tr ∧ ((machine file).after s tr).writer.site = .exited ∧
      ((machine file).after s tr).reader = s.reader ∧
      ((machine file).after s tr).messages = s.messages := by
  cases hat : s.writer.site with
  | closeFile =>
      have hlegal : (machine file).Legal s [.closeFile, .closeQueue] := ⟨hat, rfl, trivial⟩
      exact ⟨_, hlegal, rfl, rfl, rfl⟩
  | closeQueue =>
      have hlegal : (machine file).Legal s [.closeQueue] := ⟨hat, trivial⟩
      exact ⟨_, hlegal, rfl, rfl, rfl⟩
  | exited => exact ⟨[], trivial, hat, rfl, rfl⟩
  | openQueue | openFile | read | send | sendEnd =>
      rw [hat] at hpast
      exact hpast.elim

/-- A reader that has not given up waits in the end for ever. -/
theorem Abandoned.stranded (h : Abandoned s) (file : List UInt8)
    (hunlink : s.reader.site ≠ .unlink)
    (hexited : s.reader.site ≠ .exited) :
    ∃ tr, (machine file).Legal s tr ∧ Stranded ((machine file).after s tr) := by
  -- the reader comes to its loop
  obtain ⟨tr₁, hl₁, hr₁, hw₁, hm₁⟩ : ∃ tr, (machine file).Legal s tr ∧
      ((machine file).after s tr).reader.site = .receive ∧
      ((machine file).after s tr).writer = s.writer ∧
      ((machine file).after s tr).messages = s.messages := by
    cases hat : s.reader.site with
    | «open» =>
        have hlegal : (machine file).Legal s [.create] := ⟨hat, trivial⟩
        exact ⟨_, hlegal, rfl, rfl, rfl⟩
    | receive => exact ⟨[], trivial, hat, rfl, rfl⟩
    | close => exact absurd hat h.reader
    | unlink => exact absurd hat hunlink
    | exited => exact absurd hat hexited
  -- the writer comes to its end
  obtain ⟨tr₂, hl₂, hw₂, hr₂, hm₂⟩ :=
    exists_exited file (s := (machine file).after s tr₁) (by rw [hw₁]; exact h.writer)
  -- and the queue is drained
  obtain ⟨tr₃, hl₃, hw₃, hr₃, hm₃⟩ := exists_drained file
    (s := (machine file).after ((machine file).after s tr₁) tr₂) (by rw [hr₂]; exact hr₁)
    (by rw [hm₂, hm₁]; exact h.messages)
  refine ⟨tr₁ ++ (tr₂ ++ tr₃), ?_, ?_⟩
  · exact Machine.legal_append.mpr ⟨hl₁, Machine.legal_append.mpr ⟨hl₂, hl₃⟩⟩
  · rw [Machine.after_append, Machine.after_append]
    exact ⟨by rw [hw₃]; exact hw₂, hr₃, hm₃⟩

/-- A run either kept to the condition or left the reader without the empty message. -/
theorem marks_or_abandoned {tr : List Action} (hl : (machine file).Legal (machine file).init tr) :
    ((machine file).restrict Marks).Legal (machine file).init tr ∨
      Abandoned ((machine file).after (machine file).init tr) := by
  refine Machine.run_invariant (m := machine file)
    (P := fun tr s => ((machine file).restrict Marks).Legal (machine file).init tr ∨ Abandoned s)
    (Or.inl trivial) ?_ hl
  intro tr a hl hP ha
  rcases hP with hmarks | habandoned
  · by_cases hm : Marks ((machine file).after (machine file).init tr) a
    · exact Or.inl (Machine.legal_snoc.mpr ⟨hmarks, ha, hm⟩)
    · exact Or.inr (abandoned_of_not_marks (pending (Machine.reachable_after hl)) ha hm)
  · exact Or.inr (habandoned.step ha)

/-! ### Both threads finish -/

/--
**The threads finish exactly where `read` stops failing and the empty message is sent.**
An endless run spins if and only if `read` fails for ever in it.  Where the writer gets out
with the empty message, or after the reader has given up, the reader is never left waiting;
and from where it gets out otherwise, the reader, unless it gives up, can be.
-/
theorem queue_finishes (file : List UInt8) :
    (∀ run, (machine file).Endless run →
      (¬ Spins file run ↔ ¬ Machine.Forever run (· = .readFails))) ∧
    (∀ tr, ((machine file).restrict Marks).Legal (machine file).init tr →
      ¬ Stranded ((machine file).after (machine file).init tr)) ∧
    (∀ tr, (machine file).Legal (machine file).init tr →
      ¬ ((machine file).restrict Marks).Legal (machine file).init tr →
      ((machine file).after (machine file).init tr).reader.site ≠ .unlink →
      ((machine file).after (machine file).init tr).reader.site ≠ .exited →
      ∃ tr', (machine file).Legal (machine file).init (tr ++ tr') ∧
        Stranded ((machine file).after (machine file).init (tr ++ tr'))) := by
  refine ⟨?_, ?_, ?_⟩
  · exact fun run h => not_congr (spins_iff h)
  · exact fun tr hl => (marked_reachable (Machine.reachable_after hl)).not_stranded
  · intro tr hl hm hunlink hexited
    obtain ⟨tr', hl', hs⟩ :=
      ((marks_or_abandoned hl).resolve_left hm).stranded file hunlink hexited
    refine ⟨tr', Machine.legal_append.mpr ⟨hl, hl'⟩, ?_⟩
    rw [Machine.after_append]
    exact hs

/-- `test.dat` can be opened but not read, as a directory can. -/
def unreadable : Nat → Action
  | 0 => .create
  | 1 => .openQueue
  | 2 => .openFile
  | _ + 3 => .readFails

theorem unreadable_stateAt (file : List UInt8) (n : Nat) :
    (machine file).stateAt unreadable (n + 3) = (machine file).stateAt unreadable 3 := by
  induction n with
  | zero => rfl
  | succ n ih =>
      rw [Machine.stateAt_succ, ih]
      rfl

theorem unreadable_endless (file : List UInt8) : (machine file).Endless unreadable := by
  refine Machine.Endless.of_enabled fun n => ?_
  match n with
  | 0 => exact (rfl : Reader.start.site = .open)
  | 1 => exact (⟨rfl, rfl⟩ : (Writer.start file).site = .openQueue ∧ true = true)
  | 2 => exact (rfl : (Writer.start file).openedQueue.site = .openFile)
  | n + 3 =>
      rw [unreadable_stateAt]
      exact (rfl : (Writer.start file).openedQueue.openedFile.site = .read)

theorem unreadable_forever : Machine.Forever unreadable (· = .readFails) :=
  fun k => ⟨k + 3, by omega, rfl⟩

/-- The empty file: the run to the end of both threads, the endless one, and what an early writer
leads to. -/
theorem queue_finishes_empty :
    Spins [] unreadable ∧
      ¬ Stranded ((machine []).after (machine []).init
        [.create, .openQueue, .openFile, .read 0, .sendEnd, .closeFile, .receive, .readerClose,
          .unlink, .closeQueue]) ∧
      ∃ tr', (machine []).Legal (machine []).init ([.openQueueFails] ++ tr') ∧
        Stranded ((machine []).after (machine []).init ([.openQueueFails] ++ tr')) := by
  refine ⟨?_, (queue_finishes []).2.1 _ (by decide), ?_⟩
  · exact not_not.mp fun hspin =>
      ((queue_finishes []).1 unreadable (unreadable_endless [])).mp hspin unreadable_forever
  · exact (queue_finishes []).2.2 [.openQueueFails] (by decide) (by decide) (by decide) (by decide)

/-- A file that can be opened and not read keeps the writer in its loop, and a writer that comes
before the queue is there leaves the reader waiting. -/
theorem queue_hangs :
    (¬ ∀ file run, (machine file).Endless run → ¬ Spins file run) ∧
      ¬ ∀ file s, (machine file).Reachable s → ¬ Stranded s := by
  constructor
  · intro hall
    exact hall [] unreadable (unreadable_endless [])
      ((spins_iff (unreadable_endless [])).mpr unreadable_forever)
  · intro hall
    have hl : (machine []).Legal (machine []).init [.openQueueFails, .create] := by decide
    exact hall [] _ (Machine.reachable_after hl) ⟨rfl, rfl, rfl⟩

end LinuxSystems.Queue
