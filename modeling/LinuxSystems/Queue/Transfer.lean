/-
What arrives of the file.

Every message but the last is sent with the size of the buffer, not with the number of
bytes that `read` returned.  So a chunk that does not fill the buffer arrives with zeros
behind it, and what the reader received is the file exactly when every chunk was full:
its length is a multiple of the buffer's, and `read` never returned less.

The queue itself loses and reorders nothing.  What was received followed by what is in
the queue is what was sent (`Flow.fifo`), and what was sent are the chunks, each in its
buffer, with one empty message behind them once the file has come to its end.
-/
import LinuxSystems.Queue.Model

namespace LinuxSystems.Queue

variable {file : List UInt8} {s : Queue} {a : Action}

/-- The action is not the failure of a system call. -/
def Action.Succeeds : Action → Prop
  | .createFails | .receiveFails | .openQueueFails | .openFileFails | .readFails | .sendFails
  | .sendEndFails => False
  | .create | .receive | .readerClose | .unlink | .openQueue | .openFile | .read _ | .send
  | .sendEnd | .closeFile | .closeQueue => True

instance : ∀ a : Action, Decidable a.Succeeds
  | .createFails | .receiveFails | .openQueueFails | .openFileFails | .readFails | .sendFails
  | .sendEndFails => isFalse id
  | .create | .receive | .readerClose | .unlink | .openQueue | .openFile | .read _ | .send
  | .sendEnd | .closeFile | .closeQueue => isTrue trivial

/-- The program when no system call fails. -/
def success (file : List UInt8) : Machine Queue Action :=
  (machine file).restrict fun _ a => a.Succeeds

instance (file : List UInt8) (s : Queue) (a : Action) : Decidable ((success file).enabled s a) :=
  inferInstanceAs (Decidable (enabled s a ∧ a.Succeeds))

/-! ### Chunks and messages -/

theorem fill_length {chunk : List UInt8} (h : chunk.length ≤ maxSize) :
    (Writer.fill chunk).length = maxSize := by
  simp only [Writer.fill, List.length_append, List.length_replicate]
  omega

theorem fill_ne_nil {chunk : List UInt8} (h : 0 < chunk.length) : Writer.fill chunk ≠ [] := by
  intro hnil
  have hlen := congrArg List.length hnil
  simp only [Writer.fill, List.length_append, List.length_replicate, List.length_nil] at hlen
  omega

/-- A full chunk is sent as it is. -/
theorem fill_full {chunk : List UInt8} (h : chunk.length = maxSize) :
    Writer.fill chunk = chunk := by
  simp [Writer.fill, h]

/-- Of a message that fits, everything is received. -/
theorem receive_received {message : List UInt8} (h : message.length ≤ maxSize) (r : Reader) :
    (r.receive message).received = r.received ++ [message] := by
  have hrec : (r.receive message).received = r.received ++ [message.take maxSize] := by
    unfold Reader.receive
    dsimp only
    split <;> simp [Buffer.receive]
  rw [hrec, List.take_of_length_le h]

/-- An empty message ends the loop. -/
theorem receive_site (message : List UInt8) (r : Reader) :
    (r.receive message).site = if message = [] then .close else r.site := by
  have hlen : 0 < (Buffer.receive maxSize message r.buffer).2 ↔ message ≠ [] := by
    simp only [Buffer.receive, List.length_take, ← List.length_pos_iff, maxSize]
    omega
  by_cases hm : message = []
  · rw [if_pos hm]
    simp only [Reader.receive]
    rw [if_neg (fun hpos => hlen.mp hpos hm)]
  · rw [if_neg hm]
    simp only [Reader.receive]
    rw [if_pos (hlen.mpr hm)]

/-! ### What is where -/

/-- The reader has left its loop. -/
def ReaderSite.isLeft : ReaderSite → Prop
  | .close | .unlink | .exited => True
  | .open | .receive => False

instance : ∀ x : ReaderSite, Decidable x.isLeft
  | .close | .unlink | .exited => isTrue trivial
  | .open | .receive => isFalse id

/-- What the writer has sent, at each place. -/
def Writer.Fits (w : Writer) : Prop :=
  match w.site with
  | .openQueue | .openFile | .read => w.sent = w.chunks.map fill
  | .send => w.sent ++ [w.message] = w.chunks.map fill
  | .sendEnd => w.sent = w.chunks.map fill ∧ w.rest = []
  | .closeFile | .closeQueue | .exited => w.sent = w.chunks.map fill ++ [[]] ∧ w.rest = []

structure Flow (file : List UInt8) (s : Queue) : Prop where
  fifo : s.reader.received ++ s.messages = s.writer.sent
  whole : s.writer.chunks.flatten ++ s.writer.rest = file
  sizes : ∀ c ∈ s.writer.chunks, 0 < c.length ∧ c.length ≤ maxSize
  writer : s.writer.Fits
  marker : s.reader.site.isLeft → [] ∈ s.reader.received

namespace Flow

/-- What was sent are the chunks in their buffers, and perhaps an empty message. -/
theorem sent_prefix (h : Flow file s) :
    s.writer.sent <+: s.writer.chunks.map Writer.fill ++ [[]] := by
  have hfits := h.writer
  unfold Writer.Fits at hfits
  split at hfits
  case h_1 | h_2 | h_3 => exact hfits ▸ List.prefix_append _ _
  case h_4 =>
    rw [← hfits, List.append_assoc]
    exact List.prefix_append _ _
  case h_5 => exact hfits.1 ▸ List.prefix_append _ _
  case h_6 | h_7 | h_8 => exact hfits.1 ▸ List.prefix_refl _

theorem received_prefix (h : Flow file s) :
    s.reader.received <+: s.writer.chunks.map Writer.fill ++ [[]] :=
  (List.prefix_append _ s.messages).trans (h.fifo ▸ h.sent_prefix)

/-- Every message fits the reader's buffer. -/
theorem message_length (h : Flow file s) {m : List UInt8} (hm : m ∈ s.messages) :
    m.length ≤ maxSize := by
  have hsent : m ∈ s.writer.sent := h.fifo ▸ List.mem_append_right _ hm
  rcases List.mem_append.mp (h.sent_prefix.subset hsent) with hchunk | hend
  · obtain ⟨c, hc, rfl⟩ := List.mem_map.mp hchunk
    exact (fill_length (h.sizes c hc).2).le
  · rw [List.mem_singleton.mp hend]
    exact Nat.zero_le _

theorem nil_not_chunk (h : Flow file s) : [] ∉ s.writer.chunks.map Writer.fill := by
  intro hnil
  obtain ⟨c, hc, hfill⟩ := List.mem_map.mp hnil
  exact fill_ne_nil (h.sizes c hc).1 hfill

/-- The reader leaves its loop with everything that was sent, and then the file is at its end. -/
theorem of_left (h : Flow file s) (hleft : s.reader.site.isLeft) :
    s.reader.received = s.writer.chunks.map Writer.fill ++ [[]] ∧ s.writer.chunks.flatten = file := by
  have hnil : [] ∈ s.writer.sent := h.fifo ▸ List.mem_append_left _ (h.marker hleft)
  have hrec : s.reader.received = s.writer.chunks.map Writer.fill ++ [[]] := by
    -- the empty message is the last one, so a beginning that holds it is everything
    obtain ⟨after, hafter⟩ := h.received_prefix
    rcases List.eq_nil_or_concat after with rfl | ⟨after', x, rfl⟩
    · rw [List.append_nil] at hafter
      exact hafter
    · rw [List.concat_eq_append, ← List.append_assoc] at hafter
      have hinit := (List.append_inj' hafter rfl).1
      exact absurd (hinit ▸ List.mem_append_left _ (h.marker hleft)) h.nil_not_chunk
  refine ⟨hrec, ?_⟩
  have hfits := h.writer
  have hwhole := h.whole
  unfold Writer.Fits at hfits
  split at hfits
  case h_1 | h_2 | h_3 => exact absurd (hfits ▸ hnil) h.nil_not_chunk
  case h_4 =>
    exact absurd (hfits ▸ List.mem_append_left _ hnil) h.nil_not_chunk
  case h_5 => exact absurd (hfits.1 ▸ hnil) h.nil_not_chunk
  case h_6 | h_7 | h_8 =>
    rw [hfits.2, List.append_nil] at hwhole
    exact hwhole

/-- A step of the writer that sends nothing. -/
theorem writer_step (h : Flow file s) {w : Writer} (hsent : w.sent = s.writer.sent)
    (hwhole : w.chunks.flatten ++ w.rest = file)
    (hsizes : ∀ c ∈ w.chunks, 0 < c.length ∧ c.length ≤ maxSize) (hfits : w.Fits) :
    Flow file { s with writer := w } :=
  ⟨h.fifo.trans hsent.symm, hwhole, hsizes, hfits, h.marker⟩

/-- The writer sends a message. -/
theorem send_step (h : Flow file s) {w : Writer} {m : List UInt8}
    (hsent : w.sent = s.writer.sent ++ [m]) (hwhole : w.chunks.flatten ++ w.rest = file)
    (hsizes : ∀ c ∈ w.chunks, 0 < c.length ∧ c.length ≤ maxSize) (hfits : w.Fits) :
    Flow file { s with writer := w, messages := s.messages ++ [m] } := by
  refine ⟨?_, hwhole, hsizes, hfits, h.marker⟩
  show s.reader.received ++ (s.messages ++ [m]) = w.sent
  rw [← List.append_assoc, h.fifo, hsent]

/-- A step of the reader that receives nothing. -/
theorem reader_step (h : Flow file s) {r : Reader} (hrec : r.received = s.reader.received)
    (hleft : r.site.isLeft → s.reader.site.isLeft) (linked : Bool) :
    Flow file { s with reader := r, linked := linked } := by
  refine ⟨?_, h.whole, h.sizes, h.writer, fun hl => ?_⟩
  · show r.received ++ s.messages = s.writer.sent
    rw [hrec, h.fifo]
  · show [] ∈ r.received
    rw [hrec]
    exact h.marker (hleft hl)

theorem receive (h : Flow file s) (hat : s.reader.site = .receive) (hne : s.messages ≠ []) :
    Flow file (s.step .receive) := by
  obtain ⟨m, rest, hm⟩ := List.exists_cons_of_ne_nil hne
  have hfits : m.length ≤ maxSize := h.message_length (hm ▸ List.mem_cons_self)
  have hrec : (s.reader.receive m).received = s.reader.received ++ [m] :=
    receive_received hfits s.reader
  have hstep : s.step .receive = { s with reader := s.reader.receive m, messages := rest } := by
    simp [step, hm]
  rw [hstep]
  refine ⟨?_, h.whole, h.sizes, h.writer, fun hleft => ?_⟩
  · show (s.reader.receive m).received ++ rest = s.writer.sent
    rw [hrec, List.append_assoc, List.singleton_append, ← hm, h.fifo]
  · show [] ∈ (s.reader.receive m).received
    have hsite : (s.reader.receive m).site.isLeft := hleft
    rw [receive_site, hat] at hsite
    by_cases hnil : m = []
    · rw [hrec, hnil]
      simp
    · rw [if_neg hnil] at hsite
      exact hsite.elim

theorem read (h : Flow file s) {n : Nat} (hat : s.writer.site = .read)
    (hn : Readable s.writer.rest n) : Flow file (s.step (.read n)) := by
  obtain ⟨hmax, hlen, hend⟩ := hn
  have hfits := h.writer
  simp only [Writer.Fits, hat] at hfits
  have htake : (s.writer.rest.take n).length = n := by
    rw [List.length_take]
    omega
  by_cases hpos : n > 0
  · have hw : s.writer.read n = { s.writer with
        buffer := Writer.fill (s.writer.rest.take n)
        rest := s.writer.rest.drop n
        chunks := s.writer.chunks ++ [s.writer.rest.take n]
        site := .send } := if_pos hpos
    simp only [step, hw]
    refine h.writer_step rfl ?_ ?_ ?_
    · simp [← h.whole]
    · intro c hc
      rcases List.mem_append.mp hc with hc | hc
      · exact h.sizes c hc
      · rw [List.mem_singleton.mp hc, htake]
        exact ⟨hpos, hmax⟩
    · have hfill : (Writer.fill (s.writer.rest.take n)).take maxSize =
          Writer.fill (s.writer.rest.take n) :=
        List.take_of_length_le (fill_length (by omega)).le
      simp [Writer.Fits, Writer.message, hfill, hfits]
  · obtain rfl : n = 0 := by omega
    have hw : s.writer.read 0 = { s.writer with
        buffer := Writer.fill [], rest := s.writer.rest, site := .sendEnd } := rfl
    simp only [step, hw]
    exact h.writer_step rfl h.whole h.sizes ⟨hfits, hend rfl⟩

theorem step (h : Flow file s) (ha : (success file).enabled s a) : Flow file (s.step a) := by
  obtain ⟨hen, hok⟩ := ha
  have hfits := h.writer
  cases a with
  | createFails | receiveFails | openQueueFails | openFileFails | readFails | sendFails
  | sendEndFails => exact hok.elim
  | create => exact h.reader_step (r := s.reader.opened) rfl False.elim true
  | readerClose =>
      have hat : s.reader.site = .close := hen
      exact h.reader_step (r := s.reader.closed) rfl (fun _ => hat ▸ trivial) s.linked
  | unlink =>
      have hat : s.reader.site = .unlink := hen
      exact h.reader_step (r := s.reader.unlinked) rfl (fun _ => hat ▸ trivial) false
  | receive => exact h.receive hen.1 hen.2
  | read n => exact h.read hen.1 hen.2
  | openQueue =>
      simp only [Writer.Fits, hen.1] at hfits
      exact h.writer_step rfl h.whole h.sizes hfits
  | openFile =>
      have hat : s.writer.site = .openFile := hen
      simp only [Writer.Fits, hat] at hfits
      exact h.writer_step rfl h.whole h.sizes hfits
  | closeFile =>
      have hat : s.writer.site = .closeFile := hen
      simp only [Writer.Fits, hat] at hfits
      exact h.writer_step rfl h.whole h.sizes hfits
  | closeQueue =>
      have hat : s.writer.site = .closeQueue := hen
      simp only [Writer.Fits, hat] at hfits
      exact h.writer_step rfl h.whole h.sizes hfits
  | send =>
      simp only [Writer.Fits, hen.1] at hfits
      exact h.send_step rfl h.whole h.sizes hfits
  | sendEnd =>
      simp only [Writer.Fits, hen.1] at hfits
      refine h.send_step rfl h.whole h.sizes ⟨?_, hfits.2⟩
      show s.writer.sent ++ [[]] = s.writer.chunks.map Writer.fill ++ [[]]
      rw [hfits.1]

end Flow

theorem flow_init (file : List UInt8) : Flow file (success file).init where
  fifo := rfl
  whole := rfl
  sizes _ hc := absurd hc List.not_mem_nil
  writer := rfl
  marker := False.elim

theorem reachable_flow (h : (success file).Reachable s) : Flow file s :=
  h.invariant (flow_init file) fun _ _ _ hs ha => hs.step ha

/-! ### Full chunks -/

/-- `read` fills the buffer, except at the end of the file. -/
def ReadsFull (_ : Queue) : Action → Prop
  | .read n => n = 0 ∨ n = maxSize
  | _ => True

instance (s : Queue) : ∀ a, Decidable (ReadsFull s a)
  | .read n => inferInstanceAs (Decidable (n = 0 ∨ n = maxSize))
  | .create | .createFails | .receive | .receiveFails | .readerClose | .unlink | .openQueue
  | .openQueueFails | .openFile | .openFileFails | .readFails | .send | .sendFails | .sendEnd
  | .sendEndFails | .closeFile | .closeQueue => isTrue trivial

def AllFull (s : Queue) : Prop := ∀ c ∈ s.writer.chunks, c.length = maxSize

theorem allFull_step (ha : enabled s a) : AllFull (s.step a) ↔ AllFull s ∧ ReadsFull s a := by
  cases a with
  | read n =>
      obtain ⟨-, hmax, hlen, -⟩ := ha
      by_cases hpos : n > 0
      · have hw : (s.step (.read n)).writer.chunks = s.writer.chunks ++ [s.writer.rest.take n] := by
          simp only [step, Writer.read]
          rw [if_pos hpos]
        have htake : (s.writer.rest.take n).length = n := by
          rw [List.length_take]
          omega
        simp only [AllFull, ReadsFull, hw, List.forall_mem_append, List.forall_mem_singleton, htake]
        exact and_congr_right fun _ => ⟨Or.inr, fun h => h.resolve_left (by omega)⟩
      · obtain rfl : n = 0 := by omega
        exact (and_iff_left (Or.inl rfl)).symm
  | create | createFails | receive | receiveFails | readerClose | unlink | openQueue
  | openQueueFails | openFile | openFileFails | readFails | send | sendFails | sendEnd
  | sendEndFails | closeFile | closeQueue => exact (and_iff_left trivial).symm

theorem readsFull_iff {tr : List Action} (hl : (success file).Legal (success file).init tr) :
    ((success file).restrict ReadsFull).Legal (success file).init tr ↔
      AllFull ((success file).after (success file).init tr) := by
  refine Machine.restrict_legal_iff (m := success file) (P := AllFull) ?_ ?_ hl
  · exact fun c hc => absurd hc List.not_mem_nil
  · exact fun s a _ ha => allFull_step ha.1

/-- What is sent of full chunks is the chunks. -/
theorem map_fill_eq {chunks : List (List UInt8)} (h : ∀ c ∈ chunks, c.length = maxSize) :
    chunks.map Writer.fill = chunks := by
  rw [List.map_congr_left fun c hc => fill_full (h c hc), List.map_id']

/-- What is sent is never shorter than the chunks. -/
theorem length_le_fill (chunks : List (List UInt8)) :
    chunks.flatten.length ≤ (chunks.map Writer.fill).flatten.length := by
  induction chunks with
  | nil => exact le_rfl
  | cons c chunks ih =>
      simp only [List.map_cons, List.flatten_cons, List.length_append, Writer.fill]
      omega

/-- It is as long as the chunks only where each of them is full. -/
theorem full_of_length {chunks : List (List UInt8)} (hmax : ∀ c ∈ chunks, c.length ≤ maxSize)
    (hlen : (chunks.map Writer.fill).flatten.length ≤ chunks.flatten.length) :
    ∀ c ∈ chunks, c.length = maxSize := by
  induction chunks with
  | nil => exact fun c hc => absurd hc List.not_mem_nil
  | cons c chunks ih =>
      have hc : c.length ≤ maxSize := hmax c List.mem_cons_self
      have hrest := length_le_fill chunks
      simp only [List.map_cons, List.flatten_cons, List.length_append, fill_length hc] at hlen
      intro x hx
      rcases List.mem_cons.mp hx with rfl | hx
      · omega
      · exact ih (fun y hy => hmax y (List.mem_cons_of_mem c hy)) (by omega) x hx

/-! ### The transfer -/

/-- What has been received so far. -/
def Reader.data (r : Reader) : List UInt8 := r.received.flatten

/--
**The transfer reproduces a file that is read in full chunks, and no other.**  Where every
`read` fills the buffer, what was received is a beginning of the file, and the file when
the reader leaves its loop.  Where the reader leaves its loop with the file, every `read`
did.
-/
theorem queue_transfers (file : List UInt8) (tr : List Action) :
    (((success file).restrict ReadsFull).Legal (success file).init tr →
      ((success file).after (success file).init tr).reader.data <+: file ∧
      (((success file).after (success file).init tr).reader.site.isLeft →
        ((success file).after (success file).init tr).reader.data = file)) ∧
    ((success file).Legal (success file).init tr →
      ((success file).after (success file).init tr).reader.site.isLeft →
      ((success file).after (success file).init tr).reader.data = file →
      ((success file).restrict ReadsFull).Legal (success file).init tr) := by
  constructor
  · intro hfull
    have hl := Machine.restrict_legal hfull
    have hflow := reachable_flow (Machine.reachable_after hl)
    have hall : ∀ c ∈ ((success file).after (success file).init tr).writer.chunks,
        c.length = maxSize := (readsFull_iff hl).mp hfull
    constructor
    · obtain ⟨after, hafter⟩ := hflow.received_prefix
      rw [map_fill_eq hall] at hafter
      have hdata := congrArg List.flatten hafter
      rw [List.flatten_append, List.flatten_append, List.flatten_singleton,
        List.append_nil] at hdata
      have hwhole := hflow.whole
      rw [← hdata, List.append_assoc] at hwhole
      exact ⟨_, hwhole⟩
    · intro hleft
      obtain ⟨hrec, hwhole⟩ := hflow.of_left hleft
      rw [Reader.data, hrec, map_fill_eq hall, List.flatten_append, List.flatten_singleton,
        List.append_nil, hwhole]
  · intro hl hleft hdata
    have hflow := reachable_flow (Machine.reachable_after hl)
    obtain ⟨hrec, hwhole⟩ := hflow.of_left hleft
    rw [Reader.data, hrec, List.flatten_append, List.flatten_singleton, List.append_nil] at hdata
    refine (readsFull_iff hl).mpr (full_of_length (fun c hc => (hflow.sizes c hc).2) ?_)
    rw [hdata, hwhole]

/-- A file that is read in one chunk, from the start of both threads to the end of the reader's
loop. -/
def oneChunkRun (n : Nat) : List Action :=
  [.create, .openQueue, .openFile, .read n, .send, .read 0, .sendEnd, .receive, .receive]

/-- A file of one full chunk arrives. -/
theorem queue_transfers_full :
    ((success (List.replicate 1024 7)).after (success (List.replicate 1024 7)).init
        (oneChunkRun 1024)).reader.data = List.replicate 1024 7 ∧
      ((success (List.replicate 1024 7)).restrict ReadsFull).Legal
        (success (List.replicate 1024 7)).init (oneChunkRun 1024) := by
  have hdata := ((queue_transfers (List.replicate 1024 7) (oneChunkRun 1024)).1
    (by decide +kernel)).2 (by decide +kernel)
  exact ⟨hdata, (queue_transfers (List.replicate 1024 7) (oneChunkRun 1024)).2
    (by decide +kernel) (by decide +kernel) hdata⟩

/-- A file of one byte arrives with 1023 zeros behind it. -/
theorem queue_pads :
    ¬ ∀ (file : List UInt8) (tr : List Action), (success file).Legal (success file).init tr →
      ((success file).after (success file).init tr).reader.data <+: file := by
  intro hall
  have hprefix := hall [7] (oneChunkRun 1) (by decide +kernel)
  have hlen : ((success [7]).after (success [7]).init (oneChunkRun 1)).reader.data.length = 1024 := by
    decide +kernel
  have hle := hprefix.length_le
  rw [hlen] at hle
  exact absurd hle (by decide)

end LinuxSystems.Queue
