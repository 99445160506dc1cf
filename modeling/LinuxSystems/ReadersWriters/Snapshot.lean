/-
What the readers write.

While a reader is inside the vector stays as it is, so its loop, which goes over it place by
place, writes what its view shows of it.  What it shows is the vector as it was when the
reader took the lock: the books of the start, and those of the writers that had had the lock
before it.
-/
import LinuxSystems.ReadersWriters.Shelf

namespace LinuxSystems.ReadersWriters

variable {ι : Type*} [DecidableEq ι] {call : ι → Call} {s : ReadersWriters ι} {a : Action ι}
  {t u : ι} {x : Site} {v : View} {book : Book} {l : List Book} {k n : Nat}

/-! ### What a view shows -/

namespace View

/-- The books in the order of the view. -/
def sequence (v : View) (l : List Book) : List Book := if v.reversed then l.reverse else l

/-- The books that the view shows. -/
def shows (v : View) (l : List Book) : List Book :=
  ((v.sequence l).drop v.dropped).filter v.keeps

/-- Those at the first `k` places. -/
def upTo (v : View) (l : List Book) (k : Nat) : List Book :=
  (((v.sequence l).take k).drop v.dropped).filter v.keeps

@[simp] theorem length_sequence (v : View) (l : List Book) :
    (v.sequence l).length = l.length := by
  unfold sequence
  split <;> simp

theorem upTo_first (v : View) (l : List Book) (n : Nat) : v.upTo l (v.first n) = [] := by
  unfold upTo
  rw [List.drop_eq_nil_of_le]
  · rfl
  · exact (List.length_take_le _ _).trans (min_le_left _ _)

theorem upTo_length (v : View) (l : List Book) : v.upTo l l.length = v.shows l := by
  unfold upTo
  rw [← v.length_sequence l, List.take_length]
  rfl

/-- The book at one place more. -/
theorem upTo_succ (hfirst : v.first l.length ≤ k) (hk : k < l.length)
    (hbook : (v.sequence l)[k]? = some book) :
    v.upTo l (k + 1) = v.upTo l k ++ if v.keeps book then [book] else [] := by
  have hdropped : v.dropped ≤ ((v.sequence l).take k).length := by
    rw [List.length_take, length_sequence]
    unfold first at hfirst
    omega
  unfold upTo
  rw [List.take_add_one, hbook, Option.toList_some, List.drop_append_of_le_length hdropped,
    List.filter_append, List.filter_singleton]
  cases v.keeps book <;> rfl

/-- The loop looks at the books in the order of the view. -/
theorem getElem?_index (hk : k < l.length) : l[v.index l.length k]? = (v.sequence l)[k]? := by
  unfold index sequence
  split
  · rw [List.getElem?_reverse hk]
  · rfl

end View

/-- The lines for some books. -/
def titles (l : List Book) : List Line := l.map fun book => .text book.title

/-! ### Who wrote which lines -/

/-- What `t` has written. -/
def linesOf (s : ReadersWriters ι) (t : ι) : List Line :=
  s.output.filterMap fun p => if p.1 = t then some p.2 else none

theorem linesOf_print (s : ReadersWriters ι) (t : ι) (line : Line) :
    (s.print t line).linesOf t = s.linesOf t ++ [line] := by
  simp [linesOf, print]

theorem linesOf_print_of_ne (h : u ≠ t) (s : ReadersWriters ι) (line : Line) :
    (s.print t line).linesOf u = s.linesOf u := by
  simp [linesOf, print, h.symm]

theorem readerStep_linesOf (hut : u ≠ t) (s : ReadersWriters ι) (v : View) :
    (s.readerStep t v).linesOf u = s.linesOf u := by
  unfold readerStep
  cases s.site t with
  | header => exact linesOf_print_of_ne hut s _
  | write k n => exact linesOf_print_of_ne hut s _
  | look k n =>
      by_cases hk : k < n
      · simp only [hk, if_true]
        cases s.load v n k <;> rfl
      · simp only [hk, if_false]
        rfl
  | lock | begin | emplaceBack | sleep | unlock | finished => rfl

theorem writerStep_linesOf (hut : u ≠ t) (s : ReadersWriters ι) (book : Book) :
    (s.writerStep t book).linesOf u = s.linesOf u := by
  unfold writerStep
  cases s.site t with
  | header => exact linesOf_print_of_ne hut s _
  | lock | begin | look k n | write k n | emplaceBack | sleep | unlock | finished => rfl

/-! ### What a step leaves alone -/

theorem step_linesOf (call : ι → Call) (hut : u ≠ a.actor) :
    (s.step call a).linesOf u = s.linesOf u := by
  cases a with
  | lock t =>
      show (s.lockStep t (call t).body).linesOf u = _
      cases (call t).body <;> rfl
  | run t =>
      show (s.runStep t (call t).body).linesOf u = _
      cases (call t).body with
      | reader v => exact readerStep_linesOf hut s v
      | writer book => exact writerStep_linesOf hut s book

theorem step_site (ha : s.enabled call a) (hut : u ≠ a.actor) :
    (s.step call a).site u = s.site u := by
  cases a with
  | lock t =>
      show (s.lockStep t (call t).body).site u = _
      cases (call t).body <;> exact goto_site_of_ne hut s .header
  | run t =>
      show (s.runStep t (call t).body).site u = _
      rcases run_cases (call t).body (inside_iff.mpr ha) with ⟨-, hstep⟩ | ⟨x, hgo⟩
      · rw [hstep]
        exact goto_site_of_ne hut s .finished
      · rw [hgo.site]
        exact goto_site_of_ne hut s x

theorem step_seen (ha : s.enabled call a) (hut : u ≠ a.actor) :
    (s.step call a).seen u = s.seen u := by
  cases a with
  | lock t =>
      show (s.lockStep t (call t).body).seen u = _
      cases (call t).body with
      | reader v => exact Function.update_of_ne hut ..
      | writer book => rfl
  | run t =>
      show (s.runStep t (call t).body).seen u = _
      rcases run_cases (call t).body (inside_iff.mpr ha) with ⟨-, hstep⟩ | ⟨x, hgo⟩
      · rw [hstep]
        rfl
      · rw [hgo.seen]

/-- The writers come one after another. -/
theorem step_writers (ha : s.enabled call a) : s.writers <+: (s.step call a).writers := by
  cases a with
  | lock t =>
      show _ <+: (s.lockStep t (call t).body).writers
      cases (call t).body with
      | reader v => exact List.prefix_rfl
      | writer book => exact List.prefix_append ..
  | run t =>
      show _ <+: (s.runStep t (call t).body).writers
      rcases run_cases (call t).body (inside_iff.mpr ha) with ⟨-, hstep⟩ | ⟨x, hgo⟩
      · rw [hstep]
        exact List.prefix_rfl
      · exact hgo.writers ▸ List.prefix_rfl

/-- **While somebody is inside, the others change neither the vector nor the writers.** -/
theorem step_shelf (hheld : Held call s) (hin : (s.site t).isInside) (ha : s.enabled call a)
    (hne : t ≠ a.actor) :
    (s.step call a).sharedData = s.sharedData ∧ (s.step call a).writers = s.writers := by
  cases a with
  | lock u =>
      show (s.lockStep u (call u).body).sharedData = _ ∧ (s.lockStep u (call u).body).writers = _
      cases hu : (call u).body with
      | reader w => exact ⟨rfl, rfl⟩
      | writer book => exact absurd hin (hheld.empty hu ha t)
  | run u =>
      have hinu : (s.site u).isInside := inside_iff.mpr ha
      show (s.runStep u (call u).body).sharedData = _ ∧ (s.runStep u (call u).body).writers = _
      cases hu : (call u).body with
      | reader w =>
          refine ⟨readerStep_data s u w, ?_⟩
          rcases reader_cases w hinu with ⟨-, hstep⟩ | ⟨x, hgo⟩
          · have hwriters := congrArg ReadersWriters.writers hstep
            exact hwriters
          · exact hgo.writers
      | writer book => exact absurd (hheld.alone hu hinu hin) hne

/-! ### What a reader has written -/

/-- The lines of a reader that has been through the first `k` places. -/
def View.lines (v : View) (l : List Book) (k : Nat) : List Line :=
  .text v.header :: titles (v.upTo l k)

/-- The lines of a reader that is through, where the vector is `l`. -/
def View.allLines (v : View) (l : List Book) : List Line := .text v.header :: titles (v.shows l)

/-- The vector after the first `k` writers. -/
def snapshot (call : ι → Call) (s : ReadersWriters ι) (k : Nat) : List Book :=
  initialData ++ books call (s.writers.take k)

/-- What a reader has written when it is at a place, where the vector is `l`. -/
def Reads (l : List Book) (lines : List Line) (v : View) : Site → Prop
  | .lock | .header => lines = []
  | .begin => lines = [.text v.header]
  | .look k n => n = l.length ∧ v.first n ≤ k ∧ k ≤ n ∧ lines = v.lines l k
  | .write k n => n = l.length ∧ v.first n ≤ k ∧ k < n ∧ lines = v.lines l k ∧
      ∃ book, (v.sequence l)[k]? = some book ∧ v.keeps book = true
  | .unlock | .finished => lines = v.allLines l
  | .emplaceBack | .sleep => False

/-- A reader reads the snapshot of when it took the lock. -/
structure ReadsSnapshot (call : ι → Call) (s : ReadersWriters ι) (t : ι) (v : View) : Prop where
  seen : s.seen t ≤ s.writers.length
  inside : (s.site t).isInside → s.seen t = s.writers.length
  reads : Reads (snapshot call s (s.seen t)) (s.linesOf t) v (s.site t)

/-- Inside, the snapshot is the vector itself. -/
theorem ReadsSnapshot.data (h : ReadsSnapshot call s t v) (hshelf : Shelf call s)
    (hheld : Held call s) (ht : (call t).body = .reader v) (hin : (s.site t).isInside) :
    snapshot call s (s.seen t) = s.sharedData := by
  have hnone : ∀ u, ¬ Adding call s u := by
    intro u hu
    obtain ⟨book, hbook⟩ := hu.1
    have htu := hheld.alone hbook hu.inside hin
    rw [← htu, ht] at hbook
    exact nomatch hbook
  rw [snapshot, h.inside hin, List.take_length, hshelf.data hnone]

/-- What the others do does not change what a reader reads. -/
theorem ReadsSnapshot.other (h : ReadsSnapshot call s t v) (hheld : Held call s)
    (ha : s.enabled call a) (hne : t ≠ a.actor) : ReadsSnapshot call (s.step call a) t v := by
  have hsite := step_site ha hne
  have hseen := step_seen ha hne
  have hprefix := step_writers ha
  have hsnap : snapshot call (s.step call a) (s.seen t) = snapshot call s (s.seen t) := by
    unfold snapshot
    obtain ⟨rest, hrest⟩ := hprefix
    rw [← hrest, List.take_append_of_le_length h.seen]
  refine ⟨?_, fun hin => ?_, ?_⟩
  · rw [hseen]
    exact h.seen.trans hprefix.length_le
  · rw [hsite] at hin
    rw [hseen, (step_shelf hheld hin ha hne).2]
    exact h.inside hin
  · rw [hsite, hseen, hsnap, step_linesOf call hne]
    exact h.reads

/-- The reader takes the lock. -/
theorem ReadsSnapshot.lock (h : ReadsSnapshot call s t v) (hat : s.site t = .lock) :
    ReadsSnapshot call (s.lockStep t (.reader v)) t v := by
  have hreads := h.reads
  rw [hat] at hreads
  have hseen : (s.lockStep t (.reader v)).seen t = s.writers.length := Function.update_self ..
  refine ⟨hseen.le, fun _ => hseen, ?_⟩
  have hsite : (s.lockStep t (.reader v)).site t = .header := goto_site s t .header
  rw [hsite]
  exact hreads

/-- The reader goes on, with lines that fit the place where it comes to. -/
theorem ReadsSnapshot.goOn (h : ReadsSnapshot call s t v) (hin : (s.site t).isInside)
    {s' : ReadersWriters ι} (hseen : s'.seen = s.seen) (hwriters : s'.writers = s.writers)
    (hsite : s'.site = (s.goto t x).site)
    (hreads : Reads (snapshot call s (s.seen t)) (s'.linesOf t) v x) :
    ReadsSnapshot call s' t v := by
  have hsnap : ∀ k, snapshot call s' k = snapshot call s k := by
    intro k
    rw [snapshot, hwriters, snapshot]
  refine ⟨?_, fun _ => ?_, ?_⟩
  · rw [hseen, hwriters]
    exact h.seen
  · rw [hseen, hwriters]
    exact h.inside hin
  · rw [hseen, hsnap, hsite, goto_site]
    exact hreads

/-- One place of the view, and the line for it if there is one. -/
theorem lines_succ (hfirst : v.first l.length ≤ k) (hk : k < l.length)
    (hbook : (v.sequence l)[k]? = some book) :
    v.lines l (k + 1) = v.lines l k ++ if v.keeps book then [.text book.title] else [] := by
  unfold View.lines titles
  rw [View.upTo_succ hfirst hk hbook, List.map_append]
  cases v.keeps book <;> rfl

theorem exists_book (v : View) (hk : k < l.length) : ∃ book, (v.sequence l)[k]? = some book := by
  rw [← v.length_sequence] at hk
  exact ⟨_, List.getElem?_eq_getElem hk⟩

/-- The reader looks at a place. -/
theorem ReadsSnapshot.look (h : ReadsSnapshot call s t v) (hat : s.site t = .look k n)
    (hdata : snapshot call s (s.seen t) = s.sharedData) :
    ReadsSnapshot call (s.readerStep t v) t v := by
  have hin : (s.site t).isInside := hat ▸ trivial
  have hreads := h.reads
  rw [hat, hdata] at hreads
  obtain ⟨rfl, hfirst, hle, hlines⟩ := hreads
  unfold readerStep
  rw [hat]
  by_cases hk : k < s.sharedData.length
  · obtain ⟨book, hbook⟩ := exists_book v hk
    have hload : s.load v s.sharedData.length k = some book := (View.getElem?_index hk).trans hbook
    have hnext := lines_succ hfirst hk hbook
    simp only [hk, if_true, hload]
    cases hkeeps : v.keeps book with
    | true =>
        refine h.goOn (x := .write k _) hin rfl rfl rfl ?_
        rw [hdata]
        exact ⟨rfl, hfirst, hk, hlines, book, hbook, hkeeps⟩
    | false =>
        refine h.goOn (x := .look (k + 1) _) hin rfl rfl rfl ?_
        rw [hdata]
        rw [hkeeps] at hnext
        refine ⟨rfl, hfirst.trans (Nat.le_succ k), hk, ?_⟩
        rw [hnext]
        exact hlines.trans (List.append_nil _).symm
  · have hkn : k = s.sharedData.length := by omega
    simp only [hk, if_false]
    refine h.goOn (x := .unlock) hin rfl rfl rfl ?_
    show s.linesOf t = _
    rw [hdata, hlines, hkn, View.lines, View.upTo_length]
    rfl

/-- The reader writes the line for a book. -/
theorem ReadsSnapshot.write (h : ReadsSnapshot call s t v) (hat : s.site t = .write k n)
    (hdata : snapshot call s (s.seen t) = s.sharedData) :
    ReadsSnapshot call (s.readerStep t v) t v := by
  have hin : (s.site t).isInside := hat ▸ trivial
  have hreads := h.reads
  rw [hat, hdata] at hreads
  obtain ⟨rfl, hfirst, hk, hlines, book, hbook, hkeeps⟩ := hreads
  have hload : s.load v s.sharedData.length k = some book := (View.getElem?_index hk).trans hbook
  have hnext := lines_succ hfirst hk hbook
  unfold readerStep
  rw [hat]
  simp only [hload]
  refine h.goOn (x := .look (k + 1) _) hin rfl rfl rfl ?_
  rw [hdata]
  refine ⟨rfl, hfirst.trans (Nat.le_succ k), hk, ?_⟩
  show (s.print t _).linesOf t = _
  rw [linesOf_print, hnext, hlines, hkeeps]
  rfl

theorem ReadsSnapshot.run (h : ReadsSnapshot call s t v) (hin : (s.site t).isInside)
    (hdata : snapshot call s (s.seen t) = s.sharedData) :
    ReadsSnapshot call (s.readerStep t v) t v := by
  have hreads := h.reads
  cases hat : s.site t with
  | look k n => exact h.look hat hdata
  | write k n => exact h.write hat hdata
  | header =>
      rw [hat] at hreads
      unfold readerStep
      rw [hat]
      refine h.goOn (x := .begin) hin rfl rfl rfl ?_
      show (s.print t _).linesOf t = _
      rw [linesOf_print, show s.linesOf t = [] from hreads]
      rfl
  | begin =>
      rw [hat] at hreads
      unfold readerStep
      rw [hat]
      refine h.goOn (x := .look _ _) hin rfl rfl rfl ?_
      rw [hdata]
      refine ⟨rfl, le_rfl, min_le_right _ _, ?_⟩
      rw [View.lines, View.upTo_first]
      exact hreads
  | unlock =>
      rw [hat] at hreads
      unfold readerStep
      rw [hat]
      exact h.goOn (x := .finished) hin rfl rfl rfl hreads
  | lock | finished =>
      rw [hat] at hin
      exact hin.elim
  | emplaceBack | sleep =>
      rw [hat] at hreads
      exact hreads.elim

/-- **Every reader reads a snapshot.** -/
theorem reads_snapshot (h : (machine call).Reachable s) (ht : (call t).body = .reader v) :
    ReadsSnapshot call s t v := by
  have hinit : ReadsSnapshot call (machine call).init t v :=
    ⟨Nat.zero_le _, fun hin => False.elim hin, rfl⟩
  refine h.invariant (P := fun s => ReadsSnapshot call s t v) hinit ?_
  intro s a hr hs ha
  have hheld := held hr
  by_cases hne : t = a.actor
  · cases a with
    | lock u =>
        obtain rfl : t = u := hne
        show ReadsSnapshot call (s.lockStep t (call t).body) t v
        rw [ht]
        exact hs.lock ha.1
    | run u =>
        obtain rfl : t = u := hne
        have hin : (s.site t).isInside := inside_iff.mpr ha
        show ReadsSnapshot call (s.runStep t (call t).body) t v
        rw [ht]
        exact hs.run hin (hs.data (shelf hr) hheld ht hin)
  · exact hs.other hheld ha hne

end LinuxSystems.ReadersWriters
