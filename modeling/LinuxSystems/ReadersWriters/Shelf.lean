/-
What is in the vector.

The vector holds the books it had at the start, and behind them those of the writers, in the
order in which these took the lock.  Only the book of a writer that has the lock and has not
got to its append is missing.  Each writer takes the lock once; so no book is lost, and none
is there twice.
-/
import LinuxSystems.ReadersWriters.Lock
import Mathlib.Data.List.Nodup

namespace LinuxSystems.ReadersWriters

variable {ι : Type*} [DecidableEq ι] {call : ι → Call} {s : ReadersWriters ι} {a : Action ι}
  {t u : ι} {x : Site} {v : View} {book : Book}

/-! ### The books of the writers -/

/-- The book that a call adds. -/
def Body.added : Body → Option Book
  | .reader _ => none
  | .writer book => some book

/-- The books that the threads add, in their order. -/
def books (call : ι → Call) (l : List ι) : List Book := l.filterMap fun t => (call t).body.added

omit [DecidableEq ι] in
theorem books_snoc (ht : (call t).body = .writer book) (l : List ι) :
    books call (l ++ [t]) = books call l ++ [book] := by
  simp [books, ht, Body.added]

/-- A writer that has the lock and has not appended its book. -/
def Adding (call : ι → Call) (s : ReadersWriters ι) (t : ι) : Prop :=
  (∃ book, (call t).body = .writer book) ∧ (s.site t = .header ∨ s.site t = .emplaceBack)

structure Shelf (call : ι → Call) (s : ReadersWriters ι) : Prop where
  nodup : s.writers.Nodup
  /-- The writers that have come to the lock. -/
  mem : ∀ t, t ∈ s.writers ↔ (∃ book, (call t).body = .writer book) ∧ s.site t ≠ .lock
  data : (∀ t, ¬ Adding call s t) → s.sharedData = initialData ++ books call s.writers
  adding : ∀ t, Adding call s t → ∃ l, s.writers = l ++ [t] ∧
    s.sharedData = initialData ++ books call l

omit [DecidableEq ι] in
theorem Adding.inside (h : Adding call s t) : (s.site t).isInside := by
  rcases h.2 with hat | hat <;> rw [hat] <;> trivial

/-! ### The steps -/

omit [DecidableEq ι] in
/-- A step at which no writer comes or goes. -/
theorem Shelf.congr (h : Shelf call s) {s' : ReadersWriters ι} (hwriters : s'.writers = s.writers)
    (hdata : s'.sharedData = s.sharedData) (hlock : ∀ u, s'.site u = .lock ↔ s.site u = .lock)
    (hadding : ∀ u, Adding call s' u ↔ Adding call s u) : Shelf call s' := by
  refine ⟨hwriters ▸ h.nodup, fun u => ?_, fun hnone => ?_, fun u hu => ?_⟩
  · rw [hwriters, h.mem u, Ne, Ne, hlock]
  · rw [hwriters, hdata]
    exact h.data fun u hu => hnone u ((hadding u).mpr hu)
  · rw [hwriters, hdata]
    exact h.adding u ((hadding u).mp hu)

/-- The place of the thread that does not move. -/
theorem adding_goto_of_ne (hut : u ≠ t) {s' : ReadersWriters ι}
    (hsite : s'.site = (s.goto t x).site) : Adding call s' u ↔ Adding call s u := by
  unfold Adding
  rw [hsite, goto_site_of_ne hut]

theorem lock_goto_iff {s' : ReadersWriters ι} (hsite : s'.site = (s.goto t x).site)
    (hx : x ≠ .lock) (ht : s.site t ≠ .lock) (u : ι) : s'.site u = .lock ↔ s.site u = .lock := by
  rw [hsite]
  by_cases hut : u = t
  · rw [hut, goto_site]
    exact iff_of_false hx ht
  · rw [goto_site_of_ne hut]

/-- A reader takes the lock. -/
theorem Shelf.lockReader (h : Shelf call s) (ht : (call t).body = .reader v) :
    Shelf call (s.lockStep t (.reader v)) := by
  have hnot : ∀ s' : ReadersWriters ι, ¬ Adding call s' t := by
    intro s' hadd
    obtain ⟨book, hbook⟩ := hadd.1
    exact nomatch ht.symm.trans hbook
  have hsite : (s.lockStep t (.reader v)).site = (s.goto t .header).site := rfl
  have hadding : ∀ u, Adding call (s.lockStep t (.reader v)) u ↔ Adding call s u := by
    intro u
    by_cases hut : u = t
    · subst hut
      exact iff_of_false (hnot _) (hnot _)
    · exact adding_goto_of_ne hut hsite
  refine ⟨h.nodup, fun u => ?_, fun hnone => ?_, fun u hu => h.adding u ((hadding u).mp hu)⟩
  · show u ∈ s.writers ↔ _
    rw [h.mem u]
    by_cases hut : u = t
    · subst hut
      have hbook : ¬ ∃ book, (call u).body = .writer book := by
        intro ⟨book, hbook⟩
        exact nomatch ht.symm.trans hbook
      exact iff_of_false (fun hu => hbook hu.1) (fun hu => hbook hu.1)
    · rw [hsite, goto_site_of_ne hut]
  · exact h.data fun u hu => hnone u ((hadding u).mpr hu)

/-- A writer takes the lock. -/
theorem Shelf.lockWriter (h : Shelf call s) (hheld : Held call s)
    (ht : (call t).body = .writer book) (ha : s.enabled call (.lock t)) :
    Shelf call (s.lockStep t (.writer book)) := by
  have hempty := hheld.empty ht ha
  have hsite : (s.lockStep t (.writer book)).site = (s.goto t .header).site := rfl
  have hfresh : t ∉ s.writers := by
    rw [h.mem t]
    exact fun hmem => hmem.2 ha.1
  have hdata := h.data fun u hu => hempty u hu.inside
  refine ⟨?_, fun u => ?_, fun hnone => ?_, fun u hu => ?_⟩
  · exact List.nodup_append.mpr ⟨h.nodup, List.nodup_singleton t, by
      intro u hu w hw
      rw [List.mem_singleton.mp hw]
      exact fun hut => hfresh (hut ▸ hu)⟩
  · show u ∈ s.writers ++ [t] ↔ _
    rw [List.mem_append, List.mem_singleton, hsite]
    by_cases hut : u = t
    · subst hut
      rw [goto_site]
      exact iff_of_true (Or.inr rfl) ⟨⟨book, ht⟩, Site.noConfusion⟩
    · rw [goto_site_of_ne hut, h.mem u]
      simp [hut]
  · exact absurd ⟨⟨book, ht⟩, Or.inl (goto_site s t .header)⟩ (hnone t)
  · by_cases hut : u = t
    · subst hut
      exact ⟨s.writers, rfl, hdata⟩
    · exact absurd ((adding_goto_of_ne hut hsite).mp hu).inside (hempty u)

/-- A writer appends its book. -/
theorem Shelf.append (h : Shelf call s) (hheld : Held call s)
    (ht : (call t).body = .writer book) (hat : s.site t = .emplaceBack) :
    Shelf call (s.writerStep t book) := by
  have hstep : s.writerStep t book =
      { s.goto t .sleep with sharedData := s.sharedData ++ [book] } := by
    unfold writerStep
    rw [hat]
  have hin : (s.site t).isInside := hat ▸ trivial
  obtain ⟨l, hl, hdata⟩ := h.adding t ⟨⟨book, ht⟩, Or.inr hat⟩
  have hnone : ∀ u, ¬ Adding call { s.goto t .sleep with sharedData := s.sharedData ++ [book] } u := by
    intro u hu
    by_cases hut : u = t
    · subst hut
      have hsleep : (s.goto u .sleep).site u = .sleep := goto_site ..
      rcases hu.2 with hu | hu <;> exact nomatch hsleep.symm.trans hu
    · have hold := (adding_goto_of_ne hut rfl).mp hu
      exact hut (hheld.alone ht hin hold.inside)
  rw [hstep]
  refine ⟨h.nodup, fun u => ?_, fun _ => ?_, fun u hu => absurd hu (hnone u)⟩
  · have hlock := lock_goto_iff (s := s) (x := .sleep) rfl Site.noConfusion
      (by rw [hat]; exact Site.noConfusion) u
    show u ∈ s.writers ↔ _ ∧ (s.goto t .sleep).site u ≠ .lock
    rw [h.mem u, Ne, Ne, hlock]
  · show s.sharedData ++ [book] = initialData ++ books call s.writers
    rw [hl, hdata, books_snoc ht, List.append_assoc]

/-- A step inside at which the vector stays as it is. -/
theorem Shelf.stay (h : Shelf call s) {s' : ReadersWriters ι} (hin : (s.site t).isInside)
    (hsite : s'.site = (s.goto t x).site) (hx : x ≠ .lock) (hwriters : s'.writers = s.writers)
    (hdata : s'.sharedData = s.sharedData)
    (hadding : (∃ book, (call t).body = .writer book) →
      ((x = .header ∨ x = .emplaceBack) ↔ (s.site t = .header ∨ s.site t = .emplaceBack))) :
    Shelf call s' := by
  refine h.congr hwriters hdata (lock_goto_iff hsite hx (inside_iff.mp hin).1) fun u => ?_
  by_cases hut : u = t
  · subst hut
    unfold Adding
    rw [hsite, goto_site]
    exact and_congr_right hadding
  · exact adding_goto_of_ne hut hsite

theorem readerStep_data (s : ReadersWriters ι) (t : ι) (v : View) :
    (s.readerStep t v).sharedData = s.sharedData := by
  unfold readerStep
  cases s.site t with
  | look k n =>
      by_cases hk : k < n
      · simp only [hk, if_true]
        cases s.load v n k <;> rfl
      · simp only [hk, if_false]
        rfl
  | lock | header | begin | write k n | emplaceBack | sleep | unlock | finished => rfl

theorem Shelf.reader (h : Shelf call s) (ht : (call t).body = .reader v)
    (hin : (s.site t).isInside) : Shelf call (s.readerStep t v) := by
  have hdata := readerStep_data s t v
  have hnot : ¬ ∃ book, (call t).body = .writer book := by
    intro ⟨book, hbook⟩
    exact nomatch ht.symm.trans hbook
  rcases reader_cases v hin with ⟨-, hstep⟩ | ⟨x, hgo⟩
  · rw [hstep]
    exact h.stay (x := .finished) hin rfl Site.noConfusion rfl rfl fun hbook => absurd hbook hnot
  · exact h.stay hin hgo.site (inside_iff.mp hgo.inside).1 hgo.writers hdata
      fun hbook => absurd hbook hnot

theorem Shelf.writer (h : Shelf call s) (hheld : Held call s)
    (ht : (call t).body = .writer book) (hin : (s.site t).isInside) :
    Shelf call (s.writerStep t book) := by
  cases hat : s.site t with
  | emplaceBack => exact h.append hheld ht hat
  | header =>
      unfold writerStep
      rw [hat]
      exact h.stay (x := .emplaceBack) hin rfl Site.noConfusion rfl rfl
        fun _ => iff_of_true (Or.inr rfl) (Or.inl hat)
  | sleep =>
      unfold writerStep
      rw [hat]
      exact h.stay (x := .unlock) hin rfl Site.noConfusion rfl rfl fun _ => by simp [hat]
  | unlock =>
      unfold writerStep
      rw [hat]
      exact h.stay (x := .finished) hin rfl Site.noConfusion rfl rfl fun _ => by simp [hat]
  | lock | begin | look k n | write k n | finished =>
      unfold writerStep
      rw [hat]
      exact h

theorem shelf (h : (machine call).Reachable s) : Shelf call s := by
  refine h.invariant (P := Shelf call) ?_ ?_
  · refine ⟨List.nodup_nil, fun t => ?_, fun _ => (List.append_nil _).symm, fun t ht => ?_⟩
    · exact iff_of_false List.not_mem_nil (fun hmem => hmem.2 rfl)
    · rcases ht.2 with hat | hat <;> exact Site.noConfusion hat
  · intro s a hr hs ha
    have hheld := held hr
    cases a with
    | lock t =>
        show Shelf call (s.lockStep t (call t).body)
        cases ht : (call t).body with
        | reader v => exact hs.lockReader ht
        | writer book => exact hs.lockWriter hheld ht ha
    | run t =>
        have hin : (s.site t).isInside := inside_iff.mpr ha
        show Shelf call (s.runStep t (call t).body)
        cases ht : (call t).body with
        | reader v => exact hs.reader ht hin
        | writer book => exact hs.writer hheld ht hin

end LinuxSystems.ReadersWriters
