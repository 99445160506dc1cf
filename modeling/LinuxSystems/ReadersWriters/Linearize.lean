/-
The calls as if they were one after another.

What a reader writes is what its function shows of the vector at one moment, the one when it
took the lock.  These moments are in the order in which the readers took it, and a reader
that comes after another has returned sees what that one saw, or more.  In the end every
book is there once.
-/
import LinuxSystems.ReadersWriters.Snapshot
import Mathlib.Data.Fintype.Basic

namespace LinuxSystems.ReadersWriters

variable {ι : Type*} [DecidableEq ι] {call : ι → Call} {s : ReadersWriters ι} {t u : ι} {v : View}
  {k : Nat}

/-! ### What is wanted of the calls -/

def Call.isReader : Call → Prop
  | .applyYearFilter _ | .reversed | .reversedFilteredByAuthorNameSize _ | .dropFirstN _ => True
  | .addNewBook _ _ _ => False

/-- What a reader writes of the books `l`, all at once. -/
def Call.writes (l : List Book) : Call → List Line
  | .applyYearFilter yearKey =>
      .text (Buffer.ofString "Apply year filter: ") ::
        titles (l.filter fun book => decide (book.year < yearKey))
  | .reversed => .text (Buffer.ofString "Apply reversed order: ") :: titles l.reverse
  | .reversedFilteredByAuthorNameSize nameSizeKey =>
      .text (Buffer.ofString "Apply reversed order and filter by author name size: ") ::
        titles (l.reverse.filter fun book => decide (book.author.length < nameSizeKey.toNat))
  | .dropFirstN dropKey =>
      .text (Buffer.ofString "Drop first N elements: ") :: titles (l.drop dropKey.toNat)
  | .addNewBook _ _ _ => []

/-- The calls do what they would do one after another. -/
structure Linearizes (call : ι → Call) (s : ReadersWriters ι) : Prop where
  /-- A reader reads the books of the start and of the writers before it. -/
  reads : ∀ t, (call t).isReader → s.site t = .finished → s.seen t ≤ s.writers.length ∧
    s.linesOf t = (call t).writes (initialData ++ books call (s.writers.take (s.seen t)))
  /-- A writer is one once. -/
  nodup : s.writers.Nodup
  /-- Every book is there in the end. -/
  books : (∀ t, s.site t = .finished) → s.sharedData = initialData ++ books call s.writers ∧
    ∀ t, t ∈ s.writers ↔ ¬ (call t).isReader
  subRes : s.subRes = some ((initialData.drop 1).take 2)

/-! ### The four readers -/

/-- What a reader's view shows is what the function says. -/
theorem writes_eq {c : Call} (hc : c.body = .reader v) (l : List Book) :
    v.allLines l = c.writes l := by
  have hall : ∀ l : List Book, l.filter (fun _ => true) = l := fun l => List.filter_true l
  cases c with
  | addNewBook title author year => exact nomatch hc
  | applyYearFilter yearKey | reversedFilteredByAuthorNameSize nameSizeKey =>
      injection hc with hv
      subst hv
      rfl
  | reversed =>
      injection hc with hv
      subst hv
      exact congrArg (fun l => Line.text _ :: titles l) (hall l.reverse)
  | dropFirstN dropKey =>
      injection hc with hv
      subst hv
      exact congrArg (fun l => Line.text _ :: titles l) (hall (l.drop dropKey.toNat))

theorem exists_view {c : Call} (hc : c.isReader) : ∃ v, c.body = .reader v := by
  cases c with
  | addNewBook title author year => exact hc.elim
  | applyYearFilter yearKey | reversed | reversedFilteredByAuthorNameSize nameSizeKey
  | dropFirstN dropKey => exact ⟨_, rfl⟩

theorem exists_book_iff {c : Call} : (∃ book, c.body = .writer book) ↔ ¬ c.isReader := by
  cases c with
  | addNewBook title author year => exact iff_of_true ⟨_, rfl⟩ id
  | applyYearFilter yearKey | reversed | reversedFilteredByAuthorNameSize nameSizeKey
  | dropFirstN dropKey => exact iff_of_false (fun ⟨_, hc⟩ => nomatch hc) (fun hc => hc trivial)

/-! ### The vector in the end -/

omit [DecidableEq ι] in
/-- The books of the start stay at the front. -/
theorem Shelf.initial (h : Shelf call s) : ∃ rest, s.sharedData = initialData ++ rest := by
  by_cases hnone : ∀ t, ¬ Adding call s t
  · exact ⟨_, h.data hnone⟩
  · simp only [not_forall, not_not] at hnone
    obtain ⟨t, ht⟩ := hnone
    obtain ⟨l, -, hdata⟩ := h.adding t ht
    exact ⟨_, hdata⟩

omit [DecidableEq ι] in
theorem subRes_eq (h : Shelf call s) : s.subRes = some ((initialData.drop 1).take 2) := by
  obtain ⟨rest, hrest⟩ := h.initial
  have hlen : 3 ≤ s.sharedData.length := by
    rw [hrest, List.length_append]
    exact Nat.le_add_right 3 _
  unfold subRes
  rw [if_pos hlen, hrest]
  rfl

omit [DecidableEq ι] in
theorem Shelf.finished (h : Shelf call s) (hfin : ∀ t, s.site t = .finished) :
    s.sharedData = initialData ++ books call s.writers ∧
      ∀ t, t ∈ s.writers ↔ ¬ (call t).isReader := by
  refine ⟨h.data fun t ht => ?_, fun t => ?_⟩
  · have hin := ht.inside
    rw [hfin t] at hin
    exact hin.elim
  · rw [h.mem t, exists_book_iff, hfin t]
    exact and_iff_left Site.noConfusion

/-! ### The order of the readers -/

/-- Only the lock records what a reader sees. -/
theorem run_seen (ha : s.enabled call (.run t)) : (s.step call (.run t)).seen = s.seen := by
  show (s.runStep t (call t).body).seen = s.seen
  rcases run_cases (call t).body (inside_iff.mpr ha) with ⟨-, hstep⟩ | ⟨x, hgo⟩
  · rw [hstep]
    rfl
  · exact hgo.seen

omit [DecidableEq ι] in
/-- A thread that has returned takes no step. -/
theorem ne_actor {a : Action ι} (ha : s.enabled call a) (hat : s.site t = .finished) :
    t ≠ a.actor := by
  intro ht
  rw [ht] at hat
  cases a with
  | lock u => exact nomatch ha.1.symm.trans hat
  | run u => exact ha.2 hat

/-- Where `t` has returned and `u` not come to the lock, `u` will see what `t` saw, or more. -/
structure Follows (t u : ι) (k : Nat) (s : ReadersWriters ι) : Prop where
  finished : s.site t = .finished
  seen : s.seen t = k
  bound : k ≤ s.writers.length
  later : s.site u = .lock ∨ k ≤ s.seen u

theorem Follows.step {a : Action ι} (h : Follows t u k s) (hu : ∃ v, (call u).body = .reader v)
    (ha : s.enabled call a) : Follows t u k (s.step call a) := by
  have hne := ne_actor ha h.finished
  have hwriters := (step_writers ha).length_le
  refine ⟨?_, ?_, h.bound.trans hwriters, ?_⟩
  · rw [step_site ha hne]
    exact h.finished
  · rw [step_seen ha hne]
    exact h.seen
  · by_cases hua : u = a.actor
    · cases a with
      | lock w =>
          obtain rfl : u = w := hua
          obtain ⟨v, hv⟩ := hu
          right
          show k ≤ (s.lockStep u (call u).body).seen u
          rw [hv]
          show k ≤ Function.update s.seen u s.writers.length u
          rw [Function.update_self]
          exact h.bound
      | run w =>
          obtain rfl : u = w := hua
          rw [run_seen ha]
          exact Or.inr (h.later.resolve_left ha.1)
    · rw [step_site ha hua, step_seen ha hua]
      exact h.later

/--
**The calls are linearizable.**  Whatever the calls and the order of their steps, every reader
that has returned has written what its function shows of the books of the start and of the
first writers; one that takes the lock after another has returned reads as many writers or
more; and when all have returned every book is in the vector once.
-/
theorem readers_linearize (call : ι → Call) :
    (∀ s, (machine call).Reachable s → Linearizes call s) ∧
    ∀ tr tr' t u, (machine call).Legal (machine call).init (tr ++ tr') →
      (call t).isReader → (call u).isReader →
      ((machine call).after (machine call).init tr).site t = .finished →
      ((machine call).after (machine call).init tr).site u = .lock →
      ((machine call).after (machine call).init (tr ++ tr')).site u = .finished →
      ((machine call).after (machine call).init (tr ++ tr')).seen t ≤
        ((machine call).after (machine call).init (tr ++ tr')).seen u := by
  refine ⟨fun s hs => ?_, fun tr tr' t u hl hrt hru hft hlu hfu => ?_⟩
  · have hshelf := shelf hs
    refine ⟨fun t hread hfin => ?_, hshelf.nodup, hshelf.finished, subRes_eq hshelf⟩
    obtain ⟨v, hv⟩ := exists_view hread
    have hsnap := reads_snapshot hs hv
    have hreads := hsnap.reads
    rw [hfin] at hreads
    rw [← writes_eq hv]
    exact ⟨hsnap.seen, hreads⟩
  · obtain ⟨hl₁, hl₂⟩ := Machine.legal_append.mp hl
    have hreach := Machine.reachable_after hl₁
    obtain ⟨v, hv⟩ := exists_view hrt
    have hstart : Follows t u _ ((machine call).after (machine call).init tr) :=
      ⟨hft, rfl, (reads_snapshot hreach hv).seen, Or.inl hlu⟩
    have hend := hreach.invariant_from hstart
      (fun s a _ hs ha => Follows.step hs (exists_view hru) ha) hl₂
    rw [Machine.after_append, hend.seen]
    rw [Machine.after_append] at hfu
    refine hend.later.resolve_left fun hlock => ?_
    exact nomatch hlock.symm.trans hfu

/-- The calls of `main`. -/
def mainCalls : Fin 7 → Call
  | 0 => .applyYearFilter 1990
  | 1 => .reversed
  | 2 => .reversedFilteredByAuthorNameSize 8
  | 3 => .addNewBook (Buffer.ofString "Dune") (Buffer.ofString "Herbert") 1965
  | 4 => .dropFirstN 1
  | 5 => .addNewBook (Buffer.ofString "Jaws") (Buffer.ofString "Benchley") 1974
  | 6 => .applyYearFilter 1970

/-- Two readers step by step together, then a writer, and then another reader. -/
def mainRun : List (Action (Fin 7)) :=
  [.lock 0, .lock 1] ++ (List.replicate 9 [.run 0, .run 1]).flatten ++ [.run 1, .lock 3] ++
    List.replicate 4 (.run 3) ++ [.lock 6] ++ List.replicate 10 (.run 6)

theorem readers_linearize_main :
    Linearizes mainCalls ((machine mainCalls).after (machine mainCalls).init mainRun) :=
  (readers_linearize mainCalls).1 _ (Machine.reachable_after (by decide +kernel))

end LinuxSystems.ReadersWriters
