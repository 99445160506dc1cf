/-
The readers and writers of `Chapter 9/read_write_lock.cpp`.

The books are in a vector that any number of threads read and write.  Four functions read
it, each through a view: a filter, the books in reverse, both, or the books without the
first few.  They hold the lock shared, and write one line for each book that the view
shows.  `wr_addNewBook` holds the lock exclusively, and appends a book.

A view is lazy.  The loop of a reader takes the ends of the vector once; then it looks at
one book after the other, and loads each again when it writes its line.  All of these are
steps of their own.
-/
import LinuxSystems.Machine.RwLock
import LinuxSystems.Posix.Buffer

namespace LinuxSystems

namespace ReadersWriters

/-- The characters of a `string_view`. -/
abbrev Text := List UInt8

structure Book where
  title : Text
  author : Text
  year : BitVec 32
  deriving DecidableEq

/-- `shared_data` at the start. -/
def initialData : List Book :=
  [⟨Buffer.ofString "Harry Potter", Buffer.ofString "Rowling", 1997⟩,
    ⟨Buffer.ofString "East of Eden", Buffer.ofString "Steinbeck", 1952⟩,
    ⟨Buffer.ofString "It", Buffer.ofString "King", 1986⟩]

/-- What a reader loops over. -/
structure View where
  /-- The line before the loop. -/
  header : Text
  reversed : Bool
  /-- How many books are left out at the front. -/
  dropped : Nat
  keeps : Book → Bool

def rdApplyYearFilter (yearKey : BitVec 32) : View where
  header := Buffer.ofString "Apply year filter: "
  reversed := false
  dropped := 0
  keeps book := decide (book.year < yearKey)

def rdReversed : View where
  header := Buffer.ofString "Apply reversed order: "
  reversed := true
  dropped := 0
  keeps _ := true

def rdReversedFilteredByAuthorNameSize (nameSizeKey : BitVec 32) : View where
  header := Buffer.ofString "Apply reversed order and filter by author name size: "
  reversed := true
  dropped := 0
  keeps book := decide (book.author.length < nameSizeKey.toNat)

def rdDropFirstN (dropKey : BitVec 32) : View where
  header := Buffer.ofString "Drop first N elements: "
  reversed := false
  dropped := dropKey.toNat
  keeps _ := true

/-- What a call does under the lock. -/
inductive Body where
  | reader (v : View)
  | writer (book : Book)

/-- What a thread calls. -/
inductive Call where
  | applyYearFilter (yearKey : BitVec 32)
  | reversed
  | reversedFilteredByAuthorNameSize (nameSizeKey : BitVec 32)
  | dropFirstN (dropKey : BitVec 32)
  | addNewBook (title author : Text) (year : BitVec 32)

def Call.body : Call → Body
  | .applyYearFilter yearKey => .reader (rdApplyYearFilter yearKey)
  | .reversed => .reader rdReversed
  | .reversedFilteredByAuthorNameSize nameSizeKey =>
      .reader (rdReversedFilteredByAuthorNameSize nameSizeKey)
  | .dropFirstN dropKey => .reader (rdDropFirstN dropKey)
  | .addNewBook title author year => .writer ⟨title, author, year⟩

/-- How a call takes the lock. -/
def Body.lock {ι : Type*} (t : ι) : Body → RwLock.Action ι
  | .reader _ => .lockShared t
  | .writer _ => .lock t

namespace View

/-- The index of the book at the place `k` of the view, where the vector has `n`. -/
def index (v : View) (n k : Nat) : Nat := if v.reversed then n - 1 - k else k

/-- The place where the loop begins. -/
def first (v : View) (n : Nat) : Nat := min v.dropped n

end View

inductive Site where
  /-- At the lock. -/
  | lock
  /-- At the line before the loop, or before the book is added. -/
  | header
  /-- At the beginning of the loop. -/
  | begin
  /-- At the place `k` of the view, where the end of the loop is at `n`. -/
  | look (k n : Nat)
  /-- At the line for the book there. -/
  | write (k n : Nat)
  | emplaceBack
  | sleep
  /-- At the return, which unlocks. -/
  | unlock
  | finished
  deriving DecidableEq

/-- A line of the output. -/
inductive Line where
  | text (t : Text)
  /-- The title of a book that is not in the vector. -/
  | dangling
  deriving DecidableEq

end ReadersWriters

open ReadersWriters

structure ReadersWriters (ι : Type*) where
  sharedData : List Book
  shresMutex : RwLock ι
  site : ι → Site
  /-- Every line, and who wrote it. -/
  output : List (ι × Line)
  /-- Who held the lock exclusively, in order. -/
  writers : List ι
  /-- How many had done so when a reader took the lock. -/
  seen : ι → Nat

namespace ReadersWriters

variable {ι : Type*} [DecidableEq ι]

def goto (s : ReadersWriters ι) (t : ι) (x : Site) : ReadersWriters ι :=
  { s with site := Function.update s.site t x }

/-- `osyncstream{cout} << line << endl` -/
def print (s : ReadersWriters ι) (t : ι) (line : Line) : ReadersWriters ι :=
  { s with output := s.output ++ [(t, line)] }

/-- The book that the view shows at the place `k`. -/
def load (s : ReadersWriters ι) (v : View) (n k : Nat) : Option Book :=
  s.sharedData[v.index n k]?

/-- The next step of a reader after its lock. -/
def readerStep (s : ReadersWriters ι) (t : ι) (v : View) : ReadersWriters ι :=
  match s.site t with
  | .header => (s.print t (.text v.header)).goto t .begin
  | .begin => s.goto t (.look (v.first s.sharedData.length) s.sharedData.length)
  | .look k n =>
      if k < n then
        match s.load v n k with
        | some book => s.goto t (if v.keeps book then .write k n else .look (k + 1) n)
        | none => s.goto t (.write k n)
      else s.goto t .unlock
  | .write k n =>
      let line := match s.load v n k with
        | some book => .text book.title
        | none => .dangling
      (s.print t line).goto t (.look (k + 1) n)
  | .unlock => { s.goto t .finished with shresMutex := RwLock.step s.shresMutex (.unlock t) }
  | .lock | .emplaceBack | .sleep | .finished => s

/-- The next step of a writer after its lock. -/
def writerStep (s : ReadersWriters ι) (t : ι) (book : Book) : ReadersWriters ι :=
  match s.site t with
  | .header =>
      (s.print t (.text (Buffer.ofString "Add new book: " ++ book.title))).goto t .emplaceBack
  | .emplaceBack => { s.goto t .sleep with sharedData := s.sharedData ++ [book] }
  | .sleep => s.goto t .unlock
  | .unlock => { s.goto t .finished with shresMutex := RwLock.step s.shresMutex (.unlock t) }
  | .lock | .begin | .look _ _ | .write _ _ | .finished => s

inductive Action (ι : Type*) where
  /-- The thread takes the lock. -/
  | lock (t : ι)
  /-- The thread takes its next step. -/
  | run (t : ι)

def enabled (call : ι → Call) (s : ReadersWriters ι) : Action ι → Prop
  | .lock t => s.site t = .lock ∧ RwLock.enabled s.shresMutex ((call t).body.lock t)
  | .run t => s.site t ≠ .lock ∧ s.site t ≠ .finished

/-- The lock is taken. -/
def lockStep (s : ReadersWriters ι) (t : ι) : Body → ReadersWriters ι
  | .reader _ =>
      { s.goto t .header with
        shresMutex := RwLock.step s.shresMutex (.lockShared t)
        seen := Function.update s.seen t s.writers.length }
  | .writer _ =>
      { s.goto t .header with
        shresMutex := RwLock.step s.shresMutex (.lock t)
        writers := s.writers ++ [t] }

/-- The next step of a call after that. -/
def runStep (s : ReadersWriters ι) (t : ι) : Body → ReadersWriters ι
  | .reader v => s.readerStep t v
  | .writer book => s.writerStep t book

/-- `call t` is what the thread `t` calls. -/
def step (call : ι → Call) (s : ReadersWriters ι) : Action ι → ReadersWriters ι
  | .lock t => s.lockStep t (call t).body
  | .run t => s.runStep t (call t).body

/-- Every call at its start. -/
def machine (call : ι → Call) : Machine (ReadersWriters ι) (Action ι) where
  init := {
    sharedData := initialData
    shresMutex := (RwLock.machine ι).init
    site := fun _ => .lock
    output := []
    writers := []
    seen := fun _ => 0 }
  enabled := enabled call
  next := step call

instance [Fintype ι] (call : ι → Call) (s : ReadersWriters ι) :
    ∀ a, Decidable (s.enabled call a)
  | .lock t => inferInstanceAs
      (Decidable (s.site t = .lock ∧ RwLock.enabled s.shresMutex ((call t).body.lock t)))
  | .run t => inferInstanceAs (Decidable (s.site t ≠ .lock ∧ s.site t ≠ .finished))

instance [Fintype ι] (call : ι → Call) (s : ReadersWriters ι) (a : Action ι) :
    Decidable ((machine call).enabled s a) :=
  inferInstanceAs (Decidable (s.enabled call a))

/-- `ranges::subrange(shared_data.begin() + 1, shared_data.begin() + 3)`, where the vector has as
many books. -/
def subRes (s : ReadersWriters ι) : Option (List Book) :=
  if 3 ≤ s.sharedData.length then some ((s.sharedData.drop 1).take 2) else none

end ReadersWriters

end LinuxSystems
