/-
What the calls of `Chapter 9/shared_mem_sp.cpp` leave mapped.

`producer` and `consumer` map as many bytes as they are told to, and return a pointer whose
deleter unmaps some.  That of `producer` unmaps as many; that of `consumer` unmaps the size of
the type, which is fewer bytes if more were asked for, and so fewer pages if they end on a
further one.  A mapping in which `producer` cannot construct its buffer, because the copy throws,
has no deleter yet.

The calls are made one after another; each proceeds when its predicate of `work_done` holds.  A
call whose `shm_open` or `mmap` fails throws with nothing mapped, and what `ftruncate` does is
not looked at.  The deleter's call of the destructor of `T` is left out.
-/
import LinuxSystems.Posix.Pages
import LinuxSystems.Machine.Simulation

namespace LinuxSystems

namespace MappedCalls

/-- How a call of `producer` or `consumer` ends. -/
inductive Ending where
  | openFailed
  | mapFailed
  /-- Mapped at `base`, but the copy of the buffer threw. -/
  | copyThrew (base : Nat)
  /-- Mapped at `base`, and a pointer returned. -/
  | returned (base : Nat)

end MappedCalls

open MappedCalls

/-- The pages, with the pointers that hold them, and `work_done`. -/
structure MappedCalls where
  pages : Pages
  workDone : Bool

namespace MappedCalls

/-- `sizeT` is the size of the type `T`. -/
inductive Action where
  | producer (sizeT size : Nat) (ending : Ending)
  | consumer (sizeT size : Nat) (ending : Ending)
  /-- A pointer is destroyed. -/
  | destroy (ptr : Pages.Held)

/-- The pointer of a producer, whose deleter has its `size`. -/
def produced (base size : Nat) : Pages.Held := ⟨base, size, size⟩

/-- The pointer of a consumer, whose deleter has `sizeof(T)`. -/
def consumed (base size sizeT : Nat) : Pages.Held := ⟨base, size, sizeT⟩

/-- A mapping is put where nothing is mapped. -/
def Fits (pageSize size : Nat) (s : MappedCalls) : Ending → Prop
  | .openFailed | .mapFailed => True
  | .copyThrew base | .returned base => Disjoint (Pages.range pageSize base size) s.pages.mapped

def Ending.copies : Ending → Prop
  | .copyThrew _ => False
  | .openFailed | .mapFailed | .returned _ => True

def enabled (pageSize : Nat) (s : MappedCalls) : Action → Prop
  | .producer sizeT size ending =>
      s.workDone = false ∧ (0 < sizeT ∧ sizeT ≤ size) ∧ s.Fits pageSize size ending
  | .consumer sizeT size ending =>
      -- a consumer copies nothing
      s.workDone = true ∧ (0 < sizeT ∧ sizeT ≤ size) ∧ s.Fits pageSize size ending ∧ ending.copies
  | .destroy ptr => ptr ∈ s.pages.held

instance : ∀ ending : Ending, Decidable ending.copies
  | .copyThrew _ => isFalse id
  | .openFailed | .mapFailed | .returned _ => isTrue trivial

instance (pageSize size : Nat) (s : MappedCalls) : ∀ ending, Decidable (s.Fits pageSize size ending)
  | .openFailed | .mapFailed => isTrue trivial
  | .copyThrew _ | .returned _ => inferInstanceAs (Decidable (Disjoint _ _))

instance (pageSize : Nat) (s : MappedCalls) : ∀ a, Decidable (s.enabled pageSize a)
  | .producer _ _ _ => inferInstanceAs (Decidable (_ ∧ (_ ∧ _) ∧ s.Fits _ _ _))
  | .consumer _ _ ending => inferInstanceAs (Decidable (_ ∧ (_ ∧ _) ∧ s.Fits _ _ _ ∧ ending.copies))
  | .destroy ptr => inferInstanceAs (Decidable (ptr ∈ s.pages.held))

/-- `producer(buffer, size)`. -/
def producer (pageSize size : Nat) (s : MappedCalls) : Ending → MappedCalls
  | .openFailed | .mapFailed => s
  | .copyThrew base => { s with pages := s.pages.step pageSize (.lose base size) }
  | .returned base => ⟨s.pages.step pageSize (.map (produced base size)), true⟩

/-- `consumer(size)`. -/
def consumer (pageSize sizeT size : Nat) (s : MappedCalls) : Ending → MappedCalls
  | .openFailed | .mapFailed | .copyThrew _ => s
  | .returned base => ⟨s.pages.step pageSize (.map (consumed base size sizeT)), false⟩

def step (pageSize : Nat) (s : MappedCalls) : Action → MappedCalls
  | .producer _ size ending => s.producer pageSize size ending
  | .consumer sizeT size ending => s.consumer pageSize sizeT size ending
  | .destroy ptr => { s with pages := s.pages.step pageSize (.unmap ptr) }

/-- The pages `initial` are mapped already. -/
def machine (pageSize : Nat) (initial : Finset Nat) : Machine MappedCalls Action where
  init := ⟨⟨initial, [], ∅⟩, false⟩
  enabled := enabled pageSize
  next := step pageSize

instance (pageSize : Nat) (initial : Finset Nat) (s : MappedCalls) (a : Action) :
    Decidable ((machine pageSize initial).enabled s a) :=
  inferInstanceAs (Decidable (s.enabled pageSize a))

variable {pageSize : Nat} {initial : Finset Nat} {s : MappedCalls} {a : Action} {tr : List Action}

/-! ### The pages behind -/

/-- What a call does to the pages. -/
def onPages : Action → List Pages.Action
  | .producer _ _ .openFailed | .producer _ _ .mapFailed => []
  | .producer _ size (.copyThrew base) => [.lose base size]
  | .producer _ size (.returned base) => [.map (produced base size)]
  | .consumer _ _ .openFailed | .consumer _ _ .mapFailed | .consumer _ _ (.copyThrew _) => []
  | .consumer sizeT size (.returned base) => [.map (consumed base size sizeT)]
  | .destroy ptr => [.unmap ptr]

theorem expands (pageSize : Nat) (initial : Finset Nat) :
    Machine.Expands (machine pageSize initial) (Pages.machine pageSize initial) onPages pages := by
  refine ⟨rfl, ?_, ?_⟩
  · intro s a ha
    cases a with
    | destroy ptr => exact ⟨ha, trivial⟩
    | producer sizeT size ending =>
        obtain ⟨-, hsize, hfits⟩ := ha
        cases ending with
        | openFailed | mapFailed => exact trivial
        | copyThrew base => exact ⟨⟨hsize.1.trans_le hsize.2, hfits⟩, trivial⟩
        | returned base => exact ⟨⟨hsize.1.trans_le hsize.2, Nat.le_refl size, hfits⟩, trivial⟩
    | consumer sizeT size ending =>
        obtain ⟨-, hsize, hfits, -⟩ := ha
        cases ending with
        | openFailed | mapFailed | copyThrew base => exact trivial
        | returned base => exact ⟨⟨hsize.1.trans_le hsize.2, hsize.2, hfits⟩, trivial⟩
  · intro s a _
    cases a with
    | destroy ptr => rfl
    | producer sizeT size ending => cases ending <;> rfl
    | consumer sizeT size ending => cases ending <;> rfl

/-! ### What is wanted of the calls -/

/-- Nobody else's pages were unmapped, and once all pointers are destroyed the pages are those that
were mapped before. -/
def Restores (initial : Finset Nat) (s : MappedCalls) : Prop := s.pages.Restores initial

/-- A consumer that returns a pointer is told to map no more pages than its type covers, and no
copy throws. -/
def Covers (pageSize : Nat) (_ : MappedCalls) : Action → Prop
  | .consumer sizeT size (.returned _) => Pages.count pageSize sizeT = Pages.count pageSize size
  | .producer _ _ ending => ending.copies
  | .consumer _ _ .openFailed | .consumer _ _ .mapFailed | .consumer _ _ (.copyThrew _)
  | .destroy _ => True

instance (pageSize : Nat) (s : MappedCalls) : ∀ a, Decidable (Covers pageSize s a)
  | .consumer _ _ (.returned _) => inferInstanceAs (Decidable (_ = _))
  | .producer _ _ ending => inferInstanceAs (Decidable ending.copies)
  | .consumer _ _ .openFailed | .consumer _ _ .mapFailed | .consumer _ _ (.copyThrew _)
  | .destroy _ => isTrue trivial

/-- It is what is asked of the pages. -/
theorem covers_iff (ha : s.enabled pageSize a) : Covers pageSize s a ↔
    ((Pages.machine pageSize initial).restrict (Pages.Exact pageSize)).Legal s.pages (onPages a) := by
  have hl := (expands pageSize initial).legal ha
  cases a with
  | destroy ptr => exact ⟨fun _ => ⟨⟨hl.1, trivial⟩, trivial⟩, fun _ => trivial⟩
  | producer sizeT size ending =>
      cases ending with
      | openFailed | mapFailed => exact Iff.rfl
      | copyThrew base => exact ⟨fun h => h.elim, fun h => h.1.2⟩
      | returned base => exact ⟨fun _ => ⟨⟨hl.1, rfl⟩, trivial⟩, fun _ => trivial⟩
  | consumer sizeT size ending =>
      cases ending with
      | openFailed | mapFailed | copyThrew base => exact Iff.rfl
      | returned base => exact ⟨fun h => ⟨⟨hl.1, h⟩, trivial⟩, fun h => h.1.2⟩

/-- A run has lost no page exactly when no call of it has. -/
theorem whole_iff (hpos : 0 < pageSize)
    (hl : (machine pageSize initial).Legal (machine pageSize initial).init tr) :
    ((machine pageSize initial).restrict (Covers pageSize)).Legal (machine pageSize initial).init tr ↔
      ((machine pageSize initial).after (machine pageSize initial).init tr).pages.Whole pageSize
        initial := by
  have hexpands := expands pageSize initial
  obtain ⟨hpages, hafter⟩ := hexpands.run hl
  rw [hexpands.restrict_iff covers_iff hl, Pages.whole_iff hpos hpages, hafter]

theorem sound (hpos : 0 < pageSize) (hr : (machine pageSize initial).Reachable s) :
    s.pages.Sound pageSize initial :=
  Pages.sound hpos ((expands pageSize initial).reachable hr)

/-! ### Destroying the pointers -/

def Action.isDestroy : Action → Prop
  | .destroy _ => True
  | .producer _ _ _ | .consumer _ _ _ => False

/-- All pointers can be destroyed. -/
theorem exists_destroyed (pageSize : Nat) (initial : Finset Nat) (s : MappedCalls) :
    ∃ rest, (machine pageSize initial).Legal s rest ∧
    (∀ a ∈ rest, a.isDestroy) ∧ ((machine pageSize initial).after s rest).pages.held = [] := by
  induction hheld : s.pages.held generalizing s with
  | nil => exact ⟨[], trivial, fun _ ha => absurd ha List.not_mem_nil, hheld⟩
  | cons ptr held ih =>
      have ha : ptr ∈ s.pages.held := hheld ▸ List.mem_cons_self
      have hrest : (s.step pageSize (.destroy ptr)).pages.held = held := by
        show s.pages.held.erase ptr = held
        rw [hheld, List.erase_cons_head]
      obtain ⟨rest, hl, hdestroy, hend⟩ := ih _ hrest
      refine ⟨.destroy ptr :: rest, ⟨ha, hl⟩, fun a hmem => ?_, hend⟩
      rcases List.mem_cons.mp hmem with rfl | hmem
      · exact trivial
      · exact hdestroy a hmem

theorem covers_of_destroy (s : MappedCalls) (a : Action) (h : a.isDestroy) :
    Covers pageSize s a := by
  cases a with
  | destroy ptr => exact trivial
  | producer sizeT size ending | consumer sizeT size ending => exact h.elim

/--
**When the pages are restored.**  For any size of a page, whatever was mapped before and whatever
calls fail: all along a run of calls, and then of destructions in any order, nobody else's page
is unmapped and the pages without a pointer left are those of the beginning, exactly when no
consumer that succeeds is told to map more pages than its type covers, and no copy throws.
-/
theorem pages_restored (hpos : 0 < pageSize) (initial : Finset Nat)
    (hl : (machine pageSize initial).Legal (machine pageSize initial).init tr) :
    (∀ rest,
      (machine pageSize initial).Legal ((machine pageSize initial).after
        (machine pageSize initial).init tr) rest →
      (∀ a ∈ rest, a.isDestroy) → ∀ pre, pre <+: tr ++ rest →
        Restores initial ((machine pageSize initial).after (machine pageSize initial).init pre)) ↔
    ((machine pageSize initial).restrict (Covers pageSize)).Legal (machine pageSize initial).init
      tr := by
  constructor
  · intro h
    obtain ⟨rest, hrest, hdestroy, hend⟩ := exists_destroyed pageSize initial
      ((machine pageSize initial).after (machine pageSize initial).init tr)
    have hrestores := h rest hrest hdestroy (tr ++ rest) List.prefix_rfl
    have hall : (machine pageSize initial).Legal (machine pageSize initial).init (tr ++ rest) :=
      Machine.legal_append.mpr ⟨hl, hrest⟩
    rw [← Machine.after_append] at hend
    have hwhole := (whole_iff hpos hall).mpr (Pages.whole_of_restores hrestores hend)
    exact Machine.legal_of_prefix (List.prefix_append tr rest) hwhole
  · intro h rest hrest hdestroy pre hpre
    have hall : ((machine pageSize initial).restrict (Covers pageSize)).Legal
        (machine pageSize initial).init (tr ++ rest) :=
      Machine.legal_append.mpr
        ⟨h, Machine.restrict_legal_of_forall covers_of_destroy hrest hdestroy⟩
    have hpart := Machine.legal_of_prefix hpre hall
    have hlegal := Machine.restrict_legal hpart
    exact ((whole_iff hpos hlegal).mp hpart).restores (sound hpos (Machine.reachable_after hlegal))

/-- A message of 26 bytes goes from one to the other, where the type is a pointer. -/
def oneMessage : List Action :=
  [.producer 8 26 (.returned 0), .consumer 8 26 (.returned 1), .destroy (produced 0 26),
    .destroy (consumed 1 26 8)]

theorem pages_restored_one :
    Restores ∅ ((machine 4096 ∅).after (machine 4096 ∅).init oneMessage) :=
  (pages_restored (by decide) ∅ (by decide +kernel)).mpr (by decide +kernel) [] trivial
    (fun _ ha => absurd ha List.not_mem_nil) oneMessage (List.prefix_append _ _)

/-- The consumer asks for two pages, and its deleter unmaps one. -/
def twoPages : List Action :=
  [.producer 8 5000 (.returned 0), .destroy (produced 0 5000), .consumer 8 5000 (.returned 0),
    .destroy (consumed 0 5000 8)]

/-- The other one stays. -/
theorem pages_left :
    (machine 4096 ∅).Legal (machine 4096 ∅).init twoPages ∧
      ((machine 4096 ∅).after (machine 4096 ∅).init twoPages).pages.held = [] ∧
      ¬ Restores ∅ ((machine 4096 ∅).after (machine 4096 ∅).init twoPages) := by
  refine ⟨by decide +kernel, by decide +kernel, fun h => ?_⟩
  exact absurd (h.mapped (by decide +kernel)) (by decide +kernel)

end MappedCalls

end LinuxSystems
