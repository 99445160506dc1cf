/-
Mappings of whole pages.

A mapping covers the pages that its length covers, rounded up, and so does what is unmapped of it
later; a page that is not mapped may be unmapped without harm.  Whoever holds a mapping remembers
where it is and how much of it to unmap, which is not more than was mapped.  A mapping may also
be lost, with nobody to unmap it.

What stays mapped once everybody has unmapped what he holds is decided by two things only: that no
mapping is lost, and that what is remembered covers as many pages as the mapping does.
-/
import LinuxSystems.Machine.Run
import Mathlib.Algebra.Order.Floor.Div
import Mathlib.Order.Interval.Finset.Nat

namespace LinuxSystems

namespace Pages

/-- The pages that `length` bytes cover. -/
def count (pageSize length : Nat) : Nat := length ⌈/⌉ pageSize

/-- The pages of `length` bytes from the page `base` on. -/
def range (pageSize base length : Nat) : Finset Nat :=
  Finset.Ico base (base + count pageSize length)

/-- A mapping, and how much of it its holder will unmap. -/
structure Held where
  base : Nat
  size : Nat
  cut : Nat
  deriving DecidableEq

def Held.pages (pageSize : Nat) (h : Held) : Finset Nat := range pageSize h.base h.size

def Held.cutPages (pageSize : Nat) (h : Held) : Finset Nat := range pageSize h.base h.cut

end Pages

open Pages

/-- The pages that are mapped, and who holds them. -/
structure Pages where
  mapped : Finset Nat
  held : List Held
  /-- The mapped pages that somebody has unmapped who did not hold them. -/
  foreign : Finset Nat

namespace Pages

inductive Action where
  | map (h : Held)
  /-- A mapping that nobody holds. -/
  | lose (base size : Nat)
  | unmap (h : Held)

def enabled (pageSize : Nat) (s : Pages) : Action → Prop
  | .map h => 0 < h.size ∧ h.cut ≤ h.size ∧ Disjoint (h.pages pageSize) s.mapped
  | .lose base size => 0 < size ∧ Disjoint (range pageSize base size) s.mapped
  | .unmap h => h ∈ s.held

instance (pageSize : Nat) (s : Pages) : ∀ a, Decidable (s.enabled pageSize a)
  | .map _ => inferInstanceAs (Decidable (_ ∧ _ ∧ Disjoint _ s.mapped))
  | .lose _ _ => inferInstanceAs (Decidable (_ ∧ Disjoint _ s.mapped))
  | .unmap h => inferInstanceAs (Decidable (h ∈ s.held))

def step (pageSize : Nat) (s : Pages) : Action → Pages
  | .map h => { s with mapped := s.mapped ∪ h.pages pageSize, held := h :: s.held }
  | .lose base size => { s with mapped := s.mapped ∪ range pageSize base size }
  | .unmap h =>
      { mapped := s.mapped \ h.cutPages pageSize
        held := s.held.erase h
        foreign := s.foreign ∪ ((h.cutPages pageSize ∩ s.mapped) \ h.pages pageSize) }

/-- The pages `initial` are mapped, by somebody else. -/
def machine (pageSize : Nat) (initial : Finset Nat) : Machine Pages Action where
  init := ⟨initial, [], ∅⟩
  enabled := enabled pageSize
  next := step pageSize

instance (pageSize : Nat) (initial : Finset Nat) (s : Pages) (a : Action) :
    Decidable ((machine pageSize initial).enabled s a) :=
  inferInstanceAs (Decidable (s.enabled pageSize a))

variable {pageSize base length : Nat} {initial : Finset Nat} {s : Pages} {a : Action}
  {h : Held} {x : Nat} {tr : List Action}

/-! ### Counting pages -/

theorem count_mono (hpos : 0 < pageSize) {length' : Nat} (hle : length ≤ length') :
    count pageSize length ≤ count pageSize length' :=
  (gc_mul_ceilDiv hpos).monotone_l hle

theorem count_pos (hpos : 0 < pageSize) (hlength : 0 < length) : 0 < count pageSize length := by
  refine Nat.pos_of_ne_zero fun hzero => ?_
  have hle : length ≤ pageSize * 0 := (ceilDiv_le_iff_le_mul hpos).mp (Nat.le_of_eq hzero)
  omega

theorem mem_range : x ∈ range pageSize base length ↔
    base ≤ x ∧ x < base + count pageSize length := Finset.mem_Ico

/-! ### What holds whatever is done -/

/-- Everybody's pages are mapped, and nobody else's. -/
structure Sound (pageSize : Nat) (initial : Finset Nat) (s : Pages) : Prop where
  kept : initial ⊆ s.mapped
  mapped : ∀ h ∈ s.held, h.pages pageSize ⊆ s.mapped
  outside : ∀ h ∈ s.held, Disjoint (h.pages pageSize) initial
  apart : s.held.Pairwise fun h h' => Disjoint (h.pages pageSize) (h'.pages pageSize)
  cut : ∀ h ∈ s.held, 0 < h.size ∧ h.cut ≤ h.size
  foreign : s.foreign = ∅

/-- Nothing is unmapped that was not mapped with it. -/
theorem cutPages_subset (hpos : 0 < pageSize) (hcut : h.cut ≤ h.size) :
    h.cutPages pageSize ⊆ h.pages pageSize := by
  intro x hx
  obtain ⟨hge, hlt⟩ := mem_range.mp hx
  exact mem_range.mpr ⟨hge, hlt.trans_le (Nat.add_le_add_left (count_mono hpos hcut) h.base)⟩

/-- Whoever else holds a mapping holds other pages. -/
theorem Sound.apart_erase (hs : Sound pageSize initial s) (hh : h ∈ s.held) :
    ∀ h' ∈ s.held.erase h, Disjoint (h.pages pageSize) (h'.pages pageSize) := by
  have hperm := (List.perm_cons_erase hh).pairwise_iff
    (R := fun h h' => Disjoint (Held.pages pageSize h) (Held.pages pageSize h')) fun hd => hd.symm
  exact (List.pairwise_cons.mp (hperm.mp hs.apart)).1

theorem Sound.step (hpos : 0 < pageSize) (hs : Sound pageSize initial s)
    (ha : s.enabled pageSize a) : Sound pageSize initial (s.step pageSize a) := by
  cases a with
  | map h =>
      obtain ⟨hsize, hcut, hfree⟩ := ha
      refine ⟨hs.kept.trans Finset.subset_union_left, ?_, ?_, ?_, ?_, hs.foreign⟩
      · intro h' hh'
        rcases List.mem_cons.mp hh' with rfl | hh'
        · exact Finset.subset_union_right
        · exact (hs.mapped h' hh').trans Finset.subset_union_left
      · intro h' hh'
        rcases List.mem_cons.mp hh' with rfl | hh'
        · exact hfree.mono_right hs.kept
        · exact hs.outside h' hh'
      · exact List.pairwise_cons.mpr
          ⟨fun h' hh' => hfree.mono_right (hs.mapped h' hh'), hs.apart⟩
      · intro h' hh'
        rcases List.mem_cons.mp hh' with rfl | hh'
        · exact ⟨hsize, hcut⟩
        · exact hs.cut h' hh'
  | lose base size =>
      exact ⟨hs.kept.trans Finset.subset_union_left,
        fun h hh => (hs.mapped h hh).trans Finset.subset_union_left, hs.outside, hs.apart, hs.cut,
        hs.foreign⟩
  | unmap h =>
      have hsub := cutPages_subset hpos (hs.cut h ha).2
      have hkeep : ∀ {pages : Finset Nat}, pages ⊆ s.mapped → Disjoint (h.pages pageSize) pages →
          pages ⊆ s.mapped \ h.cutPages pageSize := by
        intro pages hmapped hdisjoint
        exact Finset.subset_sdiff.mpr ⟨hmapped, (hdisjoint.mono_left hsub).symm⟩
      refine ⟨hkeep hs.kept (hs.outside h ha), ?_, ?_, ?_, ?_, ?_⟩
      · intro h' hh'
        exact hkeep (hs.mapped h' (List.mem_of_mem_erase hh')) (hs.apart_erase ha h' hh')
      · exact fun h' hh' => hs.outside h' (List.mem_of_mem_erase hh')
      · exact hs.apart.sublist List.erase_sublist
      · exact fun h' hh' => hs.cut h' (List.mem_of_mem_erase hh')
      · have hown : (h.cutPages pageSize ∩ s.mapped) \ h.pages pageSize = ∅ :=
          Finset.sdiff_eq_empty_iff_subset.mpr (Finset.inter_subset_left.trans hsub)
        show s.foreign ∪ _ = ∅
        rw [hs.foreign, hown, Finset.empty_union]

theorem sound (hpos : 0 < pageSize) (hr : (machine pageSize initial).Reachable s) :
    Sound pageSize initial s := by
  refine hr.invariant (P := Sound pageSize initial) ?_ fun s a _ hs ha => hs.step hpos ha
  exact ⟨Finset.Subset.refl _, fun _ hh => absurd hh List.not_mem_nil,
    fun _ hh => absurd hh List.not_mem_nil, List.Pairwise.nil,
    fun _ hh => absurd hh List.not_mem_nil, rfl⟩

/-! ### What stays mapped -/

/-- Every page is there from the beginning or held by somebody, who will unmap all he holds. -/
structure Whole (pageSize : Nat) (initial : Finset Nat) (s : Pages) : Prop where
  held : ∀ x ∈ s.mapped, x ∈ initial ∨ ∃ h ∈ s.held, x ∈ h.pages pageSize
  cut : ∀ h ∈ s.held, count pageSize h.cut = count pageSize h.size

/-- Nobody's pages are unmapped by others, and once nobody holds anything the pages are those that
were mapped at the beginning. -/
structure Restores (initial : Finset Nat) (s : Pages) : Prop where
  foreign : s.foreign = ∅
  mapped : s.held = [] → s.mapped = initial

/-- No mapping is lost, and what is remembered of it covers its pages. -/
def Exact (pageSize : Nat) (_ : Pages) : Action → Prop
  | .map h => count pageSize h.cut = count pageSize h.size
  | .lose _ _ => False
  | .unmap _ => True

instance (pageSize : Nat) (s : Pages) : ∀ a, Decidable (Exact pageSize s a)
  | .map _ => inferInstanceAs (Decidable (_ = _))
  | .lose _ _ => isFalse id
  | .unmap _ => isTrue trivial

theorem Whole.restores (hs : Sound pageSize initial s) (hw : Whole pageSize initial s) :
    Restores initial s := by
  refine ⟨hs.foreign, fun hnil => Finset.Subset.antisymm (fun x hx => ?_) hs.kept⟩
  refine (hw.held x hx).resolve_right ?_
  rintro ⟨h, hh, -⟩
  rw [hnil] at hh
  exact absurd hh List.not_mem_nil

theorem whole_of_restores (hr : Restores initial s) (hnil : s.held = []) :
    Whole pageSize initial s := by
  refine ⟨fun x hx => Or.inl ?_, fun h hh => ?_⟩
  · rwa [hr.mapped hnil] at hx
  · rw [hnil] at hh
    exact absurd hh List.not_mem_nil

/-- What covers as many pages covers the same. -/
theorem cutPages_eq (hcount : count pageSize h.cut = count pageSize h.size) :
    h.cutPages pageSize = h.pages pageSize := by
  unfold Held.cutPages Held.pages range
  rw [hcount]

/-- A page that stays mapped behind what is unmapped is not held by anybody else. -/
theorem whole_unmap (hpos : 0 < pageSize) (hs : Sound pageSize initial s) (hh : h ∈ s.held) :
    Whole pageSize initial (s.step pageSize (.unmap h)) ↔ Whole pageSize initial s := by
  constructor
  · intro hw
    have hcount : count pageSize h.cut = count pageSize h.size := by
      refine Nat.le_antisymm (count_mono hpos (hs.cut h hh).2) (Nat.not_lt.mp fun hlt => ?_)
      -- the first page that is not unmapped
      have hown : h.base + count pageSize h.cut ∈ h.pages pageSize :=
        mem_range.mpr ⟨Nat.le_add_right _ _, Nat.add_lt_add_left hlt h.base⟩
      have hstays : h.base + count pageSize h.cut ∈ s.mapped \ h.cutPages pageSize := by
        refine Finset.mem_sdiff.mpr ⟨hs.mapped h hh hown, fun hcut => ?_⟩
        exact absurd (mem_range.mp hcut).2 (Nat.lt_irrefl _)
      rcases hw.held _ hstays with hinit | ⟨h', hh', hother⟩
      · exact Finset.disjoint_left.mp (hs.outside h hh) hown hinit
      · exact Finset.disjoint_left.mp (hs.apart_erase hh h' hh') hown hother
    refine ⟨fun x hx => ?_, fun h' hh' => ?_⟩
    · by_cases hcut : x ∈ h.cutPages pageSize
      · exact Or.inr ⟨h, hh, cutPages_subset hpos (hs.cut h hh).2 hcut⟩
      · rcases hw.held x (Finset.mem_sdiff.mpr ⟨hx, hcut⟩) with hinit | ⟨h', hh', hother⟩
        · exact Or.inl hinit
        · exact Or.inr ⟨h', List.mem_of_mem_erase hh', hother⟩
    · by_cases heq : h' = h
      · rw [heq]
        exact hcount
      · exact hw.cut h' ((List.mem_erase_of_ne heq).mpr hh')
  · intro hw
    refine ⟨fun x hx => ?_, fun h' hh' => hw.cut h' (List.mem_of_mem_erase hh')⟩
    obtain ⟨hx, hcut⟩ := Finset.mem_sdiff.mp hx
    rw [cutPages_eq (hw.cut h hh)] at hcut
    rcases hw.held x hx with hinit | ⟨h', hh', hown⟩
    · exact Or.inl hinit
    · have hne : h' ≠ h := fun heq => hcut (heq ▸ hown)
      exact Or.inr ⟨h', (List.mem_erase_of_ne hne).mpr hh', hown⟩

/-- **A step keeps it exactly when nothing is lost by it.** -/
theorem whole_step (hpos : 0 < pageSize) (hs : Sound pageSize initial s)
    (ha : s.enabled pageSize a) :
    Whole pageSize initial (s.step pageSize a) ↔ Whole pageSize initial s ∧ Exact pageSize s a := by
  cases a with
  | map h =>
      obtain ⟨-, -, hfree⟩ := ha
      constructor
      · intro hw
        refine ⟨⟨fun x hx => ?_, fun h' hh' => hw.cut h' (List.mem_cons_of_mem h hh')⟩,
          hw.cut h List.mem_cons_self⟩
        rcases hw.held x (Finset.mem_union_left _ hx) with hinit | ⟨h', hh', hown⟩
        · exact Or.inl hinit
        · rcases List.mem_cons.mp hh' with rfl | hh'
          · exact absurd hx (Finset.disjoint_left.mp hfree hown)
          · exact Or.inr ⟨h', hh', hown⟩
      · rintro ⟨hw, hexact⟩
        refine ⟨fun x hx => ?_, fun h' hh' => ?_⟩
        · rcases Finset.mem_union.mp hx with hx | hx
          · rcases hw.held x hx with hinit | ⟨h', hh', hown⟩
            · exact Or.inl hinit
            · exact Or.inr ⟨h', List.mem_cons_of_mem h hh', hown⟩
          · exact Or.inr ⟨h, List.mem_cons_self, hx⟩
        · rcases List.mem_cons.mp hh' with rfl | hh'
          · exact hexact
          · exact hw.cut h' hh'
  | lose base size =>
      obtain ⟨hsize, hfree⟩ := ha
      refine iff_of_false (fun hw => ?_) fun hw => hw.2
      have hfirst : base ∈ range pageSize base size :=
        mem_range.mpr ⟨Nat.le_refl _, Nat.lt_add_of_pos_right (count_pos hpos hsize)⟩
      have hnot := Finset.disjoint_left.mp hfree hfirst
      rcases hw.held base (Finset.mem_union_right _ hfirst) with hinit | ⟨h, hh, hown⟩
      · exact hnot (hs.kept hinit)
      · exact hnot (hs.mapped h hh hown)
  | unmap h =>
      rw [whole_unmap hpos hs ha]
      exact (and_iff_left trivial).symm

/-- **What stays mapped.**  A run has lost nothing exactly when no step of it has. -/
theorem whole_iff (hpos : 0 < pageSize)
    (hl : (machine pageSize initial).Legal (machine pageSize initial).init tr) :
    ((machine pageSize initial).restrict (Exact pageSize)).Legal (machine pageSize initial).init tr ↔
      Whole pageSize initial ((machine pageSize initial).after (machine pageSize initial).init tr) := by
  refine Machine.restrict_legal_iff (P := Whole pageSize initial) ?_ ?_ hl
  · exact ⟨fun x hx => Or.inl hx, fun h hh => absurd hh List.not_mem_nil⟩
  · exact fun s a hr ha => whole_step hpos (sound hpos hr) ha

end Pages

end LinuxSystems
