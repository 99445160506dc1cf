/-
A thread that makes others and joins them.

It first makes all of them, one after the other.  Then it does commands of its own, and at the
end it joins every one.  A thread runs as soon as it is made, and may be done long before it
is joined.

What is needed of this is the order of the commands: nobody is made once another command has been
reached, everybody has been made by then, and nobody is made twice.
-/
import Mathlib.Data.List.FinRange
import Mathlib.Data.List.Nodup

namespace LinuxSystems.Crew

/-- A command of the thread that makes the `n` others. -/
inductive Command (n : ℕ) (C : Type*) where
  | make (w : Fin n)
  | own (c : C)
  | join (w : Fin n)
  deriving DecidableEq

variable {n : ℕ} {C : Type*}

/-- What it does when all are made. -/
structure Plan (n : ℕ) (C : Type*) where
  tail : List (Command n C)
  noMake : ∀ w, .make w ∉ tail
  joins : ∀ w, .join w ∈ tail

def makes (n : ℕ) (C : Type*) : List (Command n C) := (List.finRange n).map .make

def Plan.program (p : Plan n C) : List (Command n C) := makes n C ++ p.tail

variable {p : Plan n C} {past todo : List (Command n C)} {x : Command n C} {c : C} {w : Fin n}

theorem make_mem_makes (w : Fin n) : .make w ∈ makes n C :=
  List.mem_map_of_mem (List.mem_finRange w)

theorem eq_make_of_mem (hx : x ∈ makes n C) : ∃ w, x = .make w := by
  obtain ⟨w, _, rfl⟩ := List.mem_map.mp hx
  exact ⟨w, rfl⟩

/-- Nobody is made behind another command. -/
theorem make_notMem (h : past ++ todo = p.program) (hx : x ∈ past) (hne : ∀ w, x ≠ .make w)
    (w : Fin n) : .make w ∉ todo := by
  rcases List.append_eq_append_iff.mp h with ⟨l, hmakes, _⟩ | ⟨l, _, htail⟩
  · have hmem : x ∈ makes n C := by
      rw [hmakes]
      exact List.mem_append_left l hx
    obtain ⟨v, rfl⟩ := eq_make_of_mem hmem
    exact absurd rfl (hne v)
  · intro hmem
    refine p.noMake w ?_
    rw [htail]
    exact List.mem_append_right l hmem

/-- Everybody is made before another command. -/
theorem make_mem (h : past ++ x :: todo = p.program) (hne : ∀ w, x ≠ .make w) (w : Fin n) :
    .make w ∈ past := by
  have hmem : .make w ∈ makes n C := make_mem_makes w
  rcases List.append_eq_append_iff.mp h with ⟨l, hmakes, htail⟩ | ⟨l, hpast, _⟩
  · cases l with
    | nil => rwa [hmakes, List.append_nil] at hmem
    | cons y l =>
        obtain ⟨rfl, _⟩ := List.cons.inj htail
        have hx : x ∈ makes n C := by
          rw [hmakes]
          exact List.mem_append_right past List.mem_cons_self
        obtain ⟨v, rfl⟩ := eq_make_of_mem hx
        exact absurd rfl (hne v)
  · rw [hpast]
    exact List.mem_append_left l hmem

/-- Nobody is made twice. -/
theorem make_once (h : past ++ .make w :: todo = p.program) : .make w ∉ past := by
  intro hmem
  rcases List.append_eq_append_iff.mp h with ⟨l, hmakes, htail⟩ | ⟨l, _, htail⟩
  · have hnodup : (makes n C).Nodup := by
      refine (List.nodup_finRange n).map fun v w hvw => ?_
      cases hvw
      rfl
    cases l with
    | nil =>
        refine p.noMake w ?_
        rw [List.nil_append] at htail
        rw [← htail]
        exact List.mem_cons_self
    | cons y l =>
        obtain ⟨rfl, _⟩ := List.cons.inj htail
        rw [hmakes] at hnodup
        exact (List.nodup_append.mp hnodup).2.2 _ hmem _ List.mem_cons_self rfl
  · refine p.noMake w ?_
    rw [htail]
    exact List.mem_append_right l List.mem_cons_self

/-- What comes before a command is done when the command is. -/
theorem before_mem {α : Type*} {l l' before behind : List α} {x y : α}
    (h : l ++ l' = before ++ x :: behind) (hno : x ∉ before) (hx : x ∈ l) (hy : y ∈ before) :
    y ∈ l := by
  rcases List.append_eq_append_iff.mp h with ⟨m, hbefore, _⟩ | ⟨m, hl, _⟩
  · rw [hbefore] at hno
    exact absurd (List.mem_append_left m hx) hno
  · rw [hl]
    exact List.mem_append_left m hy

/-! ### Along the program -/

/-- The commands of `past` are done, and those of `todo` are not. -/
structure Along (p : Plan n C) (past todo : List (Command n C)) (absent done : Fin n → Prop) :
    Prop where
  program : past ++ todo = p.program
  absent_iff : ∀ w, absent w ↔ .make w ∉ past
  joined : ∀ w, .join w ∈ past → done w
  present : ∀ w, done w → ¬ absent w

namespace Along

variable {absent done absent' done' : Fin n → Prop}

theorem init (hnone : ∀ w, absent w ∧ ¬ done w) : Along p [] p.program absent done where
  program := rfl
  absent_iff w := iff_of_true (hnone w).1 List.not_mem_nil
  joined _ hw := absurd hw List.not_mem_nil
  present w hw := absurd hw (hnone w).2

theorem snoc (h : Along p past (x :: todo) absent done) : past ++ [x] ++ todo = p.program := by
  rw [List.append_assoc]
  exact h.program

/-- A thread is made. -/
theorem make (h : Along p past (.make w :: todo) absent done)
    (habsent : ∀ v, absent' v ↔ absent v ∧ v ≠ w) (hdone : ∀ v, v ≠ w → (done' v ↔ done v))
    (hnew : ¬ done' w) : Along p (past ++ [.make w]) todo absent' done' where
  program := h.snoc
  absent_iff v := by
    rw [habsent, h.absent_iff]
    simp
  joined v hv := by
    have hmem : .join v ∈ past := by simpa using hv
    have hvw : v ≠ w := by
      rintro rfl
      have hno := make_notMem h.program hmem (by simp) v
      exact hno List.mem_cons_self
    exact (hdone v hvw).mpr (h.joined v hmem)
  present v hv := by
    by_cases hvw : v = w
    · exact absurd (hvw ▸ hv) hnew
    · rw [habsent]
      exact fun hab => h.present v ((hdone v hvw).mp hv) hab.1

/-- The one that is made was not there. -/
theorem absent_of_make (h : Along p past (.make w :: todo) absent done) : absent w :=
  (h.absent_iff w).mpr (make_once h.program)

theorem own (h : Along p past (.own c :: todo) absent done) :
    Along p (past ++ [.own c]) todo absent done where
  program := h.snoc
  absent_iff v := by
    rw [h.absent_iff]
    simp
  joined v hv := h.joined v (by simpa using hv)
  present := h.present

theorem join (h : Along p past (.join w :: todo) absent done) (hw : done w) :
    Along p (past ++ [.join w]) todo absent done where
  program := h.snoc
  absent_iff v := by
    rw [h.absent_iff]
    simp
  joined v hv := by
    rcases List.mem_append.mp hv with hv | hv
    · exact h.joined v hv
    · obtain rfl : v = w := by simpa using hv
      exact hw
  present := h.present

/-- A thread that is there goes on. -/
theorem go (h : Along p past todo absent done) (habsent : ∀ v, absent' v ↔ absent v)
    (hdone : ∀ v, done v → done' v) (hpresent : ∀ v, done' v → ¬ absent v) :
    Along p past todo absent' done' where
  program := h.program
  absent_iff v := (habsent v).trans (h.absent_iff v)
  joined v hv := hdone v (h.joined v hv)
  present v hv := fun hab => hpresent v hv ((habsent v).mp hab)

/-- All are there when another command is reached. -/
theorem all_present (h : Along p past (x :: todo) absent done) (hne : ∀ w, x ≠ .make w)
    (w : Fin n) : ¬ absent w :=
  fun hab => (h.absent_iff w).mp hab (make_mem h.program hne w)

/-- **All are done at the end.** -/
theorem all_done (h : Along p past [] absent done) (w : Fin n) : done w := by
  refine h.joined w ?_
  have hprogram := h.program
  rw [List.append_nil] at hprogram
  rw [hprogram]
  exact List.mem_append_right _ (p.joins w)

end Along

end LinuxSystems.Crew
