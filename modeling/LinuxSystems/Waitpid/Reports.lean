/-
What the process that waits says of its children.

It says two statuses, where they are those of exits.  The first is that of the first child, or of
the second where there is no first, or the 0 that is there before; the second is that of the
second child, or once more the first.  So a status is reported twice where one `fork` failed, and
as 0 where both did.  But no child is left over, and none is said to have exited that was killed.
-/
import LinuxSystems.Waitpid.Model

namespace LinuxSystems

open Waitpid

namespace Waitpid

variable {s s' : Waitpid} {a : Action} {c d : Fin 2} {q : Child} {how : Ending}

theorem ifExited_exited (code : ℕ) : ifExited (Ending.exited code).status := by
  show code % 256 * 256 % 128 = 0
  omega

theorem not_ifExited_killed {signal : ℕ} (core : Bool) (hpos : 0 < signal) (hle : signal ≤ 64) :
    ¬ ifExited (Ending.killed signal core).status := by
  cases core with
  | true => simp only [ifExited, Ending.status, if_true]; omega
  | false => simp only [ifExited, Ending.status, Bool.false_eq_true, if_false]; omega

/-! ### What is known of the children -/

/-- What is known wherever the parent is. -/
structure Told (s : Waitpid) : Prop where
  pid : ∀ c q, s.child c = some q → s.pids c = q.pid
  ending : ∀ c q, s.child c = some q → s.ended c = q.place.ending?
  line : ∀ c pid, s.child c = some ⟨pid, .exit⟩ → .processId pid ∈ s.cout
  exited : ∀ c code, s.ended c = some (.exited code) → code = exitCode c ∧
    ∃ pid : ℕ, s.pids c = pid ∧ .processId pid ∈ s.cout
  killed : ∀ c signal core, s.ended c = some (.killed signal core) → 0 < signal ∧ signal ≤ 64

/-- The child is there, or was not made. -/
def Live (s : Waitpid) (c : Fin 2) : Prop :=
  (s.pids c = -1 ∧ s.child c = none ∧ s.ended c = none) ∨ (s.child c).isSome

/-- The child has been waited for, or was not made. -/
def Gone (s : Waitpid) (c : Fin 2) : Prop :=
  s.child c = none ∧ (s.ended c = none ↔ s.pids c = -1)

attribute [local instance] neZeroTwo

/-- Between the first `waitpid` and the second: where no first child was made, the first has
taken the second. -/
def HasOne (s : Waitpid) : Prop := s.Gone 0 ∧ if s.pids 0 = -1 then s.Gone 1 else s.Live 1

/-- What the first `waitpid` leaves in `status`. -/
def firstStatus (s : Waitpid) : ℕ := (((s.ended 0).or (s.ended 1)).map Ending.status).getD 0

/-- What the second leaves there. -/
def secondStatus (s : Waitpid) : ℕ := ((s.ended 1).map Ending.status).getD s.firstStatus

def Line.isReport : Line → Bool
  | .processId _ => false
  | .terminated _ _ => true

/-- What the parent has printed. -/
def reports (s : Waitpid) : List Line := s.cout.filter Line.isReport

/-- What is known when the parent is there. -/
def Known (s : Waitpid) : Site → Prop
  | .fork 0 => (∀ c, s.child c = none ∧ s.ended c = none) ∧ s.status = 0 ∧ s.reports = []
  | .fork 1 => s.Live 0 ∧ (s.child 1 = none ∧ s.ended 1 = none) ∧ s.status = 0 ∧ s.reports = []
  | .wait 0 => (∀ c, s.Live c) ∧ (s.pids 0 ≠ -1 → s.pids 0 ≠ s.pids 1) ∧ s.status = 0 ∧
      s.reports = []
  | .report 0 => s.HasOne ∧ s.status = s.firstStatus ∧ s.reports = []
  | .wait 1 => s.HasOne ∧ s.status = s.firstStatus ∧
      s.reports = reportLines (s.pids 0) s.firstStatus
  | .report 1 => (∀ c, s.Gone c) ∧ s.status = s.secondStatus ∧
      s.reports = reportLines (s.pids 0) s.firstStatus
  | .returned => (∀ c, s.Gone c) ∧
      s.reports = reportLines (s.pids 0) s.firstStatus ++ reportLines (s.pids 1) s.secondStatus

theorem Live.congr (h : s.Live c) (hpids : s'.pids c = s.pids c) (hchild : s'.child c = s.child c)
    (hended : s'.ended c = s.ended c) : s'.Live c := by
  unfold Live at h ⊢
  rwa [hpids, hchild, hended]

theorem Gone.congr (h : s.Gone c) (hpids : s'.pids c = s.pids c) (hchild : s'.child c = s.child c)
    (hended : s'.ended c = s.ended c) : s'.Gone c := by
  unfold Gone at h ⊢
  rwa [hpids, hchild, hended]

theorem firstStatus_congr (hended : s'.ended = s.ended) : s'.firstStatus = s.firstStatus := by
  rw [firstStatus, firstStatus, hended]

theorem secondStatus_congr (hended : s'.ended = s.ended) : s'.secondStatus = s.secondStatus := by
  rw [secondStatus, secondStatus, hended, firstStatus_congr hended]

/-- Where one of the two was not made, both have the same status. -/
theorem secondStatus_eq (h : s.ended 0 = none ∨ s.ended 1 = none) :
    s.secondStatus = s.firstStatus := by
  rcases h with h | h
  · cases hone : s.ended 1 <;> simp [secondStatus, firstStatus, h, hone]
  · simp [secondStatus, h]

/-- A child that was not made has no process. -/
theorem Live.none_iff (h : s.Live c) (hs : s.Told) : s.child c = none ↔ s.pids c = -1 := by
  rcases h with ⟨hpid, hchild, -⟩ | hsome
  · exact iff_of_true hchild hpid
  · obtain ⟨q, hq⟩ := Option.isSome_iff_exists.mp hsome
    rw [hq, hs.pid c q hq]
    exact iff_of_false (by simp) (by omega)

theorem Live.gone (h : s.Live c) (hchild : s.child c = none) : s.Gone c ∧ s.ended c = none := by
  rcases h with ⟨hpid, -, hended⟩ | hsome
  · exact ⟨⟨hchild, iff_of_true hended hpid⟩, hended⟩
  · rw [hchild] at hsome
    exact absurd hsome (by simp)

/-- A child that `waitpid` takes for the one with this id. -/
theorem Told.names (hs : s.Told) {pid : ℤ} (hnames : Names pid (s.child c)) :
    pid = -1 ∨ pid = s.pids c := by
  cases hchild : s.child c with
  | none =>
      rw [hchild] at hnames
      exact absurd hnames id
  | some q =>
      rw [hchild] at hnames
      rw [hs.pid c q hchild]
      exact hnames

/-- A child that is asked for and not found is not there. -/
theorem Told.not_there (hs : s.Told) (hno : ¬ Names (s.pids c) (s.child c)) :
    s.child c = none := by
  cases hchild : s.child c with
  | none => rfl
  | some q =>
      rw [hchild, hs.pid c q hchild] at hno
      exact absurd (Or.inr rfl) hno

/-- The child that `waitpid` returns for. -/
theorem Told.ended_of (hs : s.Told) (hend : (endStatus (s.child c)).isSome) :
    ∃ how, s.ended c = some how ∧ endStatus (s.child c) = some how.status ∧ s.pids c ≠ -1 := by
  match hchild : s.child c with
  | none | some ⟨_, .line⟩ | some ⟨_, .exit⟩ =>
      rw [hchild] at hend
      simp [endStatus, Place.ending?] at hend
  | some ⟨pid, .zombie how⟩ =>
      refine ⟨how, hs.ending c _ hchild, rfl, ?_⟩
      rw [hs.pid c _ hchild]
      omega

/-! ### What a child does -/

/-- The parent stays where it is, and a child goes on. -/
structure Grows (s s' : Waitpid) : Prop where
  site : s'.site = s.site
  pids : s'.pids = s.pids
  status : s'.status = s.status
  reports : s'.reports = s.reports
  there : ∀ c, (s.child c).isSome → (s'.child c).isSome
  gone : ∀ c, s.child c = none → s'.child c = none ∧ s'.ended c = s.ended c

namespace Grows

variable (h : Grows s s')
include h

theorem live (hs : s.Live c) : s'.Live c := by
  rcases hs with ⟨hpid, hchild, hended⟩ | hsome
  · obtain ⟨hchild', hended'⟩ := h.gone c hchild
    exact Or.inl ⟨by rw [h.pids, hpid], hchild', hended'.trans hended⟩
  · exact Or.inr (h.there c hsome)

theorem isGone (hs : s.Gone c) : s'.Gone c := by
  obtain ⟨hchild, hended⟩ := h.gone c hs.1
  exact ⟨hchild, by rw [hended, h.pids, hs.2]⟩

theorem hasOne (hs : s.HasOne) : s'.HasOne := by
  refine ⟨h.isGone hs.1, ?_⟩
  have hone := hs.2
  rw [h.pids]
  by_cases hpid : s.pids 0 = -1
  · rw [if_pos hpid] at hone ⊢
    exact h.isGone hone
  · rw [if_neg hpid] at hone ⊢
    exact h.live hone

/-- A child that ends later does not change the status that was left before. -/
theorem firstStatus_eq (hs : s.HasOne) : s'.firstStatus = s.firstStatus := by
  have hzero := (h.gone 0 hs.1.1).2
  have hone := hs.2
  by_cases hpid : s.pids 0 = -1
  · rw [if_pos hpid] at hone
    rw [firstStatus, firstStatus, hzero, (h.gone 1 hone.1).2]
  · obtain ⟨how, hhow⟩ := Option.ne_none_iff_exists'.mp fun hnone => hpid (hs.1.2.mp hnone)
    rw [firstStatus, firstStatus, hzero, hhow, Option.some_or, Option.some_or]

theorem ended_eq (hs : ∀ c, s.Gone c) : s'.ended = s.ended :=
  funext fun c => (h.gone c (hs c).1).2

theorem known (hs : s.Known s.site) : s'.Known s'.site := by
  rw [h.site]
  match hsite : s.site, hs with
  | .fork 0, ⟨hnone, hstatus, hreports⟩ =>
      refine ⟨fun c => ?_, h.status.trans hstatus, h.reports.trans hreports⟩
      obtain ⟨hchild, hended⟩ := h.gone c (hnone c).1
      exact ⟨hchild, hended.trans (hnone c).2⟩
  | .fork 1, ⟨hlive, hnone, hstatus, hreports⟩ =>
      obtain ⟨hchild, hended⟩ := h.gone 1 hnone.1
      exact ⟨h.live hlive, ⟨hchild, hended.trans hnone.2⟩, h.status.trans hstatus,
        h.reports.trans hreports⟩
  | .wait 0, ⟨hlive, hne, hstatus, hreports⟩ =>
      exact ⟨fun c => h.live (hlive c), by rwa [h.pids], h.status.trans hstatus,
        h.reports.trans hreports⟩
  | .report 0, ⟨hrest, hstatus, hreports⟩ =>
      exact ⟨h.hasOne hrest, by rw [h.status, h.firstStatus_eq hrest, hstatus],
        h.reports.trans hreports⟩
  | .wait 1, ⟨hrest, hstatus, hreports⟩ =>
      exact ⟨h.hasOne hrest, by rw [h.status, h.firstStatus_eq hrest, hstatus],
        by rw [h.reports, h.pids, h.firstStatus_eq hrest, hreports]⟩
  | .report 1, ⟨hgone, hstatus, hreports⟩ =>
      have hended := h.ended_eq hgone
      exact ⟨fun c => h.isGone (hgone c), by rw [h.status, secondStatus_congr hended, hstatus],
        by rw [h.reports, h.pids, firstStatus_congr hended, hreports]⟩
  | .returned, ⟨hgone, hreports⟩ =>
      have hended := h.ended_eq hgone
      exact ⟨fun c => h.isGone (hgone c), by
        rw [h.reports, h.pids, firstStatus_congr hended, secondStatus_congr hended, hreports]⟩

end Grows

theorem Grows.refl (s : Waitpid) : Grows s s :=
  ⟨rfl, rfl, rfl, rfl, fun _ h => h, fun _ h => ⟨h, rfl⟩⟩

/-- A child that is there is replaced by another. -/
theorem grows_setChild {r : Child} {l : List Line} {e : Fin 2 → Option Ending}
    (hchild : s.child c = some q) (hreports : l.filter Line.isReport = [])
    (hended : ∀ d, d ≠ c → e d = s.ended d) :
    Grows s { s.setChild c (some r) with cout := s.cout ++ l, ended := e } := by
  refine ⟨rfl, rfl, rfl, ?_, fun d hd => ?_, fun d hd => ?_⟩
  · show (s.cout ++ l).filter Line.isReport = s.reports
    rw [List.filter_append, hreports, List.append_nil]
    rfl
  · show (Function.update s.child c (some r) d).isSome
    by_cases hdc : d = c
    · rw [hdc, Function.update_self]
      rfl
    · rwa [Function.update_of_ne hdc]
  · have hdc : d ≠ c := by
      rintro rfl
      rw [hchild] at hd
      simp at hd
    exact ⟨(Function.update_of_ne hdc _ _).trans hd, hended d hdc⟩

theorem grows_finish (halive : alive (s.child c)) : Grows s (s.finish c how) := by
  cases hchild : s.child c with
  | none => simp [hchild, alive] at halive
  | some q =>
      have hgrows := grows_setChild (r := { q with place := .zombie how }) (l := []) hchild rfl
        fun d hd => Function.update_of_ne hd (some how) s.ended
      rw [List.append_nil] at hgrows
      rw [finish, hchild]
      exact hgrows

theorem grows_child (s : Waitpid) (c : Fin 2) : Grows s (s.childStep c) := by
  match hchild : s.child c with
  | none | some ⟨_, .zombie _⟩ =>
      simp only [childStep, hchild]
      exact Grows.refl s
  | some ⟨pid, .line⟩ =>
      simp only [childStep, hchild]
      exact grows_setChild hchild rfl fun d _ => rfl
  | some ⟨pid, .exit⟩ =>
      simp only [childStep, hchild]
      exact grows_finish (by rw [hchild]; trivial)

/-- A child comes to its end. -/
theorem Told.finish (hs : s.Told) (halive : alive (s.child c))
    (hexited : ∀ code, how = .exited code → code = exitCode c ∧
      ∃ pid, s.child c = some ⟨pid, .exit⟩)
    (hkilled : ∀ signal core, how = .killed signal core → 0 < signal ∧ signal ≤ 64) :
    (s.finish c how).Told := by
  obtain ⟨q, hq⟩ : ∃ q, s.child c = some q := by
    cases hchild : s.child c with
    | none => simp [hchild, alive] at halive
    | some q => exact ⟨q, rfl⟩
  have hself : (s.finish c how).child c = some { q with place := .zombie how } := by
    simp [Waitpid.finish, setChild, hq]
  have hother : ∀ d, d ≠ c → (s.finish c how).child d = s.child d := fun d hd =>
    Function.update_of_ne hd _ _
  have hended : (s.finish c how).ended c = some how := Function.update_self _ _ _
  have hended' : ∀ d, d ≠ c → (s.finish c how).ended d = s.ended d := fun d hd =>
    Function.update_of_ne hd _ _
  refine ⟨fun d r hr => ?_, fun d r hr => ?_, fun d pid hr => ?_, fun d code hd => ?_,
    fun d signal core hd => ?_⟩
  · by_cases hdc : d = c
    · subst hdc
      rw [hself] at hr
      obtain rfl := Option.some.inj hr
      exact hs.pid d q hq
    · exact hs.pid d r ((hother d hdc).symm.trans hr)
  · by_cases hdc : d = c
    · subst hdc
      rw [hself] at hr
      obtain rfl := Option.some.inj hr
      exact hended
    · rw [hended' d hdc]
      exact hs.ending d r ((hother d hdc).symm.trans hr)
  · by_cases hdc : d = c
    · subst hdc
      rw [hself] at hr
      simp at hr
    · exact hs.line d pid ((hother d hdc).symm.trans hr)
  · by_cases hdc : d = c
    · subst hdc
      rw [hended] at hd
      obtain ⟨hcode, pid, hpid⟩ := hexited code (Option.some.inj hd)
      exact ⟨hcode, pid, hs.pid d _ hpid, hs.line d pid hpid⟩
    · exact hs.exited d code ((hended' d hdc).symm.trans hd)
  · by_cases hdc : d = c
    · subst hdc
      rw [hended] at hd
      exact hkilled signal core (Option.some.inj hd)
    · exact hs.killed d signal core ((hended' d hdc).symm.trans hd)

/-- Some children may be gone, and more is printed. -/
theorem Told.frame (hs : s.Told) (hpids : s'.pids = s.pids)
    (hchild : ∀ d q, s'.child d = some q → s.child d = some q) (hended : s'.ended = s.ended)
    (hcout : s.cout ⊆ s'.cout) : s'.Told := by
  refine ⟨fun d q hq => ?_, fun d q hq => ?_, fun d pid hq => hcout (hs.line d pid (hchild d _ hq)),
    fun d code hd => ?_, fun d signal core hd => hs.killed d signal core (by rwa [hended] at hd)⟩
  · rw [hpids]
    exact hs.pid d q (hchild d q hq)
  · rw [hended]
    exact hs.ending d q (hchild d q hq)
  · rw [hended] at hd
    obtain ⟨hcode, pid, hpid, hline⟩ := hs.exited d code hd
    exact ⟨hcode, pid, by rwa [hpids], hcout hline⟩

theorem Told.childStep (hs : s.Told) (c : Fin 2) : (s.childStep c).Told := by
  match hchild : s.child c with
  | none | some ⟨_, .zombie _⟩ =>
      simp only [Waitpid.childStep, hchild]
      exact hs
  | some ⟨pid, .exit⟩ =>
      simp only [Waitpid.childStep, hchild]
      refine hs.finish (by rw [hchild]; trivial) (fun code hcode => ?_) fun signal core h => by
        simp at h
      exact ⟨(Ending.exited.inj hcode).symm, pid, hchild⟩
  | some ⟨pid, .line⟩ =>
      simp only [Waitpid.childStep, hchild]
      have hother : ∀ d q, d ≠ c → Function.update s.child c (some ⟨pid, .exit⟩) d = some q →
          s.child d = some q := fun d q hd hq => by rwa [Function.update_of_ne hd] at hq
      refine ⟨fun d q hq => ?_, fun d q hq => ?_, fun d pid' hq => ?_, fun d code hd => ?_,
        hs.killed⟩
      · by_cases hdc : d = c
        · subst hdc
          have hplace : some (⟨pid, .exit⟩ : Child) = some q := by
            rw [← hq]
            simp [setChild]
          obtain rfl := Option.some.inj hplace
          exact hs.pid d ⟨pid, .line⟩ hchild
        · exact hs.pid d q (hother d q hdc hq)
      · by_cases hdc : d = c
        · subst hdc
          have hplace : some (⟨pid, .exit⟩ : Child) = some q := by
            rw [← hq]
            simp [setChild]
          obtain rfl := Option.some.inj hplace
          exact hs.ending d ⟨pid, .line⟩ hchild
        · exact hs.ending d q (hother d q hdc hq)
      · by_cases hdc : d = c
        · subst hdc
          have hplace : some (⟨pid, .exit⟩ : Child) = some ⟨pid', .exit⟩ := by
            rw [← hq]
            simp [setChild]
          obtain rfl := (Child.mk.inj (Option.some.inj hplace)).1
          simp
        · exact List.mem_append_left _ (hs.line d pid' (hother d _ hdc hq))
      · obtain ⟨hcode, pid', hpid, hline⟩ := hs.exited d code hd
        exact ⟨hcode, pid', hpid, List.mem_append_left _ hline⟩

/-! ### What the parent does -/

/-- `fork` sets the id of a child of which nothing is known. -/
theorem Told.fork (hs : s.Told) {p : ℤ} {r : Option Child} (hended : s.ended c = none)
    (hr : ∀ q, r = some q → p = q.pid ∧ q.place = .line) : ((s.setPid c p).setChild c r).Told := by
  have hchild : ∀ d q, d ≠ c → Function.update s.child c r d = some q → s.child d = some q :=
    fun d q hd hq => by rwa [Function.update_of_ne hd] at hq
  have hnew : ∀ q, Function.update s.child c r c = some q → r = some q := fun q hq => by
    rwa [Function.update_self] at hq
  refine ⟨fun d q hq => ?_, fun d q hq => ?_, fun d pid hq => ?_, fun d code hd => ?_, hs.killed⟩
  · show Function.update s.pids c p d = q.pid
    by_cases hdc : d = c
    · subst hdc
      rw [Function.update_self]
      exact (hr q (hnew q hq)).1
    · rw [Function.update_of_ne hdc]
      exact hs.pid d q (hchild d q hdc hq)
  · by_cases hdc : d = c
    · subst hdc
      rw [(hr q (hnew q hq)).2]
      exact hended
    · exact hs.ending d q (hchild d q hdc hq)
  · by_cases hdc : d = c
    · subst hdc
      have hplace := (hr _ (hnew _ hq)).2
      simp at hplace
    · exact hs.line d pid (hchild d _ hdc hq)
  · have hdc : d ≠ c := by
      rintro rfl
      rw [show ((s.setPid d p).setChild d r).ended d = none from hended] at hd
      simp at hd
    obtain ⟨hcode, pid, hpid, hline⟩ := hs.exited d code hd
    refine ⟨hcode, pid, ?_, hline⟩
    show Function.update s.pids c p d = pid
    rw [Function.update_of_ne hdc, hpid]

theorem Told.forkStep (hs : s.Told) (hknown : s.Known s.site) (pid : Option ℕ) :
    (s.forkStep pid).Told := by
  have hnone : ∀ c, s.site = .fork c → s.child c = none ∧ s.ended c = none := by
    intro c hsite
    rw [hsite] at hknown
    match c, hknown with
    | 0, ⟨hnone, _⟩ => exact hnone 0
    | 1, ⟨_, hnone, _⟩ => exact hnone
  match hsite : s.site with
  | .wait _ | .report _ | .returned =>
      simp only [Waitpid.forkStep, hsite]
      exact hs
  | .fork c =>
      obtain ⟨hchild, hended⟩ := hnone c hsite
      cases pid with
      | none =>
          have hmade := hs.fork (c := c) (p := -1) (r := none) hended fun q hq => by simp at hq
          have hsame : (s.setPid c (-1)).setChild c none = s.setPid c (-1) := by
            simp [setChild, setPid, ← hchild]
          rw [hsame] at hmade
          simp only [Waitpid.forkStep, hsite]
          exact ⟨hmade.pid, hmade.ending, hmade.line, hmade.exited, hmade.killed⟩
      | some pid =>
          have hmade := hs.fork (c := c) (p := pid) (r := some ⟨pid, .line⟩) hended fun q hq => by
            obtain rfl := Option.some.inj hq
            exact ⟨rfl, rfl⟩
          simp only [Waitpid.forkStep, hsite]
          exact ⟨hmade.pid, hmade.ending, hmade.line, hmade.exited, hmade.killed⟩

theorem Told.waitStep (hs : s.Told) (c : Option (Fin 2)) : (s.waitStep c).Told := by
  cases c with
  | none => exact hs.frame rfl (fun d q hq => hq) rfl (List.Subset.refl _)
  | some c =>
      refine hs.frame rfl (fun d q hq => ?_) rfl (List.Subset.refl _)
      by_cases hdc : d = c
      · subst hdc
        simp [Waitpid.waitStep, setChild] at hq
      · simpa [Waitpid.waitStep, setChild, hdc] using hq

theorem Told.reportStep (hs : s.Told) : s.reportStep.Told := by
  cases hsite : s.site with
  | fork c | wait c | returned =>
      simp only [Waitpid.reportStep, hsite]
      exact hs
  | report c =>
      simp only [Waitpid.reportStep, hsite]
      exact hs.frame rfl (fun d q hq => hq) rfl (List.subset_append_left _ _)

theorem Known.fork (hs : s.Known s.site) (htold : s.Told) {pid : Option ℕ}
    (ha : s.enabled (.fork pid)) : (s.forkStep pid).Known (s.forkStep pid).site := by
  match hsite : s.site, hs with
  | .wait _, _ | .report _, _ | .returned, _ =>
      cases pid <;> simp [enabled, hsite, Site.isFork] at ha
  | .fork 0, ⟨hnone, hstatus, hreports⟩ =>
      cases pid with
      | none =>
          simp only [forkStep, hsite, Site.next]
          exact ⟨Or.inl ⟨by simp [setPid], hnone 0⟩, hnone 1, hstatus, hreports⟩
      | some pid =>
          simp only [forkStep, hsite, Site.next]
          refine ⟨Or.inr (by simp [setChild]), ?_, hstatus, hreports⟩
          simpa [setChild, setPid] using hnone 1
  | .fork 1, ⟨hlive, hnone, hstatus, hreports⟩ =>
      cases pid with
      | none =>
          simp only [forkStep, hsite, Site.next]
          refine ⟨fun c => ?_, fun hpid => ?_, hstatus, hreports⟩
          · match c with
            | 0 => exact hlive.congr (by simp [setPid]) rfl rfl
            | 1 => exact Or.inl ⟨by simp [setPid], hnone⟩
          · simpa [setPid] using hpid
      | some pid =>
          obtain ⟨-, -, hfresh⟩ := ha
          simp only [forkStep, hsite, Site.next]
          refine ⟨fun c => ?_, fun hpid => ?_, hstatus, hreports⟩
          · match c with
            | 0 => exact hlive.congr (by simp [setPid, setChild]) (by simp [setChild, setPid]) rfl
            | 1 => exact Or.inr (by simp [setChild])
          · show Function.update s.pids 1 pid 0 ≠ Function.update s.pids 1 pid 1
            rw [Function.update_self, Function.update_of_ne (by decide)]
            rcases hlive with ⟨hmissing, -⟩ | hsome
            · simp [setPid, setChild, hmissing] at hpid
            · obtain ⟨q, hq⟩ := Option.isSome_iff_exists.mp hsome
              have hne := hfresh 0
              rw [hq] at hne
              rw [htold.pid 0 q hq]
              intro heq
              exact hne (congrArg some (Int.ofNat_inj.mp heq))

/-- A child that was waited for. -/
theorem Told.waited (hs : s.Told) (hend : (endStatus (s.child c)).isSome) :
    (s.waitStep (some c)).Gone c ∧ s.pids c ≠ -1 ∧
      ∃ how, s.ended c = some how ∧ (s.waitStep (some c)).status = how.status := by
  obtain ⟨how, hended, hhow, hpid⟩ := hs.ended_of hend
  refine ⟨⟨by simp [Waitpid.waitStep, setChild], ?_⟩, hpid, how, hended, ?_⟩
  · rw [show (s.waitStep (some c)).ended c = some how from hended]
    exact iff_of_false (by simp) hpid
  · show (endStatus (s.child c)).getD s.status = how.status
    rw [hhow, Option.getD_some]

theorem waitStep_child {d : Fin 2} (hd : d ≠ c) : (s.waitStep (some c)).child d = s.child d :=
  Function.update_of_ne hd _ _

/-- The first `waitpid` finds the first child, or the second where there is no first. -/
theorem Told.firstWait (hs : s.Told) (hlive : ∀ c, s.Live c)
    (hne : s.pids 0 ≠ -1 → s.pids 0 ≠ s.pids 1) (hstatus : s.status = 0) {c : Option (Fin 2)}
    (hready : s.waitReady (s.pids 0) c) :
    (s.waitStep c).HasOne ∧ (s.waitStep c).status = (s.waitStep c).firstStatus := by
  have hfirst : (s.waitStep c).firstStatus = s.firstStatus := by
    cases c <;> exact firstStatus_congr rfl
  rw [hfirst, firstStatus]
  match c, hready with
  | none, hno =>
      have hchild := hs.not_there (hno 0)
      have hpid := ((hlive 0).none_iff hs).mp hchild
      have hchild' : s.child 1 = none := by
        cases hq : s.child 1 with
        | none => rfl
        | some q =>
            refine absurd ?_ (hno 1)
            rw [hq]
            exact Or.inl hpid
      obtain ⟨hgone, hended⟩ := (hlive 0).gone hchild
      obtain ⟨hgone', hended'⟩ := (hlive 1).gone hchild'
      refine ⟨⟨hgone.congr rfl rfl rfl, ?_⟩, ?_⟩
      · show (if s.pids 0 = -1 then _ else _)
        rw [if_pos hpid]
        exact hgone'.congr rfl rfl rfl
      · rw [hended, hended']
        exact hstatus
  | some 0, ⟨_, hend⟩ =>
      obtain ⟨hgone, hpid, how, hended, hhow⟩ := hs.waited hend
      refine ⟨⟨hgone, ?_⟩, by rw [hended, hhow, Option.some_or, Option.map_some, Option.getD_some]⟩
      show (if s.pids 0 = -1 then _ else _)
      rw [if_neg hpid]
      exact (hlive 1).congr rfl (waitStep_child (by decide)) rfl
  | some 1, ⟨hnames, hend⟩ =>
      obtain ⟨hgone, -, how, hended, hhow⟩ := hs.waited hend
      -- any child was asked for
      have hpid : s.pids 0 = -1 := by
        rcases hs.names hnames with h | h
        · exact h
        · by_contra hmade
          exact hne hmade h
      obtain ⟨hzero, hnone⟩ := (hlive 0).gone (((hlive 0).none_iff hs).mpr hpid)
      refine ⟨⟨hzero.congr rfl (waitStep_child (by decide)) rfl, ?_⟩, ?_⟩
      · show (if s.pids 0 = -1 then _ else _)
        rw [if_pos hpid]
        exact hgone
      · rw [hnone, hended, hhow, Option.none_or, Option.map_some, Option.getD_some]

/-- The second finds the second child, or nobody. -/
theorem Told.secondWait (hs : s.Told) (hrest : s.HasOne) (hstatus : s.status = s.firstStatus)
    {c : Option (Fin 2)} (hready : s.waitReady (s.pids 1) c) :
    (∀ d, (s.waitStep c).Gone d) ∧ (s.waitStep c).status = (s.waitStep c).secondStatus := by
  have hsecond : (s.waitStep c).secondStatus = s.secondStatus := by
    cases c <;> exact secondStatus_congr rfl
  obtain ⟨hgone, hone⟩ := hrest
  rw [hsecond]
  match c, hready with
  | none, hno =>
      have hlast : s.Gone 1 ∧ (s.ended 0 = none ∨ s.ended 1 = none) := by
        by_cases hpid : s.pids 0 = -1
        · rw [if_pos hpid] at hone
          exact ⟨hone, Or.inl (hgone.2.mpr hpid)⟩
        · rw [if_neg hpid] at hone
          obtain ⟨hgone', hended⟩ := hone.gone (hs.not_there (hno 1))
          exact ⟨hgone', Or.inr hended⟩
      refine ⟨fun d => ?_, by rw [secondStatus_eq hlast.2]; exact hstatus⟩
      match d with
      | 0 => exact hgone.congr rfl rfl rfl
      | 1 => exact hlast.1.congr rfl rfl rfl
  | some 0, ⟨hnames, _⟩ =>
      rw [hgone.1] at hnames
      exact absurd hnames id
  | some 1, ⟨_, hend⟩ =>
      obtain ⟨hgone', -, how, hended, hhow⟩ := hs.waited hend
      refine ⟨fun d => ?_, by rw [secondStatus, hended, hhow, Option.map_some, Option.getD_some]⟩
      match d with
      | 0 => exact hgone.congr rfl (waitStep_child (by decide)) rfl
      | 1 => exact hgone'

theorem Known.wait (hs : s.Known s.site) (htold : s.Told) {c : Option (Fin 2)}
    (ha : s.enabled (.wait c)) : (s.waitStep c).Known (s.waitStep c).site := by
  have hnext : (s.waitStep c).site = s.site.next := by cases c <;> rfl
  have hpids : (s.waitStep c).pids = s.pids := by cases c <;> rfl
  have hreports' : (s.waitStep c).reports = s.reports := by cases c <;> rfl
  have hended : (s.waitStep c).ended = s.ended := by cases c <;> rfl
  rw [hnext]
  match hsite : s.site, hs with
  | .fork _, _ | .report _, _ | .returned, _ => simp [enabled, hsite, waitEnabled] at ha
  | .wait 0, ⟨hlive, hne, hstatus, hreports⟩ =>
      have hready : s.waitReady (s.pids 0) c := by simpa [enabled, hsite, waitEnabled] using ha
      obtain ⟨hrest, hfirst⟩ := htold.firstWait hlive hne hstatus hready
      exact ⟨hrest, hfirst, hreports'.trans hreports⟩
  | .wait 1, ⟨hrest, hstatus, hreports⟩ =>
      have hready : s.waitReady (s.pids 1) c := by simpa [enabled, hsite, waitEnabled] using ha
      obtain ⟨hgone, hsecond⟩ := htold.secondWait hrest hstatus hready
      exact ⟨hgone, hsecond, by rw [hreports', hpids, firstStatus_congr hended, hreports]⟩

theorem reports_append (l : List Line) (pid : ℤ) (status : ℕ) :
    (l ++ reportLines pid status).filter Line.isReport =
      l.filter Line.isReport ++ reportLines pid status := by
  rw [List.filter_append]
  congr 1
  unfold reportLines
  split <;> rfl

theorem Known.report (hs : s.Known s.site) (ha : s.enabled .report) :
    s.reportStep.Known s.reportStep.site := by
  match hsite : s.site, hs with
  | .fork _, _ | .wait _, _ | .returned, _ => simp [enabled, hsite, Site.isReport] at ha
  | .report 0, ⟨hrest, hstatus, hreports⟩ =>
      simp only [reportStep, hsite, Site.next]
      refine ⟨hrest, hstatus, ?_⟩
      show (s.cout ++ reportLines (s.pids 0) s.status).filter Line.isReport =
        reportLines (s.pids 0) s.firstStatus
      rw [reports_append, show s.cout.filter Line.isReport = [] from hreports, List.nil_append,
        hstatus]
  | .report 1, ⟨hgone, hstatus, hreports⟩ =>
      simp only [reportStep, hsite, Site.next]
      refine ⟨hgone, ?_⟩
      show (s.cout ++ reportLines (s.pids 1) s.status).filter Line.isReport =
        reportLines (s.pids 0) s.firstStatus ++ reportLines (s.pids 1) s.secondStatus
      rw [reports_append, show s.cout.filter Line.isReport = _ from hreports, hstatus]

/-- **What is known of every reachable state.** -/
theorem reachable_known (hr : machine.Reachable s) : s.Told ∧ s.Known s.site := by
  refine hr.invariant (P := fun s => s.Told ∧ s.Known s.site) ⟨?_, fun _ => ⟨rfl, rfl⟩, rfl, rfl⟩ ?_
  · exact ⟨fun c q h => by simp [machine] at h, fun c q h => by simp [machine] at h,
      fun c pid h => by simp [machine] at h, fun c code h => by simp [machine] at h,
      fun c signal core h => by simp [machine] at h⟩
  · rintro s a - ⟨htold, hs⟩ ha
    cases a with
    | fork pid => exact ⟨htold.forkStep hs pid, hs.fork htold ha⟩
    | wait c => exact ⟨htold.waitStep c, hs.wait htold ha⟩
    | report => exact ⟨htold.reportStep, hs.report ha⟩
    | child c => exact ⟨htold.childStep c, (grows_child s c).known hs⟩
    | kill c signal core =>
        obtain ⟨halive, hpos, hle⟩ := ha
        refine ⟨htold.finish halive (fun code h => by simp at h) fun n b h => ?_,
          (grows_finish halive).known hs⟩
        obtain ⟨rfl, -⟩ := Ending.killed.inj h
        exact ⟨hpos, hle⟩

/--
**What the parent says of its children.**  When it returns, every child that was made has ended and
has been waited for.  It ended by an exit with its own code, after its line, or by a signal; and
only in the first case its status is that of an exit.  What the parent has said are two statuses,
where they are those of exits.  The first is that of the first child; or of the second, where the
first was not made; or 0, where neither was.  The second is that of the second child, or the
first once more, where there was no second.
-/
theorem parent_lines (hr : machine.Reachable s) (hreturned : s.site = .returned) :
    (∀ c, s.child c = none) ∧ (∀ c, s.ended c = none ↔ s.pids c = -1) ∧
    (∀ c how, s.ended c = some how →
      (ifExited how.status ∧ how = .exited (exitCode c) ∧
        ∃ pid : ℕ, s.pids c = pid ∧ .processId pid ∈ s.cout) ∨
      (¬ ifExited how.status ∧ ∃ signal core, how = .killed signal core)) ∧
    s.cout.filter Line.isReport =
      reportLines (s.pids 0) s.firstStatus ++ reportLines (s.pids 1) s.secondStatus := by
  obtain ⟨htold, hknown⟩ := reachable_known hr
  rw [hreturned] at hknown
  obtain ⟨hgone, hreports⟩ := hknown
  refine ⟨fun c => (hgone c).1, fun c => (hgone c).2, fun c how hhow => ?_, hreports⟩
  cases how with
  | exited code =>
      obtain ⟨rfl, hline⟩ := htold.exited c code hhow
      exact Or.inl ⟨ifExited_exited _, rfl, hline⟩
  | killed signal core =>
      obtain ⟨hpos, hle⟩ := htold.killed c signal core hhow
      exact Or.inr ⟨not_ifExited_killed core hpos hle, signal, core, rfl⟩

/-- The first `fork` fails: what is said of the second child is said twice. -/
theorem parent_lines_twice : (machine.after machine.init forkFails).cout.filter Line.isReport =
    [.terminated (-1) 256, .terminated 7 256] := by
  obtain ⟨-, -, -, hreports⟩ := parent_lines (s := machine.after machine.init forkFails)
    (Machine.reachable_after (by decide)) (by decide)
  rw [hreports]
  decide

end Waitpid

end LinuxSystems
