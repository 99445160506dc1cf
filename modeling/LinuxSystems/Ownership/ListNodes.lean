/-
List nodes that are shared.

A node has a title, a `shared_ptr` to the next node and a `weak_ptr` to the previous one.
It says when it is created and when it is destroyed.  A program makes nodes, copies, moves and
drops pointers to them, and sets the way back from a node to the one before it.

The way back is set only where it is not expired.  It is expired in a new node, so that it is
expired in every node at all times, and the line that sets it is never reached.

For the pointers that count, the question is which nodes are ever destroyed.  These are all
of them exactly where no node leads back to itself at the end, and a list that is built from its
head on is destroyed from its head on.
-/
import LinuxSystems.Machine.RefCount
import LinuxSystems.Machine.Simulation

namespace LinuxSystems.ListNodes

/-- What a node prints. -/
inductive Line where
  | created (title : String)
  | destroyed (title : String)
  deriving DecidableEq

/-- The title, where the line is about a node that was created. -/
def Line.created? : Line → Option String
  | .created t => some t
  | .destroyed _ => none

/-- The title, where the line is about a node that was destroyed. -/
def Line.destroyed? : Line → Option String
  | .created _ => none
  | .destroyed t => some t

variable {ι H : Type*}

/-- A `shared_ptr<ListNode>`: a variable, or `next` of a node. -/
abbrev Pointer (ι H : Type*) := ι ⊕ H

/-- `next` is the only member that counts. -/
def layout (ι H : Type*) : Layout (Pointer ι H) H where
  owner := Sum.elim (fun _ => none) some
  members h := [.inr h]
  mem_members := by
    intro h p
    cases p with
    | inl x => simp
    | inr k => simp
  nodup h := List.nodup_singleton _

@[simp] theorem owner_inl (x : ι) : (layout ι H).owner (.inl x) = none := rfl

@[simp] theorem owner_inr (h : H) : (layout ι H).owner (.inr h) = some h := rfl

structure State (ι H : Type*) where
  nodes : RefCount (Pointer ι H) H
  title : H → String
  prev : H → Option H
  cout : List Line

inductive Action (ι H : Type*) where
  /-- `p = make_shared<ListNode>(title);` -/
  | make (p : Pointer ι H) (h : H) (title : String)
  /-- `p = q;` -/
  | assign (p q : Pointer ι H)
  /-- `p = move(q);` -/
  | move (p q : Pointer ι H)
  /-- The end of the scope of `p`. -/
  | reset (p : Pointer ι H)
  /-- A reference that `p` held is given back. -/
  | giveBack
  /-- `if (!p->prev.expired()) p->prev = q;` -/
  | back (p q : Pointer ι H)

/-- `prev.expired()` -/
def expired (s : State ι H) (h : H) : Bool :=
  match s.prev h with
  | none => true
  | some k => s.nodes.count k = 0

/-- What counting sees of an action. -/
def counts : Action ι H → Option (RefCount.Action (Pointer ι H) H)
  | .make p h _ => some (.make p h)
  | .assign p q => some (.assign p q)
  | .move p q => some (.move p q)
  | .reset p => some (.reset p)
  | .giveBack => some .giveBack
  | .back _ _ => none

def enabled (s : State ι H) : Action ι H → Prop
  | .back p q => s.nodes.pending = [] ∧ RefCount.Accessible (layout ι H) s.nodes p ∧
      RefCount.Accessible (layout ι H) s.nodes q ∧ s.nodes.target p ≠ none
  | .make p h _ => RefCount.enabled (layout ι H) s.nodes (.make p h)
  | .assign p q => RefCount.enabled (layout ι H) s.nodes (.assign p q)
  | .move p q => RefCount.enabled (layout ι H) s.nodes (.move p q)
  | .reset p => RefCount.enabled (layout ι H) s.nodes (.reset p)
  | .giveBack => RefCount.enabled (layout ι H) s.nodes .giveBack

/-- What the destructor prints, where the reference that is given back is the last one. -/
def farewell (s : State ι H) : List Line :=
  match s.nodes.pending with
  | [] => []
  | h :: _ => if s.nodes.count h = 1 then [.destroyed (s.title h)] else []

variable [DecidableEq ι] [DecidableEq H]

instance (s : State ι H) : ∀ a, Decidable (enabled s a)
  | .make p h _ => inferInstanceAs
      (Decidable (RefCount.enabled (layout ι H) s.nodes (.make p h)))
  | .assign p q => inferInstanceAs
      (Decidable (RefCount.enabled (layout ι H) s.nodes (.assign p q)))
  | .move p q => inferInstanceAs
      (Decidable (RefCount.enabled (layout ι H) s.nodes (.move p q)))
  | .reset p => inferInstanceAs (Decidable (RefCount.enabled (layout ι H) s.nodes (.reset p)))
  | .giveBack => inferInstanceAs (Decidable (RefCount.enabled (layout ι H) s.nodes .giveBack))
  | .back p q => inferInstanceAs (Decidable (s.nodes.pending = [] ∧
      RefCount.Accessible (layout ι H) s.nodes p ∧
      RefCount.Accessible (layout ι H) s.nodes q ∧ ¬ s.nodes.target p = none))

def step (s : State ι H) : Action ι H → State ι H
  | .make p h t =>
      { nodes := RefCount.step (layout ι H) s.nodes (.make p h)
        title := Function.update s.title h t
        prev := Function.update s.prev h none
        cout := s.cout ++ [.created t] }
  | .assign p q => { s with nodes := RefCount.step (layout ι H) s.nodes (.assign p q) }
  | .move p q => { s with nodes := RefCount.step (layout ι H) s.nodes (.move p q) }
  | .reset p => { s with nodes := RefCount.step (layout ι H) s.nodes (.reset p) }
  | .giveBack =>
      { s with
        nodes := RefCount.step (layout ι H) s.nodes .giveBack
        cout := s.cout ++ farewell s }
  | .back p q =>
      match s.nodes.target p with
      | none => s
      | some h =>
          if !expired s h then { s with prev := Function.update s.prev h (s.nodes.target q) }
          else s

def machine (ι H : Type*) [DecidableEq ι] [DecidableEq H] : Machine (State ι H) (Action ι H) where
  init := ⟨(RefCount.machine (layout ι H)).init, fun _ => "", fun _ => none, []⟩
  enabled := enabled
  next := step

instance (s : State ι H) (a : Action ι H) : Decidable ((machine ι H).enabled s a) :=
  inferInstanceAs (Decidable (enabled s a))

variable {s : State ι H} {a : Action ι H} {h k : H} {p : Pointer ι H}

/-- Setting the way back changes nothing else. -/
theorem step_back (s : State ι H) (p q : Pointer ι H) :
    ∃ f, step s (.back p q) = { s with prev := f } := by
  simp only [step]
  cases s.nodes.target p with
  | none => exact ⟨s.prev, rfl⟩
  | some h =>
      cases hx : expired s h with
      | false => exact ⟨_, if_pos (by simp [hx])⟩
      | true => exact ⟨s.prev, if_neg (by simp [hx])⟩

/-- An expired way back is not set. -/
theorem step_back_of_expired {q : Pointer ι H} (hs : ∀ h, s.prev h = none) :
    step s (.back p q) = s := by
  simp only [step]
  cases s.nodes.target p with
  | none => rfl
  | some h =>
      have hx : expired s h = true := by simp [expired, hs h]
      simp [hx]

theorem simulates : Machine.Simulates (machine ι H) (RefCount.machine (layout ι H)) counts
    fun s t => s.nodes = t := by
  refine ⟨rfl, ?_, ?_⟩
  · intro s t a b hb hst ha
    subst hst
    cases a with
    | back p q => cases hb
    | make p h t => cases hb; exact ⟨ha, rfl⟩
    | assign p q => cases hb; exact ⟨ha, rfl⟩
    | move p q => cases hb; exact ⟨ha, rfl⟩
    | reset p => cases hb; exact ⟨ha, rfl⟩
    | giveBack => cases hb; exact ⟨ha, rfl⟩
  · intro s t a hb hst _
    cases a with
    | back p q =>
        obtain ⟨f, hf⟩ := step_back s p q
        show (step s (.back p q)).nodes = t
        rw [hf, ← hst]
    | make p h t => cases hb
    | assign p q => cases hb
    | move p q => cases hb
    | reset p => cases hb
    | giveBack => cases hb

theorem nodes_reachable (hr : (machine ι H).Reachable s) :
    (RefCount.machine (layout ι H)).Reachable s.nodes :=
  simulates.component hr

/-! ### The way back -/

/-- No node has a way back. -/
theorem prev_eq_none (hr : (machine ι H).Reachable s) (h : H) : s.prev h = none := by
  refine hr.invariant (P := fun s => ∀ h, s.prev h = none) (fun _ => rfl) ?_ h
  intro s a _ hs _ h
  cases a with
  | make p k t =>
      show Function.update s.prev k none h = none
      by_cases hk : h = k
      · rw [hk, Function.update_self]
      · rw [Function.update_of_ne hk, hs h]
  | back p q =>
      show (step s (.back p q)).prev h = none
      rw [step_back_of_expired hs]
      exact hs h
  | assign p q => exact hs h
  | move p q => exact hs h
  | reset p => exact hs h
  | giveBack => exact hs h

/-! ### What the nodes print -/

structure Logged (s : State ι H) : Prop where
  /-- The nodes that are gone said so, in the order in which they went. -/
  gone : s.cout.filterMap Line.destroyed? = s.nodes.destroyed.map s.title
  /-- Those that were created are there, or gone. -/
  made : (s.cout.filterMap Line.created?).Perm ((s.nodes.live ++ s.nodes.destroyed).map s.title)

theorem Logged.make {t : String} (hs : Logged s) (hl : h ∉ s.nodes.live)
    (hd : h ∉ s.nodes.destroyed) : Logged (step s (.make p h t)) := by
  have hold : ∀ {l : List H}, h ∉ l → l.map (Function.update s.title h t) = l.map s.title := by
    intro l hmem
    refine List.map_congr_left fun k hk => Function.update_of_ne ?_ t s.title
    rintro rfl
    exact hmem hk
  constructor
  · show (s.cout ++ [Line.created t]).filterMap Line.destroyed? =
      s.nodes.destroyed.map (Function.update s.title h t)
    rw [List.filterMap_append, hs.gone, hold hd]
    simp [Line.destroyed?]
  · show ((s.cout ++ [Line.created t]).filterMap Line.created?).Perm
      ((h :: s.nodes.live ++ s.nodes.destroyed).map (Function.update s.title h t))
    have hmem : h ∉ s.nodes.live ++ s.nodes.destroyed := by
      rw [List.mem_append]
      exact fun hmem => hmem.elim hl hd
    rw [List.filterMap_append, List.cons_append, List.map_cons, Function.update_self, hold hmem]
    exact (List.perm_append_singleton t _).trans (hs.made.cons t)

omit [DecidableEq ι] [DecidableEq H] in
theorem farewell_cons {rest : List H} (hrest : s.nodes.pending = h :: rest) :
    farewell s = if s.nodes.count h = 1 then [.destroyed (s.title h)] else [] := by
  simp [farewell, hrest]

theorem Logged.giveBack (hs : Logged s) (hp : s.nodes.pending ≠ [])
    (hcounted : RefCount.Counted (layout ι H) s.nodes) : Logged (step s .giveBack) := by
  obtain ⟨h, rest, hrest⟩ := List.exists_cons_of_ne_nil hp
  have hmem : h ∈ s.nodes.live := hcounted.pending_live (by simp [hrest])
  have hstep : step s .giveBack = { s with
      nodes := RefCount.giveBack (layout ι H) s.nodes, cout := s.cout ++ farewell s } := rfl
  rw [hstep, RefCount.giveBack_cons hrest, farewell_cons hrest]
  by_cases hone : s.nodes.count h = 1
  · rw [if_pos hone, if_pos hone]
    constructor
    · show (s.cout ++ [Line.destroyed (s.title h)]).filterMap Line.destroyed? =
        (s.nodes.destroyed ++ [h]).map s.title
      rw [List.filterMap_append, hs.gone, List.map_append]
      rfl
    · show ((s.cout ++ [Line.destroyed (s.title h)]).filterMap Line.created?).Perm
        ((s.nodes.live.erase h ++ (s.nodes.destroyed ++ [h])).map s.title)
      have hperm : (s.nodes.live ++ s.nodes.destroyed).Perm
          (s.nodes.live.erase h ++ (s.nodes.destroyed ++ [h])) := by
        rw [← List.append_assoc]
        refine ((List.perm_cons_erase hmem).append_right _).trans ?_
        exact (List.perm_append_singleton h _).symm
      rw [List.filterMap_append]
      simp only [List.filterMap_cons, Line.created?, List.filterMap_nil, List.append_nil]
      exact hs.made.trans (hperm.map s.title)
  · rw [if_neg hone, if_neg hone]
    refine ⟨?_, ?_⟩
    · show (s.cout ++ []).filterMap Line.destroyed? = s.nodes.destroyed.map s.title
      rw [List.append_nil, hs.gone]
    · show ((s.cout ++ []).filterMap Line.created?).Perm
        ((s.nodes.live ++ s.nodes.destroyed).map s.title)
      rw [List.append_nil]
      exact hs.made

theorem reachable_logged (hr : (machine ι H).Reachable s) : Logged s := by
  refine hr.invariant (P := Logged) ⟨rfl, List.Perm.refl _⟩ ?_
  intro s a hr hs ha
  cases a with
  | make p h t => exact hs.make ha.2.2.1 ha.2.2.2
  | assign p q => exact ⟨hs.gone, hs.made⟩
  | move p q => exact ⟨hs.gone, hs.made⟩
  | reset p => exact ⟨hs.gone, hs.made⟩
  | giveBack => exact hs.giveBack ha (RefCount.reachable_counted (nodes_reachable hr))
  | back p q =>
      obtain ⟨f, hf⟩ := step_back s p q
      show Logged (step s (.back p q))
      rw [hf]
      exact ⟨hs.gone, hs.made⟩

/-- All that were created said that they were destroyed: then nothing is left. -/
theorem perm_iff (hr : (machine ι H).Reachable s) :
    (s.cout.filterMap Line.created?).Perm (s.cout.filterMap Line.destroyed?) ↔
      s.nodes.live = [] := by
  have hs := reachable_logged hr
  constructor
  · intro hperm
    have hlen := (hs.made.symm.trans hperm).length_eq
    rw [hs.gone, List.length_map, List.length_map, List.length_append] at hlen
    exact List.length_eq_zero_iff.mp (by omega)
  · intro hnil
    have hmade := hs.made
    rw [hnil, List.nil_append, ← hs.gone] at hmade
    exact hmade

/-! ### The nodes that are there -/

/--
**The pointers count.**  At all times the count of a node is the number of the variables and of the
nodes' `next` that point to it, and of the pointers to it that are just being given back.  None
points to a node that is gone, no node is destroyed twice, and the way back from a node is
expired.
-/
theorem pointers_count (hr : (machine ι H).Reachable s) :
    (∀ h, {p | s.nodes.target p = some h}.encard + (s.nodes.pending.count h : ℕ) =
      (s.nodes.count h : ℕ)) ∧
    (∀ p h, s.nodes.target p = some h → 0 < s.nodes.count h ∧ h ∉ s.nodes.destroyed) ∧
    s.nodes.destroyed.Nodup ∧ ∀ h, expired s h = true := by
  have hs := RefCount.reachable_counted (nodes_reachable hr)
  refine ⟨hs.counts, ?_, (List.nodup_append.mp hs.nodup).2.1, ?_⟩
  · intro p h htarget
    have hl := hs.target_live htarget
    exact ⟨(hs.live_iff h).mp hl, fun hd => (List.nodup_append.mp hs.nodup).2.2 h hl h hd rfl⟩
  · intro h
    simp [expired, prev_eq_none hr h]

/-- Two nodes, of which the last one's `next` is set to the head, before the scope ends. -/
def ring : List (Action Unit ℕ) :=
  [.make (.inl ()) 0 "Dune", .make (.inr 0) 1 "Jaws", .assign (.inr 1) (.inl ())]

/-- The head and the last node's `next` point to the first node. -/
theorem ring_pointers_count : {p | ((machine Unit ℕ).after (machine Unit ℕ).init
    ring).nodes.target p = some 0}.encard = 2 := by
  have hr : (machine Unit ℕ).Reachable ((machine Unit ℕ).after (machine Unit ℕ).init ring) :=
    Machine.reachable_after (by decide)
  have hcounts := (pointers_count hr).1 0
  have hrest : ((machine Unit ℕ).after (machine Unit ℕ).init ring).nodes.pending = [] := rfl
  have htwo : ((machine Unit ℕ).after (machine Unit ℕ).init ring).nodes.count 0 = 2 := rfl
  rw [hrest, htwo, List.count_nil, Nat.cast_zero, add_zero] at hcounts
  exact hcounts

example : ((machine Unit ℕ).after (machine Unit ℕ).init [.make (.inl ()) 0 "Dune",
    .make (.inr 0) 1 "Jaws", .move (.inl ()) (.inr 0), .giveBack]).cout =
    [.created "Dune", .created "Jaws", .destroyed "Dune"] := by decide

/-- `next` of `h` points to `k`. -/
def Next (s : State ι H) (h k : H) : Prop := s.nodes.target (.inr h) = some k

omit [DecidableEq ι] [DecidableEq H] in
theorem points_eq (s : State ι H) : RefCount.Points (layout ι H) s.nodes = Next s := by
  funext h k
  refine propext ⟨?_, fun hnext => ⟨.inr h, rfl, hnext⟩⟩
  intro ⟨p, howner, htarget⟩
  cases p with
  | inl x => cases howner
  | inr j => cases howner; exact htarget

omit [DecidableEq ι] [DecidableEq H] in
theorem acyclic_nodes_iff : RefCount.Acyclic (layout ι H) s.nodes ↔
    ∀ h, ¬ Relation.TransGen (Next s) h h := by
  rw [← points_eq]
  rfl

/-- Pointers that are given back, as the nodes see them. -/
theorem giveBack_run {n : ℕ}
    (hn : (RefCount.machine (layout ι H)).Legal s.nodes (List.replicate n .giveBack)) :
    (machine ι H).Legal s (List.replicate n .giveBack) ∧
      ((machine ι H).after s (List.replicate n .giveBack)).nodes =
        (RefCount.machine (layout ι H)).after s.nodes (List.replicate n .giveBack) := by
  induction n generalizing s with
  | zero => exact ⟨trivial, rfl⟩
  | succ n ih =>
      obtain ⟨hl, hnodes⟩ := ih (s := step s .giveBack) hn.2
      exact ⟨⟨hn.1, hl⟩, hnodes⟩

/--
**What is destroyed in the end.**  Once all the variables are out of scope, finitely many pointers
are given back.  Then every line about a node that was created has its line about
the same title destroyed exactly where no node leads back to itself over `next`.
-/
theorem all_destroyed_iff (hr : (machine ι H).Reachable s)
    (hdone : ∀ x, s.nodes.target (.inl x) = none) : ∃ n,
      (machine ι H).Legal s (List.replicate n .giveBack) ∧
      ((machine ι H).after s (List.replicate n .giveBack)).nodes.pending = [] ∧
      ((((machine ι H).after s (List.replicate n .giveBack)).cout.filterMap Line.created?).Perm
          (((machine ι H).after s (List.replicate n .giveBack)).cout.filterMap Line.destroyed?) ↔
        ∀ h, ¬ Relation.TransGen (Next s) h h) := by
  have hvar : ∀ p, (layout ι H).owner p = none → s.nodes.target p = none := by
    intro p howner
    cases p with
    | inl x => exact hdone x
    | inr h => cases howner
  obtain ⟨n, hn, hrest, hlive⟩ := RefCount.exists_end (nodes_reachable hr) hvar
  obtain ⟨hl, hnodes⟩ := giveBack_run hn
  refine ⟨n, hl, ?_, ?_⟩
  · rw [hnodes, hrest]
  · rw [perm_iff (hr.after hl), hnodes, hlive, acyclic_nodes_iff]

/-- Nobody can get at the two nodes of the ring any more, but they are not destroyed. -/
theorem ring_not_destroyed : ∃ n, ¬ List.Perm
    (((machine Unit ℕ).after (machine Unit ℕ).init
      (ring ++ .reset (.inl ()) :: List.replicate n .giveBack)).cout.filterMap Line.created?)
    (((machine Unit ℕ).after (machine Unit ℕ).init
      (ring ++ .reset (.inl ()) :: List.replicate n .giveBack)).cout.filterMap
        Line.destroyed?) := by
  have hr : (machine Unit ℕ).Reachable
      ((machine Unit ℕ).after (machine Unit ℕ).init (ring ++ [.reset (.inl ())])) :=
    Machine.reachable_after (by decide)
  obtain ⟨n, _, _, hiff⟩ := all_destroyed_iff hr (fun _ => rfl)
  refine ⟨n, fun hperm => hiff.mp hperm 0 (.tail (b := 1) (.single ?_) ?_)⟩
  · exact rfl
  · exact rfl

/-- No node's `next` gets a pointer to what leads to that node. -/
def Straight (s : State ι H) : Action ι H → Prop
  | .assign p q | .move p q => ∀ h, p = .inr h → ∀ k, s.nodes.target q = some k →
      ¬ Relation.ReflTransGen (Next s) k h
  | .make _ _ _ | .reset _ | .giveBack | .back _ _ => True

omit [DecidableEq ι] [DecidableEq H] in
/-- The same, as the nodes see it. -/
theorem straight_iff {q : Pointer ι H} : (∀ h ∈ (layout ι H).owner p, ∀ k ∈ s.nodes.target q,
      ¬ Relation.ReflTransGen (RefCount.Points (layout ι H) s.nodes) k h) ↔
    ∀ h, p = .inr h → ∀ k, s.nodes.target q = some k → ¬ Relation.ReflTransGen (Next s) k h := by
  rw [points_eq]
  cases p with
  | inl x => simp
  | inr h => simp

/--
**Where cycles come from.**  At no time of a run does a node lead back to itself over `next`
exactly where no assignment and no move of the run let the `next` of a node point to what led to
that node.
-/
theorem acyclic_iff {tr : List (Action ι H)} (hl : (machine ι H).Legal (machine ι H).init tr) :
    (∀ pre, pre <+: tr → ∀ h,
        ¬ Relation.TransGen (Next ((machine ι H).after (machine ι H).init pre)) h h) ↔
      ((machine ι H).restrict Straight).Legal (machine ι H).init tr := by
  simp only [← acyclic_nodes_iff]
  refine Machine.always_iff (P := fun s => RefCount.Acyclic (layout ι H) s.nodes)
    RefCount.acyclic_init ?_ hl
  intro s a hr ha hs
  have hcounted := RefCount.reachable_counted (nodes_reachable hr)
  cases a with
  | make p h t => exact RefCount.acyclic_step_iff hcounted (a := .make p h) ha hs
  | assign p q =>
      exact (RefCount.acyclic_step_iff hcounted (a := .assign p q) ha hs).trans straight_iff
  | move p q => exact (RefCount.acyclic_step_iff hcounted (a := .move p q) ha hs).trans straight_iff
  | reset p => exact RefCount.acyclic_step_iff hcounted (a := .reset p) ha hs
  | giveBack => exact RefCount.acyclic_step_iff hcounted (a := .giveBack) ha hs
  | back p q =>
      obtain ⟨f, hf⟩ := step_back s p q
      refine iff_of_true ?_ trivial
      show RefCount.Acyclic (layout ι H) (step s (.back p q)).nodes
      rw [hf]
      exact hs

theorem ring_acyclic_iff :
    ¬ ((machine Unit ℕ).restrict Straight).Legal (machine Unit ℕ).init ring := by
  have hl : (machine Unit ℕ).Legal (machine Unit ℕ).init ring := by decide
  intro hstraight
  have hnone := (acyclic_iff hl).mpr hstraight ring List.prefix_rfl 0
  refine hnone (.tail (b := 1) (.single ?_) ?_)
  · exact rfl
  · exact rfl

/-! ### A list from its head on -/

/-- `p->next = make_shared<ListNode>(title); if (!p->next->prev.expired()) p->next->prev = p;`
for one title after the other, where `p` points to the node `n`. -/
def append (p : Pointer ι ℕ) (n : ℕ) : List String → List (Action ι ℕ)
  | [] => []
  | t :: ts => .make (.inr n) (n + 1) t :: .back (.inr n) p :: append (.inr n) (n + 1) ts

/-- `head = make_shared<ListNode>(title);`, the other nodes behind it, and the end of the
scope. -/
def list (head : ι) (t : String) (ts : List String) : List (Action ι ℕ) :=
  .make (.inl head) 0 t :: append (.inl head) 0 ts ++
    .reset (.inl head) :: List.replicate (ts.length + 1) .giveBack

/-- `main` -/
def main : List (Action Unit ℕ) := list () "Dune" ["Jaws"]

example : ((machine Unit ℕ).after (machine Unit ℕ).init main).cout =
    [.created "Dune", .created "Jaws", .destroyed "Dune", .destroyed "Jaws"] := by decide

/-- The nodes from `head` to `n`, with these titles. -/
structure Built (head : ι) (n : ℕ) (ts : List String) (s : State ι ℕ) : Prop where
  pending : s.nodes.pending = []
  head_eq : s.nodes.target (.inl head) = some 0
  next_eq : ∀ i, s.nodes.target (.inr i) = if i < n then some (i + 1) else none
  count_eq : ∀ i, s.nodes.count i = if i ≤ n then 1 else 0
  live_iff : ∀ i, i ∈ s.nodes.live ↔ i ≤ n
  destroyed : s.nodes.destroyed = []
  prev : ∀ i, s.prev i = none
  title : (List.range (n + 1)).map s.title = ts
  cout : s.cout = ts.map .created

theorem Built.make {head : ι} {n : ℕ} {t : String} {ts : List String} {s : State ι ℕ}
    (hs : Built head n ts s) : enabled s (.make (.inr n) (n + 1) t) ∧
      Built head (n + 1) (ts ++ [t]) (step s (.make (.inr n) (n + 1) t)) := by
  have hn : s.nodes.target (.inr n) = none := by simp [hs.next_eq]
  refine ⟨⟨hs.pending, ?_, ?_, ?_⟩, ?_⟩
  · intro h hh
    obtain rfl : n = h := Option.some.inj hh
    exact (hs.live_iff n).mpr le_rfl
  · simp [hs.live_iff]
  · simp [hs.destroyed]
  · refine ⟨?_, ?_, ?_, ?_, ?_, hs.destroyed, ?_, ?_, ?_⟩
    · show (s.nodes.target (.inr n)).toList ++ s.nodes.pending = []
      rw [hn, hs.pending]
      rfl
    · show Function.update s.nodes.target (.inr n) (some (n + 1)) (.inl head) = some 0
      rw [Function.update_of_ne Sum.inl_ne_inr, hs.head_eq]
    · intro i
      show Function.update s.nodes.target (.inr n) (some (n + 1)) (.inr i) = _
      by_cases hi : i = n
      · simp [hi]
      · have hlt : i < n + 1 ↔ i < n := by omega
        rw [Function.update_of_ne (Sum.inr_injective.ne hi), hs.next_eq i]
        simp only [hlt]
    · intro i
      show s.nodes.count i + [n + 1].count i = if i ≤ n + 1 then 1 else 0
      by_cases hi : i = n + 1
      · simp [hi, hs.count_eq]
      · have hle : i ≤ n + 1 ↔ i ≤ n := by omega
        rw [hs.count_eq i, List.count_eq_zero.mpr (by simpa using hi)]
        simp only [hle, add_zero]
    · intro i
      show i ∈ (n + 1) :: s.nodes.live ↔ i ≤ n + 1
      rw [List.mem_cons, hs.live_iff i]
      omega
    · intro i
      show Function.update s.prev (n + 1) none i = none
      by_cases hi : i = n + 1
      · simp [hi]
      · rw [Function.update_of_ne hi, hs.prev i]
    · show (List.range (n + 1 + 1)).map (Function.update s.title (n + 1) t) = ts ++ [t]
      have hold : (List.range (n + 1)).map (Function.update s.title (n + 1) t) = ts := by
        rw [← hs.title]
        refine List.map_congr_left fun i hi => Function.update_of_ne ?_ t s.title
        have hlt := List.mem_range.mp hi
        omega
      rw [List.range_succ, List.map_append, hold]
      simp
    · show s.cout ++ [.created t] = (ts ++ [t]).map .created
      rw [hs.cout, List.map_append]
      rfl

theorem Built.append {head : ι} {n : ℕ} {p : Pointer ι ℕ} {ts : List String} {s : State ι ℕ}
    (hs : Built head n ts s) (hp : ∀ i, (layout ι ℕ).owner p = some i → i ≤ n)
    (more : List String) : (machine ι ℕ).Legal s (append p n more) ∧
      Built head (n + more.length) (ts ++ more) ((machine ι ℕ).after s (append p n more)) := by
  induction more generalizing p n ts s with
  | nil =>
      refine ⟨trivial, ?_⟩
      show Built head (n + 0) (ts ++ []) s
      rw [Nat.add_zero, List.append_nil]
      exact hs
  | cons t more ih =>
      obtain ⟨hen, hmade⟩ := hs.make (t := t)
      have hback : step (step s (.make (.inr n) (n + 1) t)) (.back (.inr n) p) =
          step s (.make (.inr n) (n + 1) t) := step_back_of_expired hmade.prev
      have henb : enabled (step s (.make (.inr n) (n + 1) t)) (.back (.inr n) p) := by
        refine ⟨hmade.pending, ?_, ?_, by simp [hmade.next_eq]⟩
        · intro i hi
          obtain rfl : n = i := Option.some.inj hi
          exact (hmade.live_iff n).mpr (Nat.le_succ n)
        · intro i hi
          exact (hmade.live_iff i).mpr ((hp i hi).trans (Nat.le_succ n))
      have hp' : ∀ i, (layout ι ℕ).owner (.inr n : Pointer ι ℕ) = some i → i ≤ n + 1 := by
        intro i hi
        obtain rfl : n = i := Option.some.inj hi
        exact Nat.le_succ n
      obtain ⟨hl, hend⟩ := ih hmade hp'
      have hlen : n + (t :: more).length = n + 1 + more.length := by
        rw [List.length_cons]
        omega
      refine ⟨⟨hen, henb, ?_⟩, ?_⟩
      · show (machine ι ℕ).Legal (step (step s (.make (.inr n) (n + 1) t)) (.back (.inr n) p)) _
        rw [hback]
        exact hl
      · rw [hlen, List.append_cons ts t more]
        show Built head _ _ ((machine ι ℕ).after
          (step (step s (.make (.inr n) (n + 1) t)) (.back (.inr n) p)) _)
        rw [hback]
        exact hend

omit [DecidableEq ι] in
theorem clear_inr [DecidableEq (Pointer ι H)] (t : Pointer ι H → Option H) (h k : H) :
    RefCount.clear (layout ι H) h t (.inr k) = if k = h then none else t (.inr k) := by
  simp [RefCount.clear, layout]

/-- The nodes from `n` on go one after the other, each when the one before it is gone. -/
theorem giveBack_chain {m n : ℕ} {s : State ι ℕ}
    (hpending : s.nodes.pending = if m = 0 then [] else [n])
    (hcount : ∀ i, n ≤ i → i < n + m → s.nodes.count i = 1)
    (hnext : ∀ i, n ≤ i → i < n + m →
      s.nodes.target (.inr i) = if i + 1 < n + m then some (i + 1) else none) :
    (machine ι ℕ).Legal s (List.replicate m .giveBack) ∧
      ((machine ι ℕ).after s (List.replicate m .giveBack)).cout =
        s.cout ++ ((List.range' n m).map s.title).map .destroyed := by
  induction m generalizing n s with
  | zero => exact ⟨trivial, by simp⟩
  | succ m ih =>
      have hrest : s.nodes.pending = [n] := by simpa using hpending
      have hone : s.nodes.count n = 1 := hcount n le_rfl (by omega)
      have hstep : step s .giveBack = { s with
          nodes := RefCount.destroy (layout ι ℕ) n { s.nodes with pending := [] }
          cout := s.cout ++ [.destroyed (s.title n)] } := by
        show { s with nodes := RefCount.giveBack (layout ι ℕ) s.nodes
                      cout := s.cout ++ farewell s } = _
        rw [RefCount.giveBack_cons hrest, farewell_cons hrest, if_pos hone, if_pos hone]
      have hgone := ih (s := step s .giveBack) (n := n + 1) ?_ ?_ ?_
      · obtain ⟨hl, hcout⟩ := hgone
        refine ⟨⟨by simp [machine, enabled, RefCount.enabled, hrest], hl⟩, ?_⟩
        show ((machine ι ℕ).after (step s .giveBack) (List.replicate m .giveBack)).cout = _
        rw [hcout, hstep, List.range'_succ]
        simp
      · rw [hstep]
        show (([.inr n] : List (Pointer ι ℕ)).filterMap s.nodes.target ++ []) = _
        have hn := hnext n le_rfl (by omega)
        by_cases hm : m = 0
        · simp [hn, hm]
        · have hlt : n + 1 < n + (m + 1) := by omega
          simp [hn, hlt, hm]
      · intro i hi hlt
        rw [hstep]
        show Function.update s.nodes.count n 0 i = 1
        rw [Function.update_of_ne (by omega)]
        exact hcount i (by omega) (by omega)
      · intro i hi hlt
        have hin : i ≠ n := by omega
        have hiff : i + 1 < n + (m + 1) ↔ i + 1 < n + 1 + m := by omega
        rw [hstep]
        show RefCount.clear (layout ι ℕ) n s.nodes.target (.inr i) = _
        rw [clear_inr, if_neg hin, hnext i (by omega) (by omega)]
        simp only [hiff]

theorem built_init (head : ι) (t : String) :
    enabled (machine ι ℕ).init (.make (.inl head) 0 t) ∧
      Built head 0 [t] (step (machine ι ℕ).init (.make (.inl head) 0 t)) := by
  constructor
  · refine ⟨rfl, fun h hh => ?_, List.not_mem_nil, List.not_mem_nil⟩
    cases hh
  · refine ⟨rfl, ?_, ?_, ?_, ?_, rfl, ?_, ?_, rfl⟩
    · show Function.update (fun _ => none) (Sum.inl head : Pointer ι ℕ) (some 0) (.inl head) =
        some 0
      exact Function.update_self _ _ _
    · intro i
      show Function.update (fun _ => none) (Sum.inl head : Pointer ι ℕ) (some 0) (.inr i) = none
      exact Function.update_of_ne Sum.inr_ne_inl _ _
    · intro i
      show 0 + [0].count i = if i ≤ 0 then 1 else 0
      by_cases hi : i = 0
      · simp [hi]
      · simp [hi, Ne.symm hi]
    · intro i
      show i ∈ [0] ↔ i ≤ 0
      simp
    · intro i
      show Function.update (fun _ => none) 0 none i = none
      rw [Function.update_eq_self_iff.mpr rfl]
    · show [Function.update (fun _ => "") 0 t 0] = [t]
      rw [Function.update_self]

/-- The end of the scope of `head`. -/
theorem Built.lines {head : ι} {n : ℕ} {ts : List String} {s : State ι ℕ}
    (hs : Built head n ts s) :
    (machine ι ℕ).Legal s (.reset (.inl head) :: List.replicate (n + 1) .giveBack) ∧
      ((machine ι ℕ).after s (.reset (.inl head) :: List.replicate (n + 1) .giveBack)).cout =
        ts.map .created ++ ts.map .destroyed := by
  have hreset : enabled s (.reset (.inl head)) := by
    refine ⟨hs.pending, fun h hh => ?_⟩
    cases hh
  have hchain := giveBack_chain (m := n + 1) (n := 0) (s := step s (.reset (.inl head))) ?_ ?_ ?_
  · obtain ⟨hgone, hcout⟩ := hchain
    refine ⟨⟨hreset, hgone⟩, ?_⟩
    show ((machine ι ℕ).after (step s (.reset (.inl head))) _).cout = _
    rw [hcout, ← List.range_eq_range']
    show s.cout ++ ((List.range (n + 1)).map s.title).map .destroyed = _
    rw [hs.cout, hs.title]
  · show (s.nodes.target (.inl head)).toList ++ s.nodes.pending = _
    rw [hs.head_eq, hs.pending]
    rfl
  · intro i _ hi
    show s.nodes.count i + 0 = 1
    rw [hs.count_eq i, if_pos (by omega)]
  · intro i _ _
    have hiff : i < n ↔ i + 1 < 0 + (n + 1) := by omega
    show Function.update s.nodes.target (.inl head) none (.inr i) = _
    rw [Function.update_of_ne Sum.inr_ne_inl, hs.next_eq i]
    simp only [hiff]

/--
**A list from its head on.**  A list of any length that is built as `main` builds its two
nodes says of each node, in order, that it was created, and of each node, in the same order,
that it was destroyed.
-/
theorem list_lines (head : ι) (t : String) (ts : List String) :
    (machine ι ℕ).Legal (machine ι ℕ).init (list head t ts) ∧
      ((machine ι ℕ).after (machine ι ℕ).init (list head t ts)).cout =
        (t :: ts).map .created ++ (t :: ts).map .destroyed := by
  obtain ⟨hen, hfirst⟩ := built_init head t
  have hhead : ∀ i, (layout ι ℕ).owner (.inl head : Pointer ι ℕ) = some i → i ≤ 0 := by
    intro i hi
    cases hi
  obtain ⟨hl, hbuilt⟩ := hfirst.append hhead ts
  rw [Nat.zero_add] at hbuilt
  obtain ⟨hend, hcout⟩ := hbuilt.lines
  unfold list
  rw [Machine.legal_append, Machine.after_append]
  exact ⟨⟨⟨hen, hl⟩, hend⟩, hcout⟩

end LinuxSystems.ListNodes
