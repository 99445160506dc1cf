/-
The line of the child of `anonymous_pipe_example.cpp`.

It prints the message, as far as it fits into its buffer, or nothing at all, and the latter
only if the parent was killed before it wrote.
-/
import LinuxSystems.AnonymousPipe.Model

namespace LinuxSystems

namespace AnonymousPipe

variable {msg : Message} {s : AnonymousPipe} {a : Action}

/-! ### What the child prints -/

/-- A C string ends before the zeros behind it. -/
theorem cString_append {l zeros : List UInt8} (hl : 0 ∉ l) (hzeros : ∀ x ∈ zeros, x = 0) :
    Buffer.cString (l ++ zeros) = l := by
  have hpos : ∀ x ∈ l, decide (x ≠ 0) = true := by
    intro x hx
    have hne : x ≠ 0 := by
      rintro rfl
      exact hl hx
    simpa using hne
  unfold Buffer.cString
  rw [List.takeWhile_append_of_pos hpos, List.takeWhile_eq_nil_iff.mpr, List.append_nil]
  intro hlen
  have hzero := hzeros _ (List.getElem_mem hlen)
  simp [hzero]

/-- The message and its terminator, as far as they fit into the buffer. -/
theorem cString_buff_message (hbytes : s.ends.bytes = msg.text ++ [0]) :
    Buffer.cString s.buff = msg.text.take buffLen := by
  have hsplit : s.buff = msg.text.take buffLen ++ ([0].take (buffLen - msg.text.length) ++
      (List.replicate (buffLen + 1) 0).drop (s.ends.bytes.take buffLen).length) := by
    rw [buff, Buffer.receive, hbytes, List.take_append, List.append_assoc]
  rw [hsplit]
  refine cString_append (fun hmem => msg.noZero (List.mem_of_mem_take hmem)) fun x hx => ?_
  rcases List.mem_append.mp hx with hx | hx
  · simpa using List.mem_of_mem_take hx
  · exact List.eq_of_mem_replicate (List.mem_of_mem_drop hx)

/-- Nothing was read: the buffer is still empty. -/
theorem cString_buff_nil (hbytes : s.ends.bytes = []) : Buffer.cString s.buff = [] := by
  rw [buff, Buffer.receive, hbytes]
  rfl

/-! ### Who holds what -/

def ParentSite.reads : ParentSite → Bool
  | .fork | .closeIn => true
  | .pipe | .write | .leave | .ended _ => false

def ParentSite.writes : ParentSite → Bool
  | .fork | .closeIn | .write | .leave => true
  | .pipe | .ended _ => false

def ChildSite.writes : ChildSite → Bool
  | .closeOut => true
  | .absent | .read | .print _ | .leave | .ended _ => false

/-- The child has not come to its `read`. -/
def ChildSite.early : ChildSite → Bool
  | .absent | .closeOut | .read => true
  | .print _ | .leave | .ended _ => false

/-- The child has come past its `read`, and was not killed before. -/
def ChildSite.late : ChildSite → Bool
  | .print _ | .leave | .ended .success => true
  | .absent | .closeOut | .read | .ended _ => false

/-- What the child got is the message, or nothing because the parent was killed. -/
def Got (msg : Message) (s : AnonymousPipe) (text : List UInt8) : Prop :=
  (s.wrote = true ∧ text = msg.text.take buffLen) ∨
    (s.wrote = false ∧ text = [] ∧ s.parent = .ended .killed)

structure Stands (msg : Message) (s : AnonymousPipe) : Prop where
  parentReads : s.ends.reads .parent = s.parent.reads
  parentWrites : s.ends.writes .parent = s.parent.writes
  childReads : s.ends.reads .child = s.child.alive
  childWrites : s.ends.writes .child = s.child.writes
  forked : s.child = .absent ∨ s.parent ≠ .pipe ∧ s.parent ≠ .fork
  unforked : s.child = .absent → s.parent = .pipe ∨ s.parent = .fork ∨ s.parent.isEnded = true
  /-- The parent writes before it leaves. -/
  wrote : s.parent = .leave → s.wrote = true
  early : s.wrote = true → s.parent = .leave ∨ s.parent.isEnded = true
  /-- A parent that has not written is gone because it was killed, or because there is no child. -/
  quit : ∀ e, s.parent = .ended e → s.wrote = false →
    e = .killed ∨ s.child = .absent ∨ s.child = .ended .killed
  sigpipe : s.parent = .ended .sigpipe → s.child = .ended .killed
  unread : s.child.early = true → s.ends.bytes = if s.wrote then msg.text ++ [0] else []
  /-- The child reads when there is something to read, or there never will be. -/
  late : s.child.late = true → s.wrote = true ∨ s.parent = .ended .killed
  print : ∀ text, s.child = .print text → Got msg s text
  line : ∀ text, s.line = some text → Got msg s text
  childEnd : ∀ e, s.child = .ended e → e = .killed ∨ e = .success

namespace Stands

theorem parent_ne (hsite : s.parent.isEnded = false) (e : Exit) : s.parent ≠ .ended e := by
  rintro he
  simp [he, ParentSite.isEnded] at hsite

/-- What was got before the parent ends stays what it is. -/
theorem got (hsite : s.parent.isEnded = false) {s' : AnonymousPipe} {text : List UInt8}
    (hgot : Got msg s text) (hwrote : s.wrote = true → s'.wrote = true) : Got msg s' text := by
  rcases hgot with ⟨hw, htext⟩ | ⟨_, _, hkilled⟩
  · exact Or.inl ⟨hwrote hw, htext⟩
  · exact absurd hkilled (parent_ne hsite _)

/-- The parent ends, and holds nothing any more. -/
theorem parentEnds {e : Exit} (hs : Stands msg s) (hsite : s.parent.isEnded = false)
    (hwrote : s.parent = .leave ∨ e = .killed ∨ s.child = .absent ∨ s.child = .ended .killed)
    (hpipe : e = .sigpipe → s.child = .ended .killed) : Stands msg (s.parentEnds e) :=
  { hs with
    parentReads := by simp [AnonymousPipe.parentEnds, ParentSite.reads]
    parentWrites := by simp [AnonymousPipe.parentEnds, ParentSite.writes]
    childReads := by simpa [AnonymousPipe.parentEnds] using hs.childReads
    childWrites := by simpa [AnonymousPipe.parentEnds] using hs.childWrites
    forked := Or.inr (by simp [AnonymousPipe.parentEnds])
    unforked := fun _ => Or.inr (Or.inr rfl)
    wrote := fun h => by simp [AnonymousPipe.parentEnds] at h
    early := fun _ => Or.inr rfl
    quit := fun e' he' hw => by
      obtain rfl : e = e' := by simpa [AnonymousPipe.parentEnds] using he'
      refine hwrote.resolve_left fun hleave => ?_
      have hw' : s.wrote = false := hw
      simp [hs.wrote hleave] at hw'
    sigpipe := fun h => hpipe (by simpa [AnonymousPipe.parentEnds] using h)
    late := fun hl => Or.inl ((hs.late hl).resolve_right (parent_ne hsite _))
    print := fun text h => got hsite (hs.print text h) id
    line := fun text h => got hsite (hs.line text h) id }

/-- The child ends, and holds nothing any more. -/
theorem childEnds {e : Exit} (hs : Stands msg s) (hsite : s.child.alive = true)
    (he : e = .killed ∨ e = .success ∧ s.child.late = true) : Stands msg (s.childEnds e) := by
  have hforked := hs.forked.resolve_left (by rintro h; simp [h, ChildSite.alive] at hsite)
  exact { hs with
    parentReads := by simpa [AnonymousPipe.childEnds] using hs.parentReads
    parentWrites := by simpa [AnonymousPipe.childEnds] using hs.parentWrites
    childReads := by simp [AnonymousPipe.childEnds, ChildSite.alive]
    childWrites := by simp [AnonymousPipe.childEnds, ChildSite.writes]
    forked := Or.inr hforked
    unforked := fun h => by simp [AnonymousPipe.childEnds] at h
    quit := fun e' he' hw => by
      rcases hs.quit e' he' hw with h | h | h
      · exact Or.inl h
      · simp [h, ChildSite.alive] at hsite
      · simp [h, ChildSite.alive] at hsite
    sigpipe := fun h => by
      have hkilled := hs.sigpipe h
      simp [hkilled, ChildSite.alive] at hsite
    unread := fun h => by simp [AnonymousPipe.childEnds, ChildSite.early] at h
    late := fun hl => by
      rcases he with rfl | ⟨_, hlate⟩
      · simp [AnonymousPipe.childEnds, ChildSite.late] at hl
      · exact hs.late hlate
    print := fun text h => by simp [AnonymousPipe.childEnds] at h
    childEnd := fun e' h => by
      obtain rfl : e = e' := by simpa [AnonymousPipe.childEnds] using h
      exact he.imp_right And.left }

theorem parentStep {ok : Bool} (hs : Stands msg s) (ha : s.enabled (.parent ok)) :
    Stands msg (s.parentStep msg ok) := by
  have hsite : s.parent.isEnded = false := ha
  cases hp : s.parent with
  | pipe =>
      have habsent : s.child = .absent := hs.forked.resolve_right fun h => h.1 hp
      cases ok with
      | false =>
          simp only [AnonymousPipe.parentStep, hp]
          exact hs.parentEnds hsite (Or.inr (Or.inr (Or.inl habsent))) (by simp)
      | true =>
          have hw : s.wrote = false := by
            by_contra hw
            simpa [hp, ParentSite.isEnded] using hs.early (by simpa using hw)
          simp only [AnonymousPipe.parentStep, hp, if_true]
          exact { hs with
            parentReads := by simp [PipeEnds.create, ParentSite.reads]
            parentWrites := by simp [PipeEnds.create, ParentSite.writes]
            childReads := by simp [PipeEnds.create, habsent, ChildSite.alive]
            childWrites := by simp [PipeEnds.create, habsent, ChildSite.writes]
            forked := Or.inl habsent
            unforked := fun _ => Or.inr (Or.inl rfl)
            wrote := fun h => by simp at h
            early := fun h => by simp [hw] at h
            quit := fun e h => by simp at h
            sigpipe := fun h => by simp at h
            unread := fun _ => by simp [PipeEnds.create, hw]
            late := fun h => by simp [habsent, ChildSite.late] at h
            print := fun text h => by simp [habsent] at h
            line := fun text h => got hsite (hs.line text h) id }
  | fork =>
      have habsent : s.child = .absent := hs.forked.resolve_right fun h => h.2 hp
      cases ok with
      | false =>
          simp only [AnonymousPipe.parentStep, hp]
          exact hs.parentEnds hsite (Or.inr (Or.inr (Or.inl habsent))) (by simp)
      | true =>
          have hreads : s.ends.reads .parent = true := by rw [hs.parentReads, hp]; rfl
          have hwrites : s.ends.writes .parent = true := by rw [hs.parentWrites, hp]; rfl
          simp only [AnonymousPipe.parentStep, hp, if_true]
          exact { hs with
            parentReads := by simp [hreads, ParentSite.reads]
            parentWrites := by simp [hwrites, ParentSite.writes]
            childReads := by simp [hreads, ChildSite.alive]
            childWrites := by simp [hwrites, ChildSite.writes]
            forked := Or.inr (by simp)
            unforked := fun h => by simp at h
            wrote := fun h => by simp at h
            early := fun h => by simpa [hp, ParentSite.isEnded] using hs.early h
            quit := fun e h => by simp at h
            sigpipe := fun h => by simp at h
            unread := fun _ => hs.unread (by rw [habsent]; rfl)
            late := fun h => by simp [ChildSite.late] at h
            print := fun text h => by simp at h
            line := fun text h => got hsite (hs.line text h) id
            childEnd := fun e h => by simp at h }
  | closeIn =>
      simp only [AnonymousPipe.parentStep, hp]
      exact { hs with
        parentReads := by simp [ParentSite.reads]
        parentWrites := by simpa [hp, ParentSite.writes] using hs.parentWrites
        childReads := by simpa using hs.childReads
        childWrites := by simpa using hs.childWrites
        forked := Or.inr (by simp)
        unforked := fun h => by simpa [hp, ParentSite.isEnded] using hs.unforked h
        wrote := fun h => by simp at h
        early := fun h => by simpa [hp, ParentSite.isEnded] using hs.early h
        quit := fun e h => by simp at h
        sigpipe := fun h => by simp at h
        late := fun hl => Or.inl ((hs.late hl).resolve_right (parent_ne hsite _))
        print := fun text h => got hsite (hs.print text h) id
        line := fun text h => got hsite (hs.line text h) id }
  | write =>
      have hpresent : s.child ≠ .absent := fun h => by
        simpa [hp, ParentSite.isEnded] using hs.unforked h
      have hw : s.wrote = false := by
        by_contra hw
        simpa [hp, ParentSite.isEnded] using hs.early (by simpa using hw)
      simp only [AnonymousPipe.parentStep, hp]
      by_cases hbroken : s.ends.Broken
      · have hdead : s.child.alive = false := by rw [← hs.childReads, hbroken .child]
        -- a child that ended by itself would have read before
        have hkilled : s.child = .ended .killed := by
          have hlate : s.child.late = false := by
            by_contra hl
            simpa [hw, hp] using hs.late (by simpa using hl)
          cases hc : s.child with
          | ended e =>
              rcases hs.childEnd e hc with rfl | rfl
              · rfl
              · simp [hc, ChildSite.late] at hlate
          | absent => exact absurd hc hpresent
          | closeOut | read | print _ | leave => simp [hc, ChildSite.alive] at hdead
        rw [if_pos hbroken]
        exact hs.parentEnds hsite (Or.inr (Or.inr (Or.inr hkilled))) fun _ => hkilled
      · rw [if_neg hbroken]
        exact { hs with
          parentReads := by simpa [hp, ParentSite.reads] using hs.parentReads
          parentWrites := by simpa [hp, ParentSite.writes] using hs.parentWrites
          childReads := by simpa using hs.childReads
          childWrites := by simpa using hs.childWrites
          forked := Or.inr (by simp)
          unforked := fun h => absurd h hpresent
          wrote := fun _ => rfl
          early := fun _ => Or.inl rfl
          quit := fun e h => by simp at h
          sigpipe := fun h => by simp at h
          unread := fun h => by simp [hs.unread h, hw]
          late := fun _ => Or.inl rfl
          print := fun text h => got hsite (hs.print text h) fun _ => rfl
          line := fun text h => got hsite (hs.line text h) fun _ => rfl }
  | leave =>
      simp only [AnonymousPipe.parentStep, hp]
      exact hs.parentEnds hsite (Or.inl hp) (by simp)
  | ended e => exact absurd hp (parent_ne hsite e)

theorem childStep (hs : Stands msg s) (ha : s.enabled .child) : Stands msg s.childStep := by
  have hmoves : ∀ {e : Exit}, s.child.alive = true → s.parent = .ended e → s.wrote = false →
      e = .killed := by
    intro e halive he hw
    rcases hs.quit e he hw with h | h | h
    · exact h
    · simp [h, ChildSite.alive] at halive
    · simp [h, ChildSite.alive] at halive
  cases hc : s.child with
  | closeOut =>
      have hforked := hs.forked.resolve_left (by simp [hc])
      simp only [AnonymousPipe.childStep, hc]
      exact { hs with
        parentReads := by simpa using hs.parentReads
        parentWrites := by simpa using hs.parentWrites
        childReads := by simpa [hc, ChildSite.alive] using hs.childReads
        childWrites := by simp [ChildSite.writes]
        forked := Or.inr hforked
        unforked := fun h => by simp at h
        quit := fun e he hw => Or.inl (hmoves (by rw [hc]; rfl) he hw)
        sigpipe := fun h => absurd (hs.sigpipe h) (by simp [hc])
        unread := fun _ => hs.unread (by rw [hc]; rfl)
        late := fun h => by simp [ChildSite.late] at h
        print := fun text h => by simp at h
        childEnd := fun e h => by simp at h }
  | read =>
      have hforked := hs.forked.resolve_left (by simp [hc])
      have hbytes := hs.unread (by rw [hc]; rfl)
      -- the file has ended only if the parent was killed
      have hkilled : s.wrote = false → s.parent = .ended .killed := by
        intro hw
        have hready : s.ends.Readable := by simpa [enabled, hc, childReady] using ha
        have hnone := hready.resolve_left (by simp [hbytes, hw]) .parent
        rw [hs.parentWrites] at hnone
        cases hp : s.parent with
        | ended e => rw [hmoves (by rw [hc]; rfl) hp hw]
        | pipe => exact absurd hp hforked.1
        | fork | closeIn | write | leave => simp [hp, ParentSite.writes] at hnone
      have hgot : Got msg s (Buffer.cString s.buff) := by
        cases hw : s.wrote with
        | true =>
            rw [hw, if_pos rfl] at hbytes
            exact Or.inl ⟨hw, cString_buff_message hbytes⟩
        | false =>
            rw [hw, if_neg (by simp)] at hbytes
            exact Or.inr ⟨hw, cString_buff_nil hbytes, hkilled hw⟩
      simp only [AnonymousPipe.childStep, hc]
      exact { hs with
        parentReads := by simpa using hs.parentReads
        parentWrites := by simpa using hs.parentWrites
        childReads := by simpa [hc, ChildSite.alive] using hs.childReads
        childWrites := by simpa [hc, ChildSite.writes] using hs.childWrites
        forked := Or.inr hforked
        unforked := fun h => by simp at h
        quit := fun e he hw => Or.inl (hmoves (by rw [hc]; rfl) he hw)
        sigpipe := fun h => absurd (hs.sigpipe h) (by simp [hc])
        unread := fun h => by simp [ChildSite.early] at h
        late := fun _ => by
          rcases hgot with ⟨hw, _⟩ | ⟨_, _, hp⟩
          · exact Or.inl hw
          · exact Or.inr hp
        print := fun text h => by
          obtain rfl : Buffer.cString s.buff = text := by simpa using h
          exact hgot
        childEnd := fun e h => by simp at h }
  | print text =>
      have hforked := hs.forked.resolve_left (by simp [hc])
      simp only [AnonymousPipe.childStep, hc]
      exact { hs with
        childReads := by simpa [hc, ChildSite.alive] using hs.childReads
        childWrites := by simpa [hc, ChildSite.writes] using hs.childWrites
        forked := Or.inr hforked
        unforked := fun h => by simp at h
        quit := fun e he hw => Or.inl (hmoves (by rw [hc]; rfl) he hw)
        sigpipe := fun h => absurd (hs.sigpipe h) (by simp [hc])
        unread := fun h => by simp [ChildSite.early] at h
        late := fun _ => hs.late (by rw [hc]; rfl)
        print := fun text h => by simp at h
        line := fun text' h => by
          obtain rfl : text = text' := by simpa using h
          exact hs.print text hc
        childEnd := fun e h => by simp at h }
  | leave =>
      simp only [AnonymousPipe.childStep, hc]
      exact hs.childEnds (by rw [hc]; rfl) (Or.inr ⟨rfl, by rw [hc]; rfl⟩)
  | absent | ended _ => simp [enabled, hc, childReady] at ha

theorem step (hs : Stands msg s) (ha : s.enabled a) : Stands msg (s.step msg a) := by
  cases a with
  | parent ok => exact hs.parentStep ha
  | child => exact hs.childStep ha
  | kill p =>
      cases p with
      | parent => exact hs.parentEnds ha (Or.inr (Or.inl rfl)) (by simp)
      | child => exact hs.childEnds ha (Or.inl rfl)

end Stands

theorem reachable_stands (hr : (machine msg).Reachable s) : Stands msg s := by
  refine hr.invariant (P := Stands msg) ?_ fun s a _ hs ha => hs.step ha
  constructor <;>
    simp [machine, PipeEnds.none, ParentSite.reads, ParentSite.writes, ChildSite.alive,
      ChildSite.writes, ChildSite.late]

/--
**What the child prints** is the message, as far as it fits into the buffer, or nothing, and the
latter only where the parent was killed before it wrote.  And a parent is killed by its
`write` only where the child was killed.
-/
theorem child_line (hr : (machine msg).Reachable s) :
    (∀ text, s.line = some text →
      (s.wrote = true ∧ text = msg.text.take buffLen) ∨
        (s.wrote = false ∧ text = [] ∧ s.parent = .ended .killed)) ∧
    (s.parent = .ended .sigpipe → s.child = .ended .killed) :=
  ⟨(reachable_stands hr).line, (reachable_stands hr).sigpipe⟩

/-- Up to where the parent is about to write. -/
def untilWrite : List Action := [.parent true, .parent true, .child, .parent true]

example : ((machine mainMessage).after (machine mainMessage).init
    (untilWrite ++ [.parent true, .child, .child])).line = some mainMessage.text := by decide

/-- The parent is killed before it writes. -/
theorem child_line_killed :
    ((machine mainMessage).after (machine mainMessage).init
      (untilWrite ++ [.kill .parent, .child, .child])).wrote = false := by
  have hr : (machine mainMessage).Reachable ((machine mainMessage).after (machine mainMessage).init
      (untilWrite ++ [.kill .parent, .child, .child])) := Machine.reachable_after (by decide)
  rcases (child_line hr).1 [] (by decide) with ⟨_, htext⟩ | ⟨hw, _⟩
  · exact absurd htext (by decide)
  · exact hw

end AnonymousPipe

end LinuxSystems
