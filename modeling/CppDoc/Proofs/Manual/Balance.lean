import CppDoc.Manual
import Mathlib.Data.List.Induction

/-!
# Headlines and paragraphs are balanced

A **passage** is a headline or a piece of content with the content that follows it; it is closed by
one `close`.  Whatever is drafted, the stream it is settled to consists of closed passages and of at
most one passage that is still open.

* `Balanced`: the streams that a stack of one entry accepts, event by event, with `Balanced.step` for
  one item of a draft and `Balanced.settle` for a whole one;
* `Balanced.passages`: such a stream read as passages;
* `Balanced.split`: what may stand before an event of it;
* `settle_balanced`: settled drafts and whole manuals.
-/

namespace CppDoc

/-- What begins with a headline or a piece of content and goes on with content. -/
structure Passage where
  opening : Headline ⊕ Content
  more : List Content

namespace Passage

/-- The passage as long as it is open. -/
def written (p : Passage) : List Event :=
  p.opening.elim Event.headline Event.content :: p.more.map Event.content

/-- The passage with its end. -/
def closed (p : Passage) : List Event :=
  p.written ++ [.close]

/-- A passage takes in more content. -/
theorem written_more (p : Passage) (c : Content) :
    written { p with more := p.more ++ [c] } = p.written ++ [.content c] := by
  unfold written
  rw [List.map_append, List.map_singleton, List.cons_append]

end Passage

/-- After these events, something is open: the last of them is not a `close`. -/
def LeftOpen (events : List Event) : Prop :=
  ∃ e, events.getLast? = some e ∧ e ≠ .close

/-- A stream in which a headline begins only when nothing is open, and only what is open is closed.
The flag says whether something is open at its end. -/
inductive Balanced : Bool → List Event → Prop
  | empty : Balanced false []
  | headline {events : List Event} (h : Headline) :
      Balanced false events → Balanced true (events ++ [.headline h])
  | content {opened : Bool} {events : List Event} (c : Content) :
      Balanced opened events → Balanced true (events ++ [.content c])
  | close {events : List Event} :
      Balanced true events → Balanced false (events ++ [.close])

namespace Balanced

variable {opened : Bool} {events : List Event}

/-! ## Balanced streams are sequences of passages -/

/-- A balanced stream consists of closed passages, and of an open one if something is open. -/
theorem passages (h : Balanced opened events) :
    ∃ (done : List Passage) (current : Option Passage), current.isSome = opened ∧
      events = done.flatMap Passage.closed ++ current.elim [] Passage.written := by
  induction h with
  | empty => exact ⟨[], none, rfl, rfl⟩
  | headline h _ ih =>
      obtain ⟨done, current, hcurrent, rfl⟩ := ih
      -- Nothing is open, so the headline opens a passage of its own.
      obtain rfl : current = none := by simpa using hcurrent
      refine ⟨done, some ⟨.inl h, []⟩, rfl, ?_⟩
      simp [Passage.written]
  | content c _ ih =>
      obtain ⟨done, current, -, rfl⟩ := ih
      cases current with
      | none =>
          refine ⟨done, some ⟨.inr c, []⟩, rfl, ?_⟩
          simp [Passage.written]
      | some p =>
          refine ⟨done, some { p with more := p.more ++ [c] }, rfl, ?_⟩
          simp [Passage.written_more]
  | close _ ih =>
      obtain ⟨done, current, hcurrent, rfl⟩ := ih
      obtain ⟨p, rfl⟩ := Option.isSome_iff_exists.mp hcurrent
      refine ⟨done ++ [p], none, rfl, ?_⟩
      simp [Passage.closed]

/-- The flag of a balanced stream says whether its last event leaves something open. -/
theorem leftOpen_iff (h : Balanced opened events) : LeftOpen events ↔ opened = true := by
  cases h with
  | empty => simp [LeftOpen]
  | headline h _ => simp [LeftOpen]
  | content c _ => simp [LeftOpen]
  | close _ => simp [LeftOpen]

/-- What has happened before the last event: nothing is open before a headline, and something is
before a `close`. -/
theorem dropLast {e : Event} (h : Balanced opened (events ++ [e])) :
    ∃ before, Balanced before events ∧ (∀ g, e = .headline g → before = false) ∧
      (e = .close → before = true) := by
  generalize hall : events ++ [e] = all at h
  cases h with
  | empty => exact absurd hall (List.append_ne_nil_of_right_ne_nil events (List.cons_ne_nil e []))
  | headline g hbefore =>
      obtain ⟨rfl, he⟩ := List.append_inj' hall rfl
      cases he
      exact ⟨false, hbefore, fun _ _ => rfl, nofun⟩
  | content c hbefore =>
      obtain ⟨rfl, he⟩ := List.append_inj' hall rfl
      cases he
      exact ⟨_, hbefore, nofun, nofun⟩
  | close hbefore =>
      obtain ⟨rfl, he⟩ := List.append_inj' hall rfl
      cases he
      exact ⟨true, hbefore, nofun, fun _ => rfl⟩

/-- **Order of events.**  Wherever a balanced stream is cut, nothing is open before a headline, and
something is before a `close`. -/
theorem split {e : Event} {before after : List Event}
    (h : Balanced opened (before ++ e :: after)) :
    (∀ g, e = .headline g → ¬ LeftOpen before) ∧ (e = .close → LeftOpen before) := by
  induction after using List.reverseRecOn generalizing opened with
  | nil =>
      obtain ⟨flag, hbefore, hheadline, hclose⟩ := h.dropLast
      rw [hbefore.leftOpen_iff]
      constructor
      · intro g he hflag
        rw [hheadline g he] at hflag
        cases hflag
      · exact hclose
  | append_singleton after last ih =>
      rw [← List.cons_append, ← List.append_assoc] at h
      obtain ⟨_, hbefore, -⟩ := h.dropLast
      exact ih hbefore

/-! ## Settling keeps the balance -/

/-- Closing what is open leaves nothing open. -/
theorem finish {st : Spacing} (h : Balanced st.opened events) :
    Balanced false (events ++ st.finish.2) := by
  unfold Spacing.finish
  cases hopened : st.opened with
  | false =>
      rw [hopened] at h
      simpa using h
  | true =>
      rw [hopened] at h
      exact h.close

/-- Content, with or without a space before it, leaves something open. -/
theorem inline {st : Spacing} (h : Balanced opened events) (c : Content) (shown : String) :
    Balanced true (events ++ (st.inline c shown).2) := by
  unfold Spacing.inline
  split
  · rw [← List.append_assoc]
    exact (h.content (.text " ")).content c
  · exact h.content c

/-- **One item.**  After an item of a draft, the stream is balanced, and the state says whether
something is open. -/
theorem step {st : Spacing} (h : Balanced st.opened events) (d : Draft) :
    Balanced (st.step d).1.opened (events ++ (st.step d).2) := by
  cases d with
  | space => simpa [Spacing.step] using h
  | event e =>
      cases e with
      | close => exact h.finish
      | headline g =>
          have hclosed := h.finish
          simpa [Spacing.step] using hclosed.headline g
      | content c =>
          cases c with
          | text t =>
              simp only [Spacing.step]
              split
              -- An empty text is not added at all.
              · simpa using h
              · exact h.inline _ _
          | link _ _ => exact h.inline _ _
          | argument _ => exact h.inline _ _
          | classLink _ _ => exact h.inline _ _
          | functionLink _ _ => exact h.inline _ _
          | code _ => exact h.content _
          | warning _ => exact h.content _
          | note _ => exact h.content _
          | heading _ _ => exact h.content _

/-- **A whole draft.**  Settling goes on with a balanced stream. -/
theorem settle {st : Spacing} (h : Balanced st.opened events) (drafts : List Draft) :
    Balanced (st.settle drafts).1.opened (events ++ (st.settle drafts).2) := by
  induction drafts generalizing st events with
  | nil => simpa [Spacing.settle] using h
  | cons d rest ih =>
      have hstep := h.step d
      have hrest := ih hstep
      rw [List.append_assoc] at hrest
      exact hrest

end Balanced

/-- What is settled from the start is balanced. -/
theorem Spacing.balanced_settle (drafts : List Draft) :
    Balanced (closed.settle drafts).1.opened (closed.settle drafts).2 := by
  have hempty : Balanced closed.opened [] := .empty
  exact hempty.settle drafts

/-- Settling one draft after another. -/
theorem Spacing.settle_append (st : Spacing) (first second : List Draft) :
    st.settle (first ++ second) =
      (((st.settle first).1.settle second).1,
        (st.settle first).2 ++ ((st.settle first).1.settle second).2) := by
  induction first generalizing st with
  | nil => rfl
  | cons d first ih => simp only [List.cons_append, settle, ih, List.append_assoc]

/-- A manual ends by closing what is open. -/
theorem Manual.opened_events (reg : Registry) :
    (Spacing.closed.settle (Manual.draft reg).2).1.opened = false := by
  simp only [Manual.draft, Spacing.settle_append]
  rfl

/-- The balanced streams that end with nothing open are sequences of closed passages. -/
theorem Balanced.closedPassages {events : List Event} (h : Balanced false events) :
    ∃ done : List Passage, events = done.flatMap Passage.closed := by
  obtain ⟨done, current, hcurrent, rfl⟩ := h.passages
  obtain rfl : current = none := by simpa using hcurrent
  exact ⟨done, by simp⟩

/-- **Balance.**  Whatever is drafted, it is settled to a sequence of closed passages with at most
one open passage behind them: no headline comes while something is open, and no `close` while nothing
is.  The stream of a manual ends with everything closed. -/
theorem settle_balanced :
    (∀ drafts : List Draft,
      (∃ (done : List Passage) (current : Option Passage),
        (Spacing.closed.settle drafts).2 =
          done.flatMap Passage.closed ++ current.elim [] Passage.written) ∧
      (∀ (before after : List Event) (h : Headline),
        (Spacing.closed.settle drafts).2 = before ++ .headline h :: after → ¬ LeftOpen before) ∧
      (∀ before after : List Event,
        (Spacing.closed.settle drafts).2 = before ++ .close :: after → LeftOpen before)) ∧
    ∀ reg : Registry, ∃ done : List Passage,
      (Manual.events reg).2 = done.flatMap Passage.closed := by
  constructor
  · intro drafts
    have hbalanced := Spacing.balanced_settle drafts
    refine ⟨?_, ?_, ?_⟩
    · obtain ⟨done, current, -, hevents⟩ := hbalanced.passages
      exact ⟨done, current, hevents⟩
    · intro before after h hevents
      rw [hevents] at hbalanced
      exact hbalanced.split.1 h rfl
    · intro before after hevents
      rw [hevents] at hbalanced
      exact hbalanced.split.2 rfl
  · intro reg
    have hbalanced := Spacing.balanced_settle (Manual.draft reg).2
    rw [Manual.opened_events reg] at hbalanced
    exact hbalanced.closedPassages

end CppDoc
