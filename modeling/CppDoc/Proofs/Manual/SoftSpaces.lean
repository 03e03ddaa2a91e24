import CppDoc.Proofs.Manual.Balance
import CppDoc.Proofs.Manual.Spaces

/-!
# Soft spaces

A space that a draft asks for is put between two pieces of content of one paragraph, unless there is
white space already.  The writer of a draft keeps four marks for that; here is what they say of the
items that came before, and where a space comes out.

* `lastShown`: what the open paragraph shows last;
* `EndsWith`: the item that has shown it, and the items behind, which have shown nothing;
* `Recalls`: what the marks say, with `Recalls.step` for one item and `recalls_settle` for a draft;
* `settle_spaces`: where a space comes out, and what comes out besides.
-/

namespace CppDoc

/-- Is the event content? -/
def Event.isContent : Event → Bool
  | .content _ => true
  | _ => false

namespace Draft

/-- Does the item end the paragraph before it?  Headlines and blocks do, and the ends of
paragraphs. -/
def isBoundary : Draft → Bool
  | .space => false
  | .event e => e.isBoundary

/-- Is the item content? -/
def isContent : Draft → Bool
  | .space => false
  | .event e => e.isContent

end Draft

namespace Spacing

/-! ## What a draft has shown -/

/-- The text `t` as it is added behind content that shows `last`: at the start of a paragraph and
behind white space, leading spaces are dropped. -/
def trimmedBehind (last : Option String) (t : String) : String :=
  if last.all endsWithSpace then String.ofList (t.toList.dropWhile (· == ' ')) else t

/-- The content that an item adds behind content that shows `last`: the item's own, with its text
trimmed, and none if that leaves nothing of the text. -/
def keptBehind (last : Option String) : Draft → Option Content
  | .event (.content (.text t)) =>
    if (trimmedBehind last t).isEmpty then none else some (.text (trimmedBehind last t))
  | .event (.content c) => some c
  | _ => none

/-- What the open paragraph shows last behind one more item. -/
def showBehind (last : Option String) (x : Draft) : Option String :=
  if x.isBoundary then none else ((keptBehind last x).bind Content.inline?).or last

/-- What the open paragraph shows last behind the items `pre`; nothing if it has not begun. -/
def lastShown (pre : List Draft) : Option String :=
  pre.foldl showBehind none

/-- The content that the item `x` adds behind the items `pre`. -/
def kept? (pre : List Draft) (x : Draft) : Option Content :=
  keptBehind (lastShown pre) x

/-- What the item `x` shows in a paragraph behind the items `pre`. -/
def shown? (pre : List Draft) (x : Draft) : Option String :=
  (kept? pre x).bind Content.inline?

/-- The last thing that the items show in the open paragraph is the text `t`; behind the item that
shows it there are the items `quiet`, which show nothing and do not end the paragraph. -/
inductive EndsWith : List Draft → String → List Draft → Prop
  | shown {pre : List Draft} {x : Draft} {t : String} (ht : shown? pre x = some t) :
      EndsWith (pre ++ [x]) t []
  | quiet {pre quiet : List Draft} {x : Draft} {t : String} (h : EndsWith pre t quiet)
      (hx : x.isBoundary = false) (hnone : shown? pre x = none) :
      EndsWith (pre ++ [x]) t (quiet ++ [x])

/-- A space has been asked for behind what the open paragraph shows last. -/
def Asked (pre : List Draft) : Prop :=
  ∃ t quiet, EndsWith pre t quiet ∧ .space ∈ quiet

section History

variable {pre quiet : List Draft} {x : Draft} {s t : String} {c : Content}

theorem lastShown_concat (pre : List Draft) (x : Draft) :
    lastShown (pre ++ [x]) = if x.isBoundary then none else (shown? pre x).or (lastShown pre) :=
  List.foldl_concat _ _ _ _

/-- Only what does not end the paragraph shows something in it. -/
theorem isBoundary_of_shown (hs : shown? pre x = some s) : x.isBoundary = false := by
  cases x with
  | space => rfl
  | event e =>
      cases e with
      | content c =>
          cases c with
          | text t => rfl
          | link _ _ | argument _ | classLink _ _ | functionLink _ _ => rfl
          | code _ | warning _ | note _ | heading _ _ => cases hs
      | headline _ | close => cases hs

theorem endsWith_concat : EndsWith (pre ++ [x]) t quiet ↔
    (shown? pre x = some t ∧ quiet = []) ∨
      ∃ q, quiet = q ++ [x] ∧ EndsWith pre t q ∧ x.isBoundary = false ∧ shown? pre x = none := by
  constructor
  · intro h
    generalize hitems : pre ++ [x] = items at h
    cases h with
    | shown ht =>
        obtain ⟨rfl, hx⟩ := List.append_inj' hitems rfl
        cases hx
        exact .inl ⟨ht, rfl⟩
    | quiet h hx hnone =>
        obtain ⟨rfl, hlast⟩ := List.append_inj' hitems rfl
        cases hlast
        exact .inr ⟨_, rfl, h, hx, hnone⟩
  · rintro (⟨ht, rfl⟩ | ⟨q, rfl, h, hx, hnone⟩)
    · exact .shown ht
    · exact .quiet h hx hnone

/-- **What the open paragraph shows last** is what some item shows, behind which the paragraph goes on
and nothing else is shown. -/
theorem lastShown_eq_some : lastShown pre = some t ↔ ∃ quiet, EndsWith pre t quiet := by
  induction pre using List.reverseRecOn with
  | nil =>
      refine ⟨fun h => (by cases h), ?_⟩
      rintro ⟨quiet, h⟩
      generalize hnil : ([] : List Draft) = pre at h
      cases h with
      | shown => exact absurd hnil.symm (List.concat_ne_nil _ _)
      | quiet => exact absurd hnil.symm (List.concat_ne_nil _ _)
  | append_singleton pre x ih =>
      simp only [lastShown_concat, endsWith_concat]
      cases hs : shown? pre x with
      | some s =>
          rw [if_neg (by rw [isBoundary_of_shown hs]; decide), Option.some_or]
          constructor
          · exact fun h => ⟨[], .inl ⟨h, rfl⟩⟩
          · rintro ⟨_, ⟨h, -⟩ | ⟨_, -, -, -, h⟩⟩
            · exact h
            · cases h
      | none =>
          rw [Option.none_or]
          cases hx : x.isBoundary with
          | true => simp
          | false =>
              rw [if_neg (by decide), ih]
              constructor
              · rintro ⟨q, h⟩
                exact ⟨_, .inr ⟨q, rfl, h, rfl, rfl⟩⟩
              · rintro ⟨_, ⟨h, -⟩ | ⟨q, -, h, -⟩⟩
                · cases h
                · exact ⟨q, h⟩

/-- A space has been asked for behind one more item: by the item, if there is something to ask for it
behind, or before. -/
theorem asked_concat (hx : x.isBoundary = false) (hnone : shown? pre x = none) :
    Asked (pre ++ [x]) ↔ Asked pre ∨ (x = .space ∧ (lastShown pre).isSome = true) := by
  constructor
  · rintro ⟨t, quiet, h, hmem⟩
    obtain ⟨h, -⟩ | ⟨q, rfl, h, -⟩ := endsWith_concat.mp h
    · rw [hnone] at h
      cases h
    · rcases List.mem_append.mp hmem with hmem | hmem
      · exact .inl ⟨t, q, h, hmem⟩
      · have hsome : lastShown pre = some t := lastShown_eq_some.mpr ⟨q, h⟩
        exact .inr ⟨(List.mem_singleton.mp hmem).symm, by rw [hsome]; rfl⟩
  · rintro (⟨t, q, h, hmem⟩ | ⟨rfl, hsome⟩)
    · exact ⟨t, q ++ [x], .quiet h hx hnone, List.mem_append_left _ hmem⟩
    · obtain ⟨t, ht⟩ := Option.isSome_iff_exists.mp hsome
      obtain ⟨q, h⟩ := lastShown_eq_some.mp ht
      exact ⟨t, q ++ [.space], .quiet h hx hnone, List.mem_append_right _ List.mem_cons_self⟩

theorem not_asked_of_boundary (hx : x.isBoundary = true) : ¬ Asked (pre ++ [x]) := by
  rintro ⟨t, quiet, h, hmem⟩
  obtain ⟨-, rfl⟩ | ⟨q, -, -, hno, -⟩ := endsWith_concat.mp h
  · cases hmem
  · rw [hx] at hno
    cases hno

theorem not_asked_of_shown (hs : shown? pre x = some s) : ¬ Asked (pre ++ [x]) := by
  rintro ⟨t, quiet, h, hmem⟩
  obtain ⟨-, rfl⟩ | ⟨q, -, -, -, hnone⟩ := endsWith_concat.mp h
  · cases hmem
  · rw [hs] at hnone
    cases hnone

end History

/-! ## What the marks say -/

/-- What the marks say of the items `pre`. -/
structure Recalls (st : Spacing) (pre : List Draft) : Prop where
  fresh : st.fresh = (lastShown pre).isNone
  spaced : st.spaced = (lastShown pre).any endsWithSpace
  pending : st.pending = true ↔ Asked pre

section Steps

variable {st : Spacing} {pre : List Draft} {x : Draft} {c : Content} {s : String}

theorem recalls_closed : closed.Recalls [] where
  fresh := rfl
  spaced := rfl
  pending := by
    refine ⟨fun h => (by cases h), ?_⟩
    rintro ⟨t, quiet, h, -⟩
    have hnothing : lastShown [] = some t := lastShown_eq_some.mpr ⟨quiet, h⟩
    cases hnothing

theorem Recalls.fitted (h : st.Recalls pre) (t : String) :
    st.fitted t = trimmedBehind (lastShown pre) t := by
  rw [Spacing.fitted, h.fresh, h.spaced, trimmedBehind]
  cases lastShown pre with
  | none => rfl
  | some last => simp

/-- What is shown in a paragraph is added to it. -/
theorem Recalls.step_shown (h : st.Recalls pre) (hkept : kept? pre x = some c)
    (hshown : c.inline? = some s) : st.step x = st.inline c s := by
  cases x with
  | space => cases hkept
  | event e =>
      cases e with
      | content d =>
          cases d with
          | text t =>
              rw [kept?, keptBehind, ← h.fitted t] at hkept
              split at hkept
              · cases hkept
              · rename_i hne
                cases hkept
                cases hshown
                simp only [step, if_neg hne]
          | link _ _ | argument _ | classLink _ _ | functionLink _ _ =>
              cases hkept
              cases hshown
              rfl
          | code _ | warning _ | note _ | heading _ _ =>
              cases hkept
              cases hshown
      | headline _ | close => cases hkept

/-- What shows nothing and does not end the paragraph only may ask for a space. -/
theorem Recalls.step_quiet (h : st.Recalls pre) (hx : x.isBoundary = false)
    (hnone : shown? pre x = none) :
    st.step x = ({ st with pending := st.pending || (x == .space && !st.fresh) }, []) ∧
      kept? pre x = none := by
  cases x with
  | space => exact ⟨by simp [step], rfl⟩
  | event e =>
      cases e with
      | content d =>
          cases d with
          | text t =>
              simp only [shown?, kept?, keptBehind, ← h.fitted t] at hnone ⊢
              split at hnone
              · rename_i hempty
                have hother : (Draft.event (.content (.text t)) == .space) = false := rfl
                rw [if_pos hempty]
                simp [step, hempty, hother]
              · cases hnone
          | link _ _ | argument _ | classLink _ _ | functionLink _ _ => cases hnone
          | code _ | warning _ | note _ | heading _ _ => cases hx
      | headline _ | close => cases hx

/-- What ends the paragraph comes out as it is, behind the mark that ends what is open. -/
theorem step_boundary (pre : List Draft) (st : Spacing) (hx : x.isBoundary = true) :
    ∃ opened marks, st.step x = ({ closed with opened },
        marks ++ (kept? pre x).toList.map Event.content) ∧
      (∀ e ∈ marks, e.isContent = false) ∧ (x.isContent = true → marks = []) := by
  have hfinish : ∀ e ∈ st.finish.2, e.isContent = false := by
    intro e he
    simp only [finish] at he
    split at he
    · rw [List.mem_singleton.mp he]
      rfl
    · cases he
  cases x with
  | space => cases hx
  | event e =>
      cases e with
      | content d =>
          cases d with
          | code _ | warning _ | note _ | heading _ _ =>
              exact ⟨true, [], rfl, (fun e he => (by cases he)), fun _ => rfl⟩
          | text _ | link _ _ | argument _ | classLink _ _ | functionLink _ _ => cases hx
      | close =>
          have hkept : kept? pre (.event .close) = none := rfl
          refine ⟨false, st.finish.2, ?_, hfinish, fun h => (by cases h)⟩
          rw [hkept, Option.toList_none, List.map_nil, List.append_nil]
          rfl
      | headline hd =>
          have hkept : kept? pre (.event (.headline hd)) = none := rfl
          refine ⟨true, st.finish.2 ++ [.headline hd], ?_, ?_, fun h => (by cases h)⟩
          · rw [hkept, Option.toList_none, List.map_nil, List.append_nil]
            rfl
          · intro e he
            rcases List.mem_append.mp he with he | he
            · exact hfinish e he
            · rw [List.mem_singleton.mp he]
              rfl

/-- **One item.** -/
theorem Recalls.step (h : st.Recalls pre) (x : Draft) : (st.step x).1.Recalls (pre ++ [x]) := by
  cases hx : x.isBoundary with
  | true =>
      obtain ⟨opened, marks, hstep, -⟩ := step_boundary pre st hx
      have hnothing : lastShown (pre ++ [x]) = none := by rw [lastShown_concat, if_pos hx]
      rw [hstep]
      exact ⟨by rw [hnothing]; rfl, by rw [hnothing]; rfl,
        fun hp => (by cases hp), fun hp => absurd hp (not_asked_of_boundary hx)⟩
  | false =>
      cases hs : shown? pre x with
      | some s =>
          obtain ⟨c, hkept, hshown⟩ := Option.bind_eq_some_iff.mp hs
          have hlast : lastShown (pre ++ [x]) = some s := by
            rw [lastShown_concat, hx, if_neg (by decide), hs, Option.some_or]
          rw [h.step_shown hkept hshown]
          exact ⟨by rw [hlast]; rfl, by rw [hlast]; rfl,
            fun hp => (by cases hp), fun hp => absurd hp (not_asked_of_shown hs)⟩
      | none =>
          have hlast : lastShown (pre ++ [x]) = lastShown pre := by
            rw [lastShown_concat, hx, if_neg (by decide), hs, Option.none_or]
          rw [(h.step_quiet hx hs).1]
          refine ⟨hlast ▸ h.fresh, hlast ▸ h.spaced, ?_⟩
          rw [asked_concat hx hs, ← h.pending, h.fresh]
          simp

/-- **A whole draft.** -/
theorem Recalls.settle (h : st.Recalls pre) (drafts : List Draft) :
    (st.settle drafts).1.Recalls (pre ++ drafts) := by
  induction drafts generalizing st pre with
  | nil =>
      rw [List.append_nil]
      exact h
  | cons x rest ih =>
      have hrest := ih (h.step x)
      rwa [List.append_assoc] at hrest

theorem recalls_settle (pre : List Draft) : (closed.settle pre).1.Recalls pre :=
  recalls_closed.settle pre

/-- Before content that shows `s` the marks have a space come out if it was asked for, and there is no
white space on either side. -/
theorem Recalls.due (h : st.Recalls pre) (s : String) :
    (st.pending && !st.spaced && !leadsWithSpace s) = true ↔
      ∃ t quiet, EndsWith pre t quiet ∧ .space ∈ quiet ∧ endsWithSpace t = false ∧
        leadsWithSpace s = false := by
  simp only [Bool.and_eq_true, Bool.not_eq_true', h.pending, h.spaced]
  constructor
  · rintro ⟨⟨⟨t, quiet, hends, hmem⟩, hspaced⟩, hleads⟩
    have hlast : lastShown pre = some t := lastShown_eq_some.mpr ⟨quiet, hends⟩
    rw [hlast] at hspaced
    exact ⟨t, quiet, hends, hmem, hspaced, hleads⟩
  · rintro ⟨t, quiet, hends, hmem, hspaced, hleads⟩
    have hlast : lastShown pre = some t := lastShown_eq_some.mpr ⟨quiet, hends⟩
    exact ⟨⟨⟨t, quiet, hends, hmem⟩, by rw [hlast]; exact hspaced⟩, hleads⟩

/-- What comes out for one item: what is kept of its content, and before that a space if one is due,
or what ends a paragraph. -/
theorem Recalls.answer (h : st.Recalls pre) (x : Draft) :
    ∃ marks inserted,
      (st.step x).2 = marks ++ inserted ++ (kept? pre x).toList.map Event.content ∧
      (∀ e ∈ marks, e.isContent = false) ∧ (x.isContent = true → marks = []) ∧
      (inserted = [] ∨ inserted = [.content (.text " ")]) ∧
      (inserted ≠ [] ↔ ∃ s t quiet, shown? pre x = some s ∧ EndsWith pre t quiet ∧
        .space ∈ quiet ∧ endsWithSpace t = false ∧ leadsWithSpace s = false) := by
  cases hx : x.isBoundary with
  | true =>
      obtain ⟨opened, marks, hstep, hmarks, hcontent⟩ := step_boundary pre st hx
      refine ⟨marks, [], by rw [hstep, List.append_nil], hmarks, hcontent, .inl rfl,
        fun h => absurd rfl h, ?_⟩
      rintro ⟨s, t, quiet, hs, -⟩
      rw [isBoundary_of_shown hs] at hx
      cases hx
  | false =>
      cases hs : shown? pre x with
      | none =>
          obtain ⟨hstep, hkept⟩ := h.step_quiet hx hs
          refine ⟨[], [], by rw [hstep, hkept]; rfl, fun e he => (by cases he), fun _ => rfl,
            .inl rfl, fun h => absurd rfl h, ?_⟩
          rintro ⟨s, t, quiet, h, -⟩
          cases h
      | some s =>
          obtain ⟨c, hkept, hshown⟩ := Option.bind_eq_some_iff.mp hs
          refine ⟨[], if st.pending && !st.spaced && !leadsWithSpace s then [.content (.text " ")]
            else [], ?_, fun e he => (by cases he), fun _ => rfl, ?_, ?_⟩
          · rw [h.step_shown hkept hshown, hkept]
            rfl
          · split
            · exact .inr rfl
            · exact .inl rfl
          · have hdue := h.due s
            constructor
            · intro hne
              split at hne
              · rename_i hmarks
                obtain ⟨t, quiet, hall⟩ := hdue.mp hmarks
                exact ⟨s, t, quiet, rfl, hall⟩
              · exact absurd rfl hne
            · rintro ⟨s', t, quiet, hsame, hall⟩
              cases hsame
              rw [if_pos (hdue.mpr ⟨t, quiet, hall⟩)]
              exact List.cons_ne_nil _ _

end Steps

/-- **Soft spaces.**  Wherever an item stands in a draft, what comes out for it is what is kept of its
content.  Before that a space comes out if and only if the item shows something in a paragraph, the
paragraph shows something before it, a space has been asked for in between, and there is no white
space on either side.  Nothing else comes out but headlines and the ends of paragraphs, and these not
for content. -/
theorem settle_spaces (pre post : List Draft) (x : Draft) :
    ∃ marks inserted,
      (closed.settle (pre ++ x :: post)).2 = (closed.settle pre).2 ++
        (marks ++ inserted ++ (kept? pre x).toList.map Event.content) ++
          ((closed.settle (pre ++ [x])).1.settle post).2 ∧
      (∀ e ∈ marks, e.isContent = false) ∧ (x.isContent = true → marks = []) ∧
      (inserted = [] ∨ inserted = [.content (.text " ")]) ∧
      (inserted ≠ [] ↔ ∃ s t quiet, shown? pre x = some s ∧ EndsWith pre t quiet ∧
        .space ∈ quiet ∧ endsWithSpace t = false ∧ leadsWithSpace s = false) := by
  obtain ⟨marks, inserted, hanswer, hrest⟩ := (recalls_settle pre).answer x
  refine ⟨marks, inserted, ?_, hrest⟩
  rw [← hanswer]
  simp only [settle_append, settle, List.append_assoc, List.append_nil]

end Spacing

end CppDoc
