import CppDoc.Manual
import CppDoc.Proofs.Manual.Blocks

/-!
# What settling a draft leaves alone

Settling a draft moves spaces, closes paragraphs and drops empty texts.  The headlines and the links
to classes and functions are its **landmarks**: they come out as they were drafted, in the same
order.

* `filterMap_settle`: whatever texts and the ends of paragraphs have no part in;
* `landmarks_settle`: the landmarks of a draft;
* `headlines_settle`: its headlines.
-/

namespace CppDoc

/-- Is the event a headline, or a link to a class or a function? -/
def Event.isLandmark : Event → Bool
  | .headline _ => true
  | .close => false
  | .content c => c.isReference

/-- The headlines of a stream. -/
def Event.headlines (events : List Event) : List Headline :=
  events.filterMap Event.headline?

/-- The event that an item of a draft is. -/
def Draft.event? : Draft → Option Event
  | .space => none
  | .event e => some e

/-- The headlines and links of a draft. -/
def Draft.landmarks (drafts : List Draft) : List Event :=
  (drafts.filterMap Draft.event?).filter Event.isLandmark

@[simp] theorem Draft.landmarks_nil : Draft.landmarks [] = [] := rfl

@[simp] theorem Draft.landmarks_append (a b : List Draft) :
    Draft.landmarks (a ++ b) = Draft.landmarks a ++ Draft.landmarks b := by
  simp [Draft.landmarks]

/-- Headlines are landmarks. -/
theorem Event.headlines_landmarks (events : List Event) :
    Event.headlines (events.filter Event.isLandmark) = Event.headlines events := by
  unfold Event.headlines
  rw [List.filterMap_filter]
  congr 1
  funext e
  cases e with
  | headline h => rfl
  | close => rfl
  | content c => exact ite_self none

theorem Draft.headlines_landmarks (drafts : List Draft) :
    Event.headlines (Draft.landmarks drafts) = Draft.headlines drafts := by
  unfold Draft.landmarks
  rw [Event.headlines_landmarks]
  unfold Event.headlines Draft.headlines
  rw [List.filterMap_filterMap]
  congr 1
  funext x
  cases x <;> rfl

namespace Spacing

section Kept

variable {α : Type} {g : Event → Option α} (hclose : g .close = none)
  (htext : ∀ t, g (.content (.text t)) = none)

include htext in
/-- Only a space is added with content. -/
theorem filterMap_inline (st : Spacing) (c : Content) (shown : String) :
    (st.inline c shown).2.filterMap g = [Event.content c].filterMap g := by
  simp only [inline]
  split
  · rw [List.singleton_append, List.filterMap_cons_none (htext " ")]
  · rfl

include hclose htext

/-- **One item.**  What neither the ends of paragraphs nor texts say is said as it was drafted. -/
theorem filterMap_step (st : Spacing) (x : Draft) :
    (st.step x).2.filterMap g = x.event?.toList.filterMap g := by
  have hfinish : st.finish.2.filterMap g = [] := by
    simp only [finish]
    split
    · rw [List.filterMap_cons_none hclose, List.filterMap_nil]
    · rfl
  cases x with
  | space => rfl
  | event e =>
      cases e with
      | headline h =>
          simp only [step, List.filterMap_append, hfinish, List.nil_append]
          rfl
      | close =>
          have hnone : [Event.close].filterMap g = [] := List.filterMap_cons_none hclose
          exact hfinish.trans hnone.symm
      | content c =>
          cases c with
          | text t =>
              have hnone : [Event.content (.text t)].filterMap g = [] :=
                List.filterMap_cons_none (htext t)
              refine Eq.trans ?_ hnone.symm
              simp only [step]
              split
              · rfl
              · rw [filterMap_inline htext]
                exact List.filterMap_cons_none (htext _)
          | link _ _ => exact filterMap_inline htext st _ _
          | argument _ => exact filterMap_inline htext st _ _
          | classLink _ _ => exact filterMap_inline htext st _ _
          | functionLink _ _ => exact filterMap_inline htext st _ _
          | _ => rfl

/-- **A whole draft.**  What neither the ends of paragraphs nor texts say is said as it was
drafted. -/
theorem filterMap_settle (st : Spacing) (drafts : List Draft) :
    (st.settle drafts).2.filterMap g = (drafts.filterMap Draft.event?).filterMap g := by
  induction drafts generalizing st with
  | nil => rfl
  | cons x rest ih =>
      have hstep := filterMap_step hclose htext st x
      simp only [settle, List.filterMap_append]
      rw [hstep, ih, ← List.filterMap_append]
      cases x <;> rfl

end Kept

/-- **Landmarks.**  Settling a draft leaves its headlines and links as they are. -/
theorem landmarks_settle (st : Spacing) (drafts : List Draft) :
    (st.settle drafts).2.filter Event.isLandmark = Draft.landmarks drafts := by
  unfold Draft.landmarks
  rw [← List.filterMap_eq_filter]
  exact filterMap_settle rfl (fun _ => rfl) st drafts

/-- **Headlines.**  They come out as they were drafted. -/
theorem headlines_settle (st : Spacing) (drafts : List Draft) :
    Event.headlines (st.settle drafts).2 = Draft.headlines drafts := by
  rw [← Event.headlines_landmarks, landmarks_settle, Draft.headlines_landmarks]

end Spacing

end CppDoc
