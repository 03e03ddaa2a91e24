import CppDoc.Proofs.Syntax.Tidy
import CppDoc.Spacing

/-!
# The texts of a settled draft

Between one boundary of a stream and the next, the pieces of content show one text: the headline or
the paragraph that a reader sees.  Spaces come into it from requests for a space, from texts that
begin or end with one, and from the shown content itself.  Settling a draft keeps the texts tidy, if
the draft puts at most one such space between two pieces and does not end a text behind one.

* `Event.texts`: the texts of a stream;
* `Item` and `Items`: what a draft may add to a text, depending on how the text ends;
* `Item.step` and `Items.settle`: one item and a whole draft;
* `Neat`: the drafts that may stand behind any tidy text, with `Neat.texts`.
-/

namespace CppDoc

open CppDoc.Text

/-- The text that an event shows. -/
def Event.shown : Event → List Char
  | .content c => (c.inline?.getD "").toList
  | _ => []

/-- Does the event stand between texts?  Headlines and blocks do, and the ends of paragraphs. -/
def Event.isBoundary : Event → Bool
  | .content c => c.inline?.isNone
  | _ => true

/-- The texts of a stream: what is shown between one boundary and the next. -/
def Event.texts (events : List Event) : List (List Char) :=
  (events.splitOnP Event.isBoundary).map (·.flatMap Event.shown)

/-- The texts of a stream that goes on with the text `s`. -/
def Event.textsFrom (s : List Char) (events : List Event) : List (List Char) :=
  (Event.texts events).modifyHead (s ++ ·)

namespace Event

variable {s : List Char} {e : Event} {later : List Event}

theorem textsFrom_nil_left (events : List Event) : textsFrom [] events = texts events :=
  congrFun List.modifyHead_id _

theorem textsFrom_nil (s : List Char) : textsFrom s [] = [s] := by
  simp [textsFrom, texts]

/-- A boundary ends a text. -/
theorem textsFrom_boundary (he : e.isBoundary = true) :
    textsFrom s (e :: later) = s :: texts later := by
  unfold textsFrom texts
  rw [List.splitOnP_cons_eq_if_modifyHead, if_pos he]
  simp

/-- What is shown goes on with a text. -/
theorem textsFrom_shown (he : e.isBoundary = false) :
    textsFrom s (e :: later) = textsFrom (s ++ e.shown) later := by
  obtain ⟨first, others, hsplit⟩ :=
    List.exists_cons_of_ne_nil (List.splitOnP_ne_nil Event.isBoundary later)
  unfold textsFrom texts
  rw [List.splitOnP_cons_eq_if_modifyHead, if_neg (by simp [he]), hsplit]
  simp

end Event

/-! ## How a text ends -/

/-- How a text ends: it has not begun, it ends with something solid, or a blank may stand there. -/
inductive Ending where
  | unbegun
  | solid
  | loose
  deriving DecidableEq

/-- The text ends in this way. -/
def Ending.Fits : Ending → List Char → Prop
  | .unbegun, s => s = []
  | .solid, s => Tidy s ∧ s ≠ []
  | .loose, s => Spaced s ∧ s ≠ []

/-- A text that ends so behind a space. -/
def Ending.spaced : Ending → Ending
  | .unbegun => .unbegun
  | _ => .loose

theorem Ending.Fits.spaced {p : Ending} {s : List Char} (h : p.Fits s) : Spaced s := by
  cases p with
  | unbegun => exact h ▸ tidy_nil.toSpaced
  | solid => exact h.1.toSpaced
  | loose => exact h.1

theorem Ending.Fits.tidy {p : Ending} {s : List Char} (h : p.Fits s) (hp : p ≠ .loose) : Tidy s := by
  cases p with
  | unbegun => exact h ▸ tidy_nil
  | solid => exact h.1
  | loose => exact absurd rfl hp

/-- What one item of a draft makes of the end of a text. -/
inductive Item : Ending → Draft → Ending → Prop
  | space (p : Ending) : Item p .space p
  | nothing (p : Ending) : Item p (.text "") p
  | blank (p : Ending) : Item p (.text " ") p.spaced
  | behindBlank (p : Ending) {t : String} (ht : Tidy t.toList) (hne : t ≠ "") :
      Item p (.text (" " ++ t)) .solid
  | tidy (p : Ending) {c : Content} {t : String} (hc : c.inline? = some t) (ht : Tidy t.toList)
      (hne : t ≠ "") : Item p (.content c) .solid
  | spaced (p : Ending) {t : String} (ht : Spaced t.toList) (hne : t ≠ "") :
      Item p (.text t) .loose
  | boundary {p : Ending} {e : Event} (hp : p ≠ .loose) (he : e.isBoundary = true) :
      Item p (.event e) .unbegun

/-- What a draft makes of the end of a text. -/
inductive Items : Ending → List Draft → Ending → Prop
  | nil (p : Ending) : Items p [] p
  | cons {p q r : Ending} {x : Draft} {rest : List Draft} (first : Item p x q)
      (others : Items q rest r) : Items p (x :: rest) r

theorem Items.append {p q r : Ending} {a b : List Draft} (ha : Items p a q) (hb : Items q b r) :
    Items p (a ++ b) r := by
  induction ha with
  | nil p => exact hb
  | cons first _ ih => exact .cons first (ih hb)

namespace Spacing

/-- The state knows what it has to of the text `s` before it: whether it has been begun, that a space
was asked for only if it has, and whether it ends in white space. -/
structure Behind (st : Spacing) (s : List Char) : Prop where
  fresh : st.fresh = true ↔ s = []
  opened : st.opened = false → s = []
  pending : st.pending = true → s ≠ []
  unspaced : st.spaced = false → ∀ c, s.getLast? = some c → isBlank c = false

section Steps

variable {st : Spacing} {s : List Char} {c : Content} {t : String}

theorem behind_closed (opened : Bool) : Behind { closed with opened } [] where
  fresh := by simp [closed]
  opened := fun _ => rfl
  pending := nofun
  unspaced := nofun

/-- The state behind content that shows `t`. -/
theorem behind_shown (s : List Char) (hne : t ≠ "") :
    Behind { pending := false, opened := true, fresh := false, spaced := endsWithSpace t }
      (s ++ t.toList) where
  fresh := by simp [hne]
  opened := nofun
  pending := nofun
  unspaced := by
    intro hsolid d hd
    rw [List.getLast?_append_of_ne_nil _ (by simpa using hne)] at hd
    have hsome : endsWithSpace t = false := hsolid
    rw [endsWithSpace, hd] at hsome
    exact Syntax.isBlank_eq_false_of_isSpace hsome

/-- What begins with something solid is added as it is. -/
theorem step_content (st : Spacing) (hc : c.inline? = some t) (ht : Spaced t.toList) (hne : t ≠ "") :
    st.step (.event (.content c)) = st.inline c t := by
  cases c with
  | text u =>
      obtain rfl := Option.some.inj hc
      have hfitted : st.fitted u = u := by
        unfold fitted
        split
        · cases hu : u.toList with
          | nil => exact absurd (by simpa using hu) hne
          | cons d rest =>
              have hd := ht.head d (by rw [hu]; rfl)
              have hspace : ¬ (d == ' ') = true := by
                intro heq
                rw [beq_iff_eq.mp heq] at hd
                cases hd
              rw [List.dropWhile_cons, if_neg hspace, ← hu, String.ofList_toList]
        · rfl
      simp only [step, hfitted]
      rw [if_neg (by simpa using hne)]
  | link url title =>
      obtain rfl := Option.some.inj hc
      rfl
  | argument u =>
      obtain rfl := Option.some.inj hc
      rfl
  | classLink u name =>
      obtain rfl := Option.some.inj hc
      rfl
  | functionLink u f =>
      obtain rfl := Option.some.inj hc
      rfl
  | code _ => cases hc
  | warning _ => cases hc
  | note _ => cases hc
  | heading _ _ => cases hc

/-- Content goes on with a text, with a space before it where one was asked for and fits. -/
theorem inline_spaced (hst : Behind st s) (hs : Spaced s) (hc : c.inline? = some t) (hne : t ≠ "") :
    ∃ before, Spaced before ∧ Behind (st.inline c t).1 (before ++ t.toList) ∧
      ∀ later, Event.textsFrom s ((st.inline c t).2 ++ later) =
        Event.textsFrom (before ++ t.toList) later := by
  have hshown (before : List Char) (later : List Event) :
      Event.textsFrom before (.content c :: later) =
        Event.textsFrom (before ++ t.toList) later := by
    rw [Event.textsFrom_shown (by simp [Event.isBoundary, hc])]
    simp [Event.shown, hc]
  unfold inline
  dsimp only
  split
  · rename_i hgap
    simp only [Bool.and_eq_true, Bool.not_eq_true'] at hgap
    obtain ⟨⟨hpending, hspaced⟩, -⟩ := hgap
    have hbefore : Spaced (s ++ [' ']) :=
      Tidy.append_blank ⟨hs, hst.unspaced hspaced⟩ (hst.pending hpending) ' '
    refine ⟨s ++ [' '], hbefore, behind_shown _ hne, fun later => ?_⟩
    rw [List.append_assoc, List.singleton_append, Event.textsFrom_shown rfl]
    exact hshown (s ++ [' ']) later
  · exact ⟨s, hs, behind_shown s hne, hshown s⟩

/-- Where a space does not fit, a text is added without the one that it begins with. -/
theorem step_blank_dropped (hdrop : (st.fresh || st.spaced) = true) (t : String) :
    st.step (.text (" " ++ t)) = st.step (.text t) := by
  have hfitted : st.fitted (" " ++ t) = st.fitted t := by
    unfold fitted
    rw [if_pos hdrop, if_pos hdrop, String.toList_append]
    rfl
  simp only [Draft.text, Draft.content, step, hfitted]

/-- Where a space fits, the one that a text begins with is the only one. -/
theorem step_blank_kept (s : List Char) (hkeep : ¬ (st.fresh || st.spaced) = true)
    (t : String) :
    Behind (st.step (.text (" " ++ t))).1 (s ++ ' ' :: t.toList) ∧
      ∀ later, Event.textsFrom s ((st.step (.text (" " ++ t))).2 ++ later) =
        Event.textsFrom (s ++ ' ' :: t.toList) later := by
  have hlist : (" " ++ t).toList = ' ' :: t.toList := by rw [String.toList_append]; rfl
  have hne : " " ++ t ≠ "" := by simp
  have hleads : leadsWithSpace (" " ++ t) = true := by rw [leadsWithSpace, hlist]; rfl
  have hstep : st.step (.text (" " ++ t)) =
      ({ pending := false, opened := true, fresh := false, spaced := endsWithSpace (" " ++ t) },
        [.content (.text (" " ++ t))]) := by
    simp only [Draft.text, Draft.content, step, fitted, if_neg hkeep]
    rw [if_neg (by simp)]
    simp [inline, hleads]
  rw [hstep, ← hlist]
  exact ⟨behind_shown s hne, fun later => Event.textsFrom_shown rfl⟩

/-- A space fits behind what is begun and does not end with one. -/
theorem Behind.tidy (hst : Behind st s) (hs : Spaced s) (hkeep : ¬ (st.fresh || st.spaced) = true) :
    Tidy s ∧ s ≠ [] := by
  simp only [Bool.or_eq_true, not_or, Bool.not_eq_true] at hkeep
  refine ⟨⟨hs, hst.unspaced hkeep.2⟩, fun hnil => ?_⟩
  rw [hst.fresh.mpr hnil] at hkeep
  cases hkeep.1

end Steps

end Spacing

/-! ## Drafts -/

/-- The texts of a stream that goes on with the text `s` are tidy. -/
def Event.TidyFrom (s : List Char) (events : List Event) : Prop :=
  ∀ t ∈ Event.textsFrom s events, Tidy t

section Drafts

variable {p q : Ending} {st : Spacing} {s : List Char} {x : Draft} {e : Event} {t : String}

/-- What has been settled behind the text `s` leads to a text that ends as `q` says, and the texts that
it ends on the way are tidy: all are if those of what follows are. -/
def Settles (s : List Char) (q : Ending) (now : Spacing × List Event) : Prop :=
  ∃ s', Spacing.Behind now.1 s' ∧ q.Fits s' ∧
    ∀ later, Event.TidyFrom s' later → Event.TidyFrom s (now.2 ++ later)

theorem settles_nothing (hst : Spacing.Behind st s) (hs : q.Fits s) : Settles s q (st, []) :=
  ⟨s, hst, hs, fun _ h => h⟩

/-- What is shown goes on with the text. -/
theorem settles_shown {s' : List Char} {now : Spacing × List Event} (hst : Spacing.Behind now.1 s')
    (hs : q.Fits s')
    (htexts : ∀ later, Event.textsFrom s (now.2 ++ later) = Event.textsFrom s' later) :
    Settles s q now :=
  ⟨s', hst, hs, fun later h => by rwa [Event.TidyFrom, htexts]⟩

/-- A boundary ends a tidy text. -/
theorem settles_boundary (hst : Spacing.Behind st s) (hs : Tidy s) (he : e.isBoundary = true) :
    Settles s .unbegun (st.step (.event e)) := by
  have hend {e : Event} (he : e.isBoundary = true) {s : List Char} (hs : Tidy s) {later : List Event}
      (h : Event.TidyFrom [] later) : Event.TidyFrom s (e :: later) := by
    intro t ht
    rw [Event.textsFrom_boundary he, List.mem_cons, ← Event.textsFrom_nil_left] at ht
    rcases ht with rfl | ht
    · exact hs
    · exact h t ht
  have hfinish {later : List Event} (h : Event.TidyFrom [] later) :
      Event.TidyFrom s (st.finish.2 ++ later) := by
    unfold Spacing.finish
    cases hopened : st.opened with
    | false => simpa [hst.opened hopened] using h
    | true => exact hend rfl hs h
  cases e with
  | headline h =>
      refine ⟨[], Spacing.behind_closed true, rfl, fun later hlater => ?_⟩
      have hboth := hfinish (hend (e := .headline h) rfl tidy_nil hlater)
      simpa [Spacing.step] using hboth
  | close => exact ⟨[], Spacing.behind_closed false, rfl, fun _ => hfinish⟩
  | content c =>
      have hstep : st.step (.event (.content c)) =
          ({ Spacing.closed with opened := true }, [.content c]) := by
        cases c <;> first | rfl | cases he
      rw [hstep]
      exact ⟨[], Spacing.behind_closed true, rfl, fun _ => hend he hs⟩

/-- A space, where none may be asked for. -/
theorem Ending.Fits.behindSpace (hs : p.Fits s) : p.spaced.Fits s := by
  cases p with
  | unbegun => exact hs
  | solid => exact ⟨hs.1.toSpaced, hs.2⟩
  | loose => exact hs

/-- **One item.**  It leaves the text ending as it says, and a text that it ends is tidy. -/
theorem Item.step (hx : Item p x q) (hst : Spacing.Behind st s) (hs : p.Fits s) :
    Settles s q (st.step x) := by
  have hnothing : st.step (.text "") = (st, []) := by
    simp [Draft.text, Draft.content, Spacing.step, Spacing.fitted]
  have hshown {c : Content} {t : String} {q : Ending} (hc : c.inline? = some t)
      (ht : Spaced t.toList) (hne : t ≠ "")
      (hfits : ∀ before, Spaced before → q.Fits (before ++ t.toList)) :
      Settles s q (st.step (.content c)) := by
    obtain ⟨before, hbefore, hbehind, htexts⟩ := Spacing.inline_spaced hst hs.spaced hc hne
    rw [Draft.content, Spacing.step_content st hc ht hne]
    exact settles_shown hbehind (hfits before hbefore) htexts
  have htidy {c : Content} {t : String} (hc : c.inline? = some t) (ht : Tidy t.toList)
      (hne : t ≠ "") : Settles s .solid (st.step (.content c)) :=
    hshown hc ht.toSpaced hne fun _ hbefore =>
      ⟨hbefore.append_tidy ht (by simpa using hne), by simp [hne]⟩
  cases hx with
  | space =>
      refine settles_nothing ⟨hst.fresh, hst.opened, fun hpending hnil => ?_, hst.unspaced⟩ hs
      simp only [hst.fresh.mpr hnil, Bool.not_true, Bool.or_false] at hpending
      exact hst.pending hpending hnil
  | nothing =>
      rw [hnothing]
      exact settles_nothing hst hs
  | blank =>
      by_cases hdrop : (st.fresh || st.spaced) = true
      · have hstep := Spacing.step_blank_dropped hdrop ""
        rw [hnothing] at hstep
        exact hstep ▸ settles_nothing hst hs.behindSpace
      · obtain ⟨hs', hne⟩ := hst.tidy hs.spaced hdrop
        obtain ⟨hbehind, htexts⟩ := Spacing.step_blank_kept s hdrop ""
        refine settles_shown hbehind ?_ htexts
        cases p with
        | unbegun => exact absurd hs hne
        | solid => exact ⟨hs'.append_blank hne ' ', by simp⟩
        | loose => exact ⟨hs'.append_blank hne ' ', by simp⟩
  | @behindBlank t ht hne =>
      by_cases hdrop : (st.fresh || st.spaced) = true
      · rw [Spacing.step_blank_dropped hdrop t]
        exact htidy rfl ht hne
      · obtain ⟨hs', hne'⟩ := hst.tidy hs.spaced hdrop
        obtain ⟨hbehind, htexts⟩ := Spacing.step_blank_kept s hdrop t
        exact settles_shown hbehind ⟨hs'.append_space hne' ht (by simpa using hne), by simp⟩ htexts
  | tidy hc ht hne => exact htidy hc ht hne
  | spaced ht hne =>
      exact hshown (c := .text _) rfl ht hne fun _ hbefore => ⟨hbefore.append ht, by simp [hne]⟩
  | boundary hp he => exact settles_boundary hst (hs.tidy hp) he

/-- **A whole draft.**  It leaves the text ending as it says, and the texts that it ends are
tidy. -/
theorem Items.settle {drafts : List Draft} (h : Items p drafts q) (hst : Spacing.Behind st s)
    (hs : p.Fits s) : Settles s q (st.settle drafts) := by
  induction h generalizing st s with
  | nil p => exact settles_nothing hst hs
  | cons first _ ih =>
      obtain ⟨s₁, hst₁, hs₁, hnow⟩ := first.step hst hs
      obtain ⟨s₂, hst₂, hs₂, hrest⟩ := ih hst₁ hs₁
      refine ⟨s₂, hst₂, hs₂, fun later hlater => ?_⟩
      simp only [Spacing.settle, List.append_assoc]
      exact hnow _ (hrest later hlater)

end Drafts

/-! ## Neat drafts -/

/-- The draft may stand behind any tidy text, and leaves one. -/
def Neat (drafts : List Draft) : Prop :=
  ∀ p, p ≠ Ending.loose → ∃ q, q ≠ Ending.loose ∧ Items p drafts q

theorem neat_nil : Neat [] :=
  fun p hp => ⟨p, hp, .nil p⟩

theorem Neat.append {a b : List Draft} (ha : Neat a) (hb : Neat b) : Neat (a ++ b) := by
  intro p hp
  obtain ⟨q, hq, hpq⟩ := ha p hp
  obtain ⟨r, hr, hqr⟩ := hb q hq
  exact ⟨r, hr, hpq.append hqr⟩

theorem neat_flatMap {α : Type} {f : α → List Draft} {l : List α} (h : ∀ a ∈ l, Neat (f a)) :
    Neat (l.flatMap f) := by
  induction l with
  | nil => exact neat_nil
  | cons a rest ih =>
      rw [List.forall_mem_cons] at h
      exact h.1.append (ih h.2)

theorem neat_space : Neat [.space] :=
  fun p hp => ⟨p, hp, .cons (.space p) (.nil p)⟩

/-- Content that shows something tidy. -/
theorem neat_tidy {c : Content} {t : String} (hc : c.inline? = some t) (ht : Tidy t.toList)
    (hne : t ≠ "") : Neat [.content c] :=
  fun p _ => ⟨.solid, nofun, .cons (.tidy p hc ht hne) (.nil _)⟩

/-- A tidy text, which may be empty. -/
theorem neat_text {t : String} (ht : Tidy t.toList) : Neat [.text t] := by
  rcases eq_or_ne t "" with rfl | hne
  · exact fun p hp => ⟨p, hp, .cons (.nothing p) (.nil p)⟩
  · exact neat_tidy rfl ht hne

theorem neat_boundary {e : Event} (he : e.isBoundary = true) : Neat [.event e] :=
  fun _ hp => ⟨.unbegun, nofun, .cons (.boundary hp he) (.nil _)⟩

/-- Content behind words that introduce it. -/
theorem neat_introduced {t u : String} {c : Content} (ht : Spaced t.toList) (hne : t ≠ "")
    (hc : c.inline? = some u) (hu : Tidy u.toList) (hne' : u ≠ "") :
    Neat [.text t, .content c] :=
  fun p _ => ⟨.solid, nofun, .cons (.spaced p ht hne) (.cons (.tidy _ hc hu hne') (.nil _))⟩

/-- **Tidy texts.**  Whatever a neat draft is settled to, its texts are tidy. -/
theorem Neat.texts {drafts : List Draft} (h : Neat drafts) :
    ∀ t ∈ Event.texts (Spacing.closed.settle drafts).2, Tidy t := by
  obtain ⟨q, hq, hitems⟩ := h .unbegun nofun
  obtain ⟨s, -, hs, hall⟩ := hitems.settle (Spacing.behind_closed false) rfl
  have hend : Event.TidyFrom s [] := by
    intro t ht
    rw [Event.textsFrom_nil, List.mem_singleton] at ht
    exact ht ▸ hs.tidy hq
  have hwhole := hall [] hend
  rwa [List.append_nil, Event.TidyFrom, Event.textsFrom_nil_left] at hwhole

end CppDoc
