import CppDoc.Proofs.Page.Split
import Mathlib.Data.List.Forall2
import Mathlib.Data.List.Induction
import Mathlib.Data.List.ModifyLast

/-!
# What stands on which page

The headlines divide a stream into **parts**, one for each page: an event goes to the part that was
begun last, unless it is a headline that begins another one.  What comes before the first headline goes
nowhere.  Each of the three writers makes one page of a part, and nothing else gets on it.

* `Part.ofEvents`: the parts of a stream, event by event; `Part.Begun`: what a part looks like;
* `Restarts`: a writer for which a page that is begun is a new start; `Restarts.foldl`: the state after
  a stream, by its parts; `Restarts.pages_foldl`: the pages;
* `Format.Carries`: a page is made of what the events of a part add to it, one after another;
* `pages_divided`: the pages of a stream in the three formats.
-/

namespace CppDoc

/-! ## Parts of a stream -/

/-- The events that go on one page. -/
structure Part where
  page : String
  events : List Event
  deriving DecidableEq, Repr

/-- The page that an event begins, while the page `current` is being written. -/
def Event.opens? (current : Option String) (e : Event) : Option String :=
  e.headline?.bind fun h => if Html.turns current h then some h.page else none

namespace Part

/-- The page of the last part. -/
def current (parts : List Part) : Option String :=
  parts.getLast?.map page

/-- The part with one more event. -/
def extend (p : Part) (e : Event) : Part :=
  { p with events := p.events ++ [e] }

/-- The parts with one more event. -/
def add (parts : List Part) (e : Event) : List Part :=
  match e.opens? (current parts) with
  | some page => parts ++ [⟨page, [e]⟩]
  | none => parts.modifyLast (·.extend e)

/-- The parts of a stream. -/
def ofEvents (events : List Event) : List Part :=
  events.foldl add []

/-- Does the page of the part have a name? -/
def isNamed (p : Part) : Bool :=
  !p.page.isEmpty

/-- A part begins with the headline that begins its page, and no other event of it begins one. -/
inductive Begun : Part → Prop
  | opened {e : Event} {page : String} (h : e.opens? none = some page) : Begun ⟨page, [e]⟩
  | extended {p : Part} {e : Event} (hp : Begun p) (h : e.opens? (some p.page) = none) :
      Begun (p.extend e)

theorem current_concat (front : List Part) (p : Part) : current (front ++ [p]) = some p.page := by
  simp [current]

theorem ofEvents_concat (events : List Event) (e : Event) :
    ofEvents (events ++ [e]) = add (ofEvents events) e := by
  simp [ofEvents, List.foldl_append]

/-- One more event begins a part. -/
theorem add_of_opens {parts : List Part} {e : Event} {page : String}
    (h : e.opens? (current parts) = some page) : add parts e = parts ++ [⟨page, [e]⟩] := by
  simp [add, h]

/-- One more event goes to the last part. -/
theorem add_of_stays (front : List Part) {p : Part} {e : Event}
    (h : e.opens? (some p.page) = none) : add (front ++ [p]) e = front ++ [p.extend e] := by
  simp [add, current_concat, h, List.modifyLast_concat]

/-- Before the first headline an event goes nowhere. -/
theorem add_nil_of_stays {e : Event} (h : e.opens? none = none) : add [] e = [] := by
  simp [add, current, h, List.modifyLast, List.modifyLast.go]

/-- A headline begins a page, if none is being written. -/
theorem opens_none {e : Event} : e.opens? none = e.headline?.map Headline.page := by
  unfold Event.opens?
  cases e.headline? with
  | none => rfl
  | some h => cases h <;> rfl

/-- Whichever page is being written, the page that an event begins is that of its headline. -/
theorem opens_none_of_opens {current : Option String} {e : Event} {page : String}
    (h : e.opens? current = some page) : e.opens? none = some page := by
  rw [opens_none]
  unfold Event.opens? at h
  obtain ⟨g, hg, hpage⟩ := Option.bind_eq_some_iff.mp h
  rw [hg]
  split at hpage
  · exact hpage
  · exact nomatch hpage

/-- The page that is being written after an event. -/
theorem pageAfter_of_opens {current : Option String} {e : Event} {page : String}
    (h : e.opens? current = some page) : e.pageAfter current = some page := by
  have hnone := opens_none_of_opens h
  rw [opens_none] at hnone
  unfold Event.pageAfter
  obtain ⟨g, hg, hpage⟩ := Option.map_eq_some_iff.mp hnone
  rw [hg, ← hpage]

theorem pageAfter_of_stays {current : Option String} {e : Event} (h : e.opens? current = none) :
    e.pageAfter current = current := by
  unfold Event.opens? at h
  unfold Event.pageAfter
  cases hg : e.headline? with
  | none => rfl
  | some g =>
      rw [hg, Option.bind_some] at h
      split at h
      · exact nomatch h
      · rename_i hstay
        exact (Html.page_of_stays (Bool.eq_false_iff.mpr hstay)).symm

/-- **One event.**  It begins a part, it goes to the last part, or it stands before the first one. -/
theorem add_cases (parts : List Part) (e : Event) :
    (∃ page, e.opens? (current parts) = some page ∧ add parts e = parts ++ [⟨page, [e]⟩]) ∨
    (∃ front p, parts = front ++ [p] ∧ e.opens? (some p.page) = none ∧
      add parts e = front ++ [p.extend e]) ∨
    (parts = [] ∧ e.headline? = none ∧ add parts e = []) := by
  cases hopens : e.opens? (current parts) with
  | some page => exact .inl ⟨page, rfl, add_of_opens hopens⟩
  | none =>
      refine .inr ?_
      rcases List.eq_nil_or_concat' parts with rfl | ⟨front, p, rfl⟩
      · refine .inr ⟨rfl, ?_, add_nil_of_stays hopens⟩
        have hnone : e.headline?.map Headline.page = none := opens_none.symm.trans hopens
        exact Option.map_eq_none_iff.mp hnone
      · rw [current_concat] at hopens
        exact .inl ⟨front, p, rfl, hopens, add_of_stays front hopens⟩

/-- Every part of a stream is begun by its first event. -/
theorem begun_of_mem (events : List Event) : ∀ p ∈ ofEvents events, Begun p := by
  induction events using List.reverseRecOn with
  | nil => exact fun p hp => absurd hp List.not_mem_nil
  | append_singleton events e ih =>
      intro p hp
      rw [ofEvents_concat] at hp
      obtain ⟨page, hopens, hadd⟩ | ⟨front, last, hparts, hstay, hadd⟩ | ⟨-, -, hadd⟩ :=
        add_cases (ofEvents events) e
      · rw [hadd] at hp
        rcases List.mem_append.mp hp with hp | hp
        · exact ih p hp
        · rw [List.mem_singleton.mp hp]
          exact .opened (opens_none_of_opens hopens)
      · rw [hadd] at hp
        rw [hparts] at ih
        rcases List.mem_append.mp hp with hp | hp
        · exact ih p (List.mem_append_left _ hp)
        · rw [List.mem_singleton.mp hp]
          exact .extended (ih last (List.mem_append_right _ (List.mem_singleton_self last))) hstay
      · rw [hadd] at hp
        exact absurd hp List.not_mem_nil

/-- **Every event has its place.**  The parts are the stream from its first headline on. -/
theorem flatMap_ofEvents (events : List Event) :
    ∃ before, events = before ++ (ofEvents events).flatMap Part.events ∧
      (∀ e ∈ before, e.headline? = none) := by
  induction events using List.reverseRecOn with
  | nil => exact ⟨[], rfl, nofun⟩
  | append_singleton events e ih =>
      obtain ⟨before, hevents, hbefore⟩ := ih
      rw [ofEvents_concat]
      obtain ⟨page, -, hadd⟩ | ⟨front, last, hparts, -, hadd⟩ | ⟨hparts, hnone, hadd⟩ :=
        add_cases (ofEvents events) e
      · refine ⟨before, ?_, hbefore⟩
        rw [hadd, List.flatMap_append, ← List.append_assoc, ← hevents]
        simp
      · refine ⟨before, ?_, hbefore⟩
        rw [hparts] at hevents
        rw [hadd]
        simpa [extend, ← List.append_assoc] using hevents
      · refine ⟨before ++ [e], ?_, fun x hx => ?_⟩
        · rw [hparts] at hevents
          rw [hadd]
          simpa using hevents
        · rcases List.mem_append.mp hx with hx | hx
          · exact hbefore x hx
          · rw [List.mem_singleton.mp hx]
            exact hnone

end Part

/-! ## Writers for which every page is a new start -/

/-- A writer that has not written anything stays so until the first headline.  When it begins a page, it
does so as if it had not written anything; the pages so far are put before the new one. -/
structure Restarts {W : Type} (empty : W) (write : W → Event → W) (currentName : W → Option String)
    (pages : W → List Page) (behind : List Page → W → W) : Prop where
  unbegun : currentName empty = none
  idle : ∀ e, e.headline? = none → write empty e = empty
  next : ∀ w e, currentName (write w e) = e.pageAfter (currentName w)
  opens : ∀ (events : List Event) e page, e.opens? (currentName (events.foldl write empty)) = some page →
    write (events.foldl write empty) e =
      behind (pages (events.foldl write empty)) (write empty e)
  write_behind : ∀ ps w e, write (behind ps w) e = behind ps (write w e)
  currentName_behind : ∀ ps w, currentName (behind ps w) = currentName w
  behind_behind : ∀ ps qs w, behind ps (behind qs w) = behind (ps ++ qs) w
  pages_behind : ∀ ps w, pages (behind ps w) = ps ++ pages w
  pages_empty : pages empty = []

namespace Restarts

variable {W : Type} {empty : W} {write : W → Event → W} {currentName : W → Option String}
  {pages : W → List Page} {behind : List Page → W → W}

/-- **Whole streams.**  The page that is being written is that of the last part; the state is that of a
writer to which only the last part has been given, behind the pages of the parts before. -/
theorem foldl (h : Restarts empty write currentName pages behind) (events : List Event) :
    currentName (events.foldl write empty) = Part.current (Part.ofEvents events) ∧
    (Part.ofEvents events = [] → events.foldl write empty = empty) ∧
    ∀ front p, Part.ofEvents events = front ++ [p] →
      events.foldl write empty =
        behind (front.flatMap fun q => pages (q.events.foldl write empty))
          (p.events.foldl write empty) := by
  induction events using List.reverseRecOn with
  | nil => exact ⟨h.unbegun, fun _ => rfl, fun front p hparts => by simp [Part.ofEvents] at hparts⟩
  | append_singleton events e ih =>
      obtain ⟨hcurrent, hempty, hlast⟩ := ih
      have hconcat : (events ++ [e]).foldl write empty = write (events.foldl write empty) e := by
        simp [List.foldl_append]
      have hnext := h.next (events.foldl write empty) e
      rw [hconcat, hnext, Part.ofEvents_concat, hcurrent]
      obtain ⟨page, hopens, hadd⟩ | ⟨front, p, hparts, hstay, hadd⟩ | ⟨hparts, hnone, hadd⟩ :=
        Part.add_cases (Part.ofEvents events) e
      · have hpages : pages (events.foldl write empty) =
            (Part.ofEvents events).flatMap fun q => pages (q.events.foldl write empty) := by
          rcases List.eq_nil_or_concat' (Part.ofEvents events) with hparts | ⟨front, p, hparts⟩
          · rw [hempty hparts, hparts, h.pages_empty, List.flatMap_nil]
          · rw [hlast front p hparts, hparts, h.pages_behind, List.flatMap_append]
            simp
        rw [hadd]
        refine ⟨?_, fun hnil => by simp at hnil, fun front' p' heq => ?_⟩
        · rw [Part.current_concat, Part.pageAfter_of_opens hopens]
        · obtain ⟨hfront, hp⟩ := List.append_inj' heq rfl
          obtain rfl := (List.cons.inj hp).1
          rw [h.opens events e page (by rw [hcurrent]; exact hopens), hpages, hfront]
          rfl
      · rw [hadd, hparts, Part.current_concat]
        refine ⟨?_, fun hnil => by simp at hnil, fun front' p' heq => ?_⟩
        · rw [Part.pageAfter_of_stays hstay, Part.current_concat]
          rfl
        · obtain ⟨rfl, hp⟩ := List.append_inj' heq rfl
          obtain rfl := (List.cons.inj hp).1
          rw [hlast front p hparts, h.write_behind]
          simp [Part.extend, List.foldl_append]
      · rw [hadd, hparts]
        refine ⟨?_, fun _ => ?_, fun front' p' heq => by simp at heq⟩
        · simp [Event.pageAfter, hnone]
        · rw [hempty hparts, h.idle e hnone]

/-- **Pages.**  The pages of a stream are those of its parts, each written by itself. -/
theorem pages_foldl (h : Restarts empty write currentName pages behind) (events : List Event) :
    pages (events.foldl write empty) =
      (Part.ofEvents events).flatMap fun p => pages (p.events.foldl write empty) := by
  obtain ⟨-, hempty, hlast⟩ := h.foldl events
  rcases List.eq_nil_or_concat' (Part.ofEvents events) with hparts | ⟨front, p, hparts⟩
  · rw [hempty hparts, hparts, h.pages_empty, List.flatMap_nil]
  · rw [hlast front p hparts, hparts, h.pages_behind, List.flatMap_append]
    simp

end Restarts

/-! ## HTML -/

namespace Html

/-- The sheet of the page that a headline begins. -/
def Sheet.first : Headline → Sheet
  | .chapter name => .blank name name
  | .classPage name => .blank name (Writer.classTitle name)
  | .function f => .blank f.owner (Writer.classTitle f.owner)

/-- What an event adds to the sheet it goes on. -/
def Sheet.add (s : Sheet) : Event → Sheet
  | .headline (.chapter _) => s
  | .headline (.classPage _) => s.enter .classHeadline
  | .headline (.function f) =>
    { (s.close.put Block.functionHeadline.opening).anchor f.anchor with
      block := some .functionHeadline }
  | .close => s.close
  | .content c =>
    let markup := contentMarkup (some s.name) c
    if c.inline?.isSome then s.inline markup else s.element markup

namespace Writer

/-- The writer behind some pages that were finished before it. -/
def behind (pages : List Page) (w : Writer) : Writer :=
  { w with finished := pages ++ w.finished }

/-- **An event that begins no page** goes on the sheet. -/
theorem write_of_stays {w : Writer} {e : Event} (h : e.opens? w.currentName = none) :
    w.write e = w.edit (·.add e) := by
  cases e with
  | close => rfl
  | content c =>
      simp only [write, edit, currentName, Sheet.add]
      cases w.current with
      | none => simp only [Option.map_none]
      | some s => simp only [Option.map_some]
  | headline g =>
      cases g with
      | chapter name => cases h
      | classPage name => cases h
      | function f =>
          have hcurrent : w.currentName = some (pageName f.owner) := by
            simpa [Event.opens?, Event.headline?, turns, Headline.page] using h
          rw [write, headline, if_pos hcurrent]
          rfl

/-- **An event that begins a page** is a headline, and it goes on a new sheet. -/
theorem write_of_opens {w : Writer} {e : Event} {page : String}
    (h : e.opens? w.currentName = some page) :
    ∃ g, e = .headline g ∧ g.page = page ∧
      w.write e = { w.endPage with current := some ((Sheet.first g).add e) } := by
  cases e with
  | close => cases h
  | content c => cases h
  | headline g =>
      have hnone := Part.opens_none_of_opens h
      rw [Part.opens_none] at hnone
      refine ⟨g, rfl, Option.some.inj hnone, ?_⟩
      cases g with
      | chapter name => simp only [write, headline, startPage, Sheet.first, Sheet.add]
      | classPage name =>
          simp only [write, headline, startPage, Sheet.first, Sheet.add, edit, Option.map_some]
      | function f =>
          have hcurrent : w.currentName ≠ some (pageName f.owner) := by
            intro heq
            simp [Event.opens?, Event.headline?, turns, heq] at h
          simp only [write, headline, if_neg hcurrent, startPage, Sheet.first, Sheet.add, edit,
            Option.map_some]

theorem endPage_behind (ps : List Page) (w : Writer) :
    (w.behind ps).endPage = w.endPage.behind ps := by
  obtain ⟨owner, finished, current⟩ := w
  cases current <;> simp [endPage, behind]

theorem owner_endPage (w : Writer) : w.endPage.owner = w.owner := by
  unfold endPage
  cases w.current <;> rfl

theorem owner_write (w : Writer) (e : Event) : (w.write e).owner = w.owner := by
  cases hopens : e.opens? w.currentName with
  | none => rw [write_of_stays hopens]; rfl
  | some page =>
      obtain ⟨g, -, -, hwrite⟩ := write_of_opens hopens
      rw [hwrite]
      exact owner_endPage w

theorem owner_written (owner : Owner) (events : List Event) :
    (events.foldl write (.empty owner)).owner = owner :=
  List.foldlRecOn events write (motive := fun w => w.owner = owner) rfl
    fun w hw e _ => (owner_write w e).trans hw

/-- Web pages: every page is begun on a new sheet. -/
theorem restarts (owner : Owner) :
    Restarts (.empty owner) write currentName (fun w => w.endPage.finished) behind where
  unbegun := rfl
  idle := by
    intro e he
    have hstay : e.opens? (currentName (.empty owner)) = none := by
      rw [show currentName (.empty owner) = none from rfl, Part.opens_none, he]
      rfl
    exact write_of_stays hstay
  next := currentName_write
  opens := by
    intro events e page h
    obtain ⟨g, hg, -, hwrite⟩ := write_of_opens h
    obtain ⟨g', heq, -, hempty⟩ :=
      write_of_opens (w := .empty owner) (Part.opens_none_of_opens h)
    obtain rfl := Event.headline.inj (hg.symm.trans heq)
    rw [hwrite, hempty]
    simp only [behind, endPage, empty, List.append_nil, Writer.mk.injEq, and_self, and_true]
    exact (owner_endPage _).trans (owner_written owner events)
  write_behind := by
    intro ps w e
    cases h : e.opens? w.currentName with
    | none =>
        have hbehind : e.opens? (w.behind ps).currentName = none := h
        rw [write_of_stays h, write_of_stays hbehind]
        rfl
    | some page =>
        have hbehind : e.opens? (w.behind ps).currentName = some page := h
        obtain ⟨g, hg, -, hwrite⟩ := write_of_opens h
        obtain ⟨g', hg', -, hwrite'⟩ := write_of_opens hbehind
        obtain rfl := Event.headline.inj (hg.symm.trans hg')
        rw [hwrite, hwrite', endPage_behind]
        rfl
  currentName_behind := fun _ _ => rfl
  behind_behind := by
    intro ps qs w
    simp [behind]
  pages_behind := by
    intro ps w
    rw [endPage_behind]
    rfl
  pages_empty := rfl

end Writer

/-- The sheet on which the events of a part have been written. -/
inductive Filled : Sheet → Part → Prop
  | first (g : Headline) : Filled ((Sheet.first g).add (.headline g)) ⟨g.page, [.headline g]⟩
  | add {s : Sheet} {p : Part} {e : Event} (h : Filled s p) (hstay : e.opens? (some p.page) = none) :
      Filled (s.add e) (p.extend e)

theorem Sheet.grows_add (s : Sheet) (e : Event) : Grows s (s.add e) := by
  cases e with
  | close => exact grows_close s
  | content c =>
      simp only [add]
      split
      · exact grows_inline s _
      · exact grows_element s _
  | headline h =>
      cases h with
      | chapter name => exact .refl s
      | classPage name => exact grows_enter s .classHeadline
      | function f => exact grows_functionHeadline s f.anchor

theorem Sheet.name_first (g : Headline) : (first g).name = g.page := by
  cases g <;> rfl

theorem Filled.name {s : Sheet} {p : Part} (h : Filled s p) : s.name = p.page := by
  induction h with
  | first g => exact ((Sheet.grows_add _ _).name).trans (Sheet.name_first g)
  | add _ _ ih => exact ((Sheet.grows_add _ _).name).trans ih

/-- A part by itself is written on one sheet. -/
theorem filled_of_begun (owner : Owner) {p : Part} (h : p.Begun) :
    ∃ s, Filled s p ∧
      p.events.foldl Writer.write (.empty owner) = { Writer.empty owner with current := some s } := by
  induction h with
  | @opened e page hopens =>
      obtain ⟨g, rfl, rfl, hwrite⟩ := Writer.write_of_opens (w := .empty owner) hopens
      exact ⟨_, .first g, hwrite⟩
  | @extended p e hp hstay ih =>
      obtain ⟨s, hs, hwritten⟩ := ih
      refine ⟨s.add e, hs.add hstay, ?_⟩
      have hcurrent : e.opens?
          (Writer.currentName { Writer.empty owner with current := some s }) = none := by
        simpa [Writer.currentName, hs.name] using hstay
      rw [Part.extend, List.foldl_append, hwritten, List.foldl_cons, List.foldl_nil,
        Writer.write_of_stays hcurrent]
      rfl

end Html

/-! ## Markdown -/

namespace Markdown.Writer

/-- The writer behind some pages that were finished before it. -/
def behind (pages : List Page) (w : Writer) : Writer :=
  { w with finished := pages ++ w.finished }

theorem put_behind (ps : List Page) (w : Writer) (text : String) :
    (w.behind ps).put text = (w.put text).behind ps := by
  obtain ⟨owner, finished, current, opened⟩ := w
  cases current <;> rfl

theorem close_behind (ps : List Page) (w : Writer) : (w.behind ps).close = w.close.behind ps := by
  obtain ⟨owner, finished, current, opened⟩ := w
  cases opened <;> rfl

theorem endPage_behind (ps : List Page) (w : Writer) :
    (w.behind ps).endPage = w.endPage.behind ps := by
  unfold endPage
  rw [close_behind]
  generalize w.close = w
  obtain ⟨owner, finished, current, opened⟩ := w
  cases current <;> simp [behind]

theorem write_behind (ps : List Page) (w : Writer) (e : Event) :
    (w.behind ps).write e = (w.write e).behind ps := by
  have hstart (w : Writer) (name : String) :
      (w.behind ps).startPage name = (w.startPage name).behind ps := by
    rw [startPage, endPage_behind]
    rfl
  have hcurrent : (w.behind ps).currentName = w.currentName := rfl
  cases e with
  | close => exact close_behind ps w
  | content c =>
      simp only [write, hcurrent]
      split
      · exact put_behind ps w _
      · rw [close_behind, put_behind, close_behind]
  | headline h =>
      cases h with
      | chapter name => exact hstart w name
      | classPage name =>
          simp only [write, headline]
          rw [hstart, put_behind]
      | function f =>
          simp only [write, headline, hcurrent]
          split
          · rw [close_behind, put_behind]
          · rw [hstart, close_behind, put_behind]

theorem owner_close (w : Writer) : w.close.owner = w.owner := by
  unfold close
  split <;> rfl

theorem opened_close (w : Writer) : w.close.opened = false := by
  unfold close
  split
  · rfl
  · rename_i h
    exact Bool.eq_false_iff.mpr h

/-- A page is begun as if nothing had been written before it. -/
theorem startPage_eq (w : Writer) (name : String) :
    w.startPage name = ((empty w.owner).startPage name).behind w.endPage.finished := by
  have howner : w.endPage.owner = w.owner := by
    unfold endPage
    cases hcurrent : w.close.current <;> simp [hcurrent, owner_close]
  have hopened : w.endPage.opened = false := by
    unfold endPage
    cases hcurrent : w.close.current <;> simp [hcurrent, opened_close]
  unfold startPage
  rw [show (empty w.owner).endPage = empty w.owner from rfl]
  simp [behind, empty, howner, hopened]

/-- **An event that begins a page** is a headline, and it goes on a new page. -/
theorem write_of_opens {w : Writer} {e : Event} {page : String}
    (h : e.opens? w.currentName = some page) :
    ∃ g, e = .headline g ∧ w.write e = ((empty w.owner).write e).behind w.endPage.finished := by
  cases e with
  | close => cases h
  | content c => cases h
  | headline g =>
      refine ⟨g, rfl, ?_⟩
      cases g with
      | chapter name => exact startPage_eq w name
      | classPage name =>
          simp only [write, headline]
          rw [startPage_eq, put_behind]
      | function f =>
          have hcurrent : w.currentName ≠ some (pageName f.owner) := by
            intro heq
            simp [Event.opens?, Event.headline?, Html.turns, heq] at h
          have hempty : (empty w.owner).currentName ≠ some (pageName f.owner) := fun h => by cases h
          simp only [write, headline, if_neg hcurrent, if_neg hempty]
          rw [startPage_eq, close_behind, put_behind]

/-- **An event that begins no page** adds to the page that is being written. -/
theorem write_of_stays {w : Writer} {e : Event} {name out : String} (hw : w.current = some (name, out))
    (h : e.opens? (some name) = none) :
    ∃ piece opened, w.write e = { w with current := some (name, out ++ piece), opened } ∧
      ∀ c, e = .content c → Html.Shows piece (contentMarkup (some name) c) := by
  have hput {w : Writer} {out : String} (hw : w.current = some (name, out)) (text : String) :
      w.put text = { w with current := some (name, out ++ text), opened := true } := by
    simp only [put, hw]
  have hclose {w : Writer} {out : String} (hw : w.current = some (name, out)) :
      ∃ piece, w.close = { w with current := some (name, out ++ piece), opened := false } := by
    obtain ⟨owner, finished, current, opened⟩ := w
    obtain rfl : current = some (name, out) := hw
    cases opened
    · exact ⟨"", by simp [close]⟩
    · exact ⟨"\n\n", by simp [close]⟩
  have hcurrent : w.currentName = some name := by simp [currentName, hw]
  cases e with
  | close =>
      obtain ⟨piece, hpiece⟩ := hclose hw
      exact ⟨piece, false, hpiece, fun _ hc => by cases hc⟩
  | content c =>
      simp only [write, hcurrent]
      split
      · refine ⟨contentMarkup (some name) c, true, hput hw _, fun c' hc' => ?_⟩
        obtain rfl := Event.content.inj hc'
        exact ⟨"", "", by simp⟩
      · obtain ⟨before, hbefore⟩ := hclose hw
        have hwritten : (w.close.put (contentMarkup (some name) c)).current =
            some (name, out ++ before ++ contentMarkup (some name) c) := by
          rw [hbefore]
          rfl
        obtain ⟨after, hafter⟩ := hclose hwritten
        refine ⟨before ++ contentMarkup (some name) c ++ after, false, ?_, fun c' hc' => ?_⟩
        · rw [hafter, hbefore]
          simp [put, String.append_assoc]
        · obtain rfl := Event.content.inj hc'
          exact ⟨before, after, rfl⟩
  | headline g =>
      cases g with
      | chapter _ => cases h
      | classPage _ => cases h
      | function f =>
          have hown : name = pageName f.owner := by
            simpa [Event.opens?, Event.headline?, Html.turns, Headline.page] using h
          obtain ⟨before, hbefore⟩ := hclose hw
          simp only [write, headline, hcurrent, hown, if_true]
          refine ⟨before ++ ("<a name=\"" ++ f.anchor ++ "\"></a>\n\n### "), true, ?_, fun _ hc => by cases hc⟩
          rw [hbefore]
          simp [put, hown, String.append_assoc]

theorem owner_write (w : Writer) (e : Event) : (w.write e).owner = w.owner := by
  have hput (w : Writer) (text : String) : (w.put text).owner = w.owner := by
    unfold put
    split <;> rfl
  have hstart (w : Writer) (name : String) : (w.startPage name).owner = w.owner := by
    rw [startPage_eq]
    rfl
  cases e with
  | close => exact owner_close w
  | content c =>
      simp only [write]
      split
      · exact hput w _
      · rw [owner_close, hput, owner_close]
  | headline h =>
      cases h with
      | chapter name => exact hstart w name
      | classPage name => exact (hput _ _).trans (hstart w name)
      | function f =>
          simp only [write, headline]
          rw [hput, owner_close]
          split
          · rfl
          · exact hstart w f.owner

theorem owner_written (owner : Owner) (events : List Event) :
    (events.foldl write (.empty owner)).owner = owner :=
  List.foldlRecOn events write (motive := fun w => w.owner = owner) rfl
    fun w hw e _ => (owner_write w e).trans hw

/-- Markdown pages: every page is begun as if nothing had been written. -/
theorem restarts (owner : Owner) :
    Restarts (.empty owner) write currentName (fun w => w.endPage.finished) behind where
  unbegun := rfl
  idle := by
    intro e he
    cases e with
    | close => rfl
    | content c =>
        simp only [write]
        split <;> rfl
    | headline h => cases he
  next := fun w e => splits.stays w _ e rfl
  opens := by
    intro events e page h
    obtain ⟨g, -, hwrite⟩ := write_of_opens h
    rw [hwrite, owner_written]
  write_behind := write_behind
  currentName_behind := fun _ _ => rfl
  behind_behind := by
    intro ps qs w
    simp [behind]
  pages_behind := by
    intro ps w
    rw [endPage_behind]
    rfl
  pages_empty := rfl

end Markdown.Writer

/-! ## JSON -/

namespace Part

/-- Two lists of parts that do not differ in what has a name. -/
structure Alike (parts parts' : List Part) : Prop where
  named : parts.filter isNamed = parts'.filter isNamed
  current : (current parts).getD "" = (current parts').getD ""

theorem Alike.refl (parts : List Part) : Alike parts parts := ⟨rfl, rfl⟩

theorem Alike.trans {a b c : List Part} (h : Alike a b) (h' : Alike b c) : Alike a c :=
  ⟨h.named.trans h'.named, h.current.trans h'.current⟩

/-- The named parts with one more event, while `page` is being written. -/
def addNamed (parts : List Part) (page : String) (e : Event) : List Part :=
  match e.opens? (some page) with
  | some next => if next = "" then parts else parts ++ [⟨next, [e]⟩]
  | none => if page = "" then parts else parts.modifyLast (·.extend e)

theorem filter_add (parts : List Part) (e : Event) :
    (add parts e).filter isNamed =
      addNamed (parts.filter isNamed) ((current parts).getD "") e := by
  have hone (page : String) :
      [(⟨page, [e]⟩ : Part)].filter isNamed = if page = "" then [] else [⟨page, [e]⟩] := by
    by_cases hpage : page = "" <;> simp [isNamed, hpage]
  obtain ⟨page, hopens, hadd⟩ | ⟨front, p, rfl, hstay, hadd⟩ | ⟨rfl, hnone, hadd⟩ := add_cases parts e
  · rw [hadd, List.filter_append, hone]
    cases hcurrent : current parts with
    | some name =>
        rw [hcurrent] at hopens
        simp only [Option.getD_some, addNamed, hopens]
        split <;> simp
    | none =>
        -- Only the headline of a function tells no page from a page without a name.
        rw [hcurrent] at hopens
        rw [Option.getD_none]
        cases hstay : e.opens? (some "") with
        | some next =>
            have heq := (opens_none_of_opens hstay).symm.trans hopens
            obtain rfl := Option.some.inj heq
            simp only [addNamed, hstay]
            split <;> simp
        | none =>
            have hafter := pageAfter_of_stays hstay
            have hpage := pageAfter_of_opens hopens
            have hempty : page = "" := by
              rw [opens_none] at hopens
              obtain ⟨g, hg, rfl⟩ := Option.map_eq_some_iff.mp hopens
              simpa [Event.pageAfter, hg] using hafter
            simp [addNamed, hstay, hempty]
  · rw [hadd, current_concat, Option.getD_some, addNamed, hstay]
    by_cases hpage : p.page = ""
    · simp [isNamed, hpage, extend]
    · have hp : isNamed p = true := by simp [isNamed, hpage]
      have hextend : isNamed (p.extend e) = true := hp
      simp only [if_neg hpage, List.filter_append, List.filter_cons_of_pos hp,
        List.filter_cons_of_pos hextend, List.filter_nil, List.modifyLast_concat]
  · have hstay : e.opens? (some "") = none := by simp [Event.opens?, hnone]
    rw [hadd]
    simp [addNamed, hstay, current]

theorem current_add (parts : List Part) (e : Event) :
    (current (add parts e)).getD "" = (e.pageAfter (some ((current parts).getD ""))).getD "" := by
  obtain ⟨page, hopens, hadd⟩ | ⟨front, p, rfl, hstay, hadd⟩ | ⟨rfl, hnone, hadd⟩ := add_cases parts e
  · have hnone := opens_none_of_opens hopens
    rw [opens_none] at hnone
    obtain ⟨g, hg, rfl⟩ := Option.map_eq_some_iff.mp hnone
    rw [hadd, current_concat]
    simp [Event.pageAfter, hg]
  · rw [hadd, current_concat, current_concat, Option.getD_some, Option.getD_some,
      pageAfter_of_stays hstay]
    rfl
  · rw [hadd]
    simp [Event.pageAfter, hnone, current]

theorem Alike.add {parts parts' : List Part} (h : Alike parts parts') (e : Event) :
    Alike (add parts e) (add parts' e) where
  named := by rw [filter_add, filter_add, h.named, h.current]
  current := by rw [current_add, current_add, h.current]

end Part

namespace Json.Writer

/-- The pages begun so far, as parts. -/
def parts (w : Writer) : List Part :=
  w.sheets.map fun (page, events) => ⟨page, events⟩

theorem currentName_eq (w : Writer) : w.currentName = Part.current w.parts := by
  simp [currentName, Part.current, parts, Function.comp_def]

theorem parts_startPage_put (w : Writer) (name : String) (e : Event) :
    ((w.startPage name).put e).parts = w.parts ++ [⟨pageName name, [e]⟩] := by
  simp [startPage, put, parts]

/-- **One event.**  It goes where it goes in the parts; what stands before the first headline makes no
difference to what has a name. -/
theorem alike_write (w : Writer) (e : Event) : Part.Alike (w.write e).parts (Part.add w.parts e) := by
  obtain ⟨hwrite, hstay⟩ | ⟨h, name, hh, hturns, hname, hwrite⟩ := write_cases w e
  · have hopens : e.opens? (Part.current w.parts) = none := by
      rw [← currentName_eq]
      unfold Event.opens?
      cases hh : e.headline? with
      | none => rfl
      | some h => simp [hstay h hh]
    rw [hwrite]
    rcases List.eq_nil_or_concat' w.sheets with hnil | ⟨front, ⟨page, events⟩, hlast⟩
    · have hparts : w.parts = [] := by simp [parts, hnil]
      have hput : (w.put e).parts = [⟨"", [e]⟩] := by simp [put, hnil, parts]
      rw [hparts] at hopens ⊢
      rw [hput, Part.add_nil_of_stays hopens]
      exact ⟨rfl, rfl⟩
    · have hparts : w.parts = (Writer.mk front).parts ++ [⟨page, events⟩] := by simp [parts, hlast]
      have hput : (w.put e).parts = (Writer.mk front).parts ++ [Part.extend ⟨page, events⟩ e] := by
        simp [put, hlast, parts, Part.extend]
      rw [hparts, Part.current_concat] at hopens
      rw [hput, hparts, Part.add_of_stays _ hopens]
      exact .refl _
  · have hopens : e.opens? (Part.current w.parts) = some (pageName name) := by
      rw [← currentName_eq]
      simp [Event.opens?, hh, hturns, hname]
    rw [hwrite, parts_startPage_put, Part.add_of_opens hopens]
    exact .refl _

/-- **Whole streams.** -/
theorem alike_foldl (events : List Event) :
    Part.Alike (events.foldl write empty).parts (Part.ofEvents events) := by
  induction events using List.reverseRecOn with
  | nil => exact .refl []
  | append_singleton events e ih =>
      rw [Part.ofEvents_concat, List.foldl_append]
      exact (alike_write _ e).trans (ih.add e)

/-- The pages that are handed out, by the named parts. -/
theorem finish_eq (w : Writer) :
    w.finish.1 = (w.parts.filter Part.isNamed).map fun p =>
      { name := Format.json.fileName p.page, content := renderPage p.page p.events } := by
  rw [parts, List.filter_map, List.map_map]
  rfl

end Json.Writer

end CppDoc
