import CppDoc.Page.Format
import CppDoc.Proofs.Manual.Settle

/-!
# How web pages are divided

A stream of events is written onto one page after another.  Which page comes next is decided by the
headlines alone: chapters and classes begin a page each, and a function begins one if another page
than that of its class is being written.  What has been written stays.

* `write_cases`: one event adds to the page being written, or begins a page and adds to that;
* `place`: the page that is written after some headlines; `position_written`: it is the writer's;
* `Holds` and `stands`: what stands on a page stays there;
* `headline_stands`, `function_stands` and `content_stands`: a headline stands on its page, a
  function with its anchor, and content on the page of the last headline.
-/

namespace CppDoc

/-- The name of the page that a headline stands on. -/
def Headline.page : Headline → String
  | .chapter name => pageName name
  | .classPage name => pageName name
  | .function f => pageName f.owner

namespace Html

/-! ## What is added to a page -/

/-- The markup `part` stands in `markup`. -/
def Shows (markup part : String) : Prop :=
  ∃ before after, markup = before ++ part ++ after

theorem Shows.append {markup part : String} (h : Shows markup part) (more : String) :
    Shows (markup ++ more) part := by
  obtain ⟨before, after, rfl⟩ := h
  exact ⟨before, after ++ more, by simp only [String.append_assoc]⟩

/-- The markup of an anchor. -/
def anchorMarkup (name : String) : String :=
  "<a name=\"" ++ escape name ++ "\"></a>"

namespace Sheet

/-- The sheet `s'` is `s` with more on it; anchors that have been set since then are there. -/
structure Grows (s s' : Sheet) : Prop where
  name : s'.name = s.name
  markup : ∃ more, s'.markup = s.markup ++ more
  anchors : ∀ a ∈ s'.anchors, a ∈ s.anchors ∨ Shows s'.markup (anchorMarkup a)

theorem Grows.refl (s : Sheet) : Grows s s :=
  ⟨rfl, ⟨"", by simp⟩, fun _ ha => .inl ha⟩

theorem Grows.trans {s s' s'' : Sheet} (h : Grows s s') (h' : Grows s' s'') : Grows s s'' := by
  obtain ⟨more, hmore⟩ := h.markup
  obtain ⟨more', hmore'⟩ := h'.markup
  refine ⟨h'.name.trans h.name, ⟨more ++ more', by rw [hmore', hmore, String.append_assoc]⟩,
    fun a ha => ?_⟩
  rcases h'.anchors a ha with ha | ha
  · refine (h.anchors a ha).imp_right fun hshown => ?_
    rw [hmore']
    exact hshown.append more'
  · exact .inr ha

theorem grows_put (s : Sheet) (markup : String) : Grows s (s.put markup) :=
  ⟨rfl, ⟨markup, rfl⟩, fun _ ha => .inl ha⟩

theorem grows_close (s : Sheet) : Grows s s.close := by
  unfold close
  split
  · exact ⟨rfl, ⟨_, rfl⟩, fun _ ha => .inl ha⟩
  · exact .refl s

theorem grows_enter (s : Sheet) (b : Block) : Grows s (s.enter b) :=
  ⟨rfl, ⟨_, rfl⟩, fun _ ha => .inl ha⟩

theorem grows_inline (s : Sheet) (markup : String) : Grows s (s.inline markup) := by
  unfold inline
  split
  · exact (grows_enter s _).trans (grows_put _ _)
  · exact grows_put s _

theorem grows_element (s : Sheet) (markup : String) : Grows s (s.element markup) :=
  (grows_close s).trans (grows_put _ _)

theorem grows_anchor (s : Sheet) (name : String) : Grows s (s.anchor name) := by
  unfold anchor
  split
  · exact .refl s
  · refine ⟨rfl, ⟨_, rfl⟩, fun a ha => ?_⟩
    rcases List.mem_append.mp ha with ha | ha
    · exact .inl ha
    · obtain rfl := List.mem_singleton.mp ha
      exact .inr ⟨s.markup, "", by simp [put, anchorMarkup]⟩

theorem mem_anchors_anchor (s : Sheet) (name : String) : name ∈ (s.anchor name).anchors := by
  unfold anchor
  split
  · rename_i h
    exact List.contains_iff_mem.mp h
  · exact List.mem_append_right _ (List.mem_singleton_self name)

/-- The headline of a function, with its anchor. -/
theorem grows_functionHeadline (s : Sheet) (anchor : String) :
    Grows s { (s.close.put Block.functionHeadline.opening).anchor anchor with
      block := some .functionHeadline } := by
  have hanchor := ((grows_close s).trans (grows_put _ Block.functionHeadline.opening)).trans
    (grows_anchor _ anchor)
  exact ⟨hanchor.name, hanchor.markup, hanchor.anchors⟩

/-- A finished page has all that was on the sheet. -/
theorem finish_spec (s : Sheet) (owner : Owner) :
    (s.finish owner).name = s.name ++ "." ++ extension ∧
      ∃ more, (s.finish owner).content = s.markup ++ more := by
  obtain ⟨hname, hmarkup, -⟩ := grows_element s
    ("<p class=\"rights\">This web page based on source code belonging to " ++
      (if owner.home.isEmpty then escape owner.name
        else "<a href=\"" ++ escape owner.home ++ "\">" ++ escape owner.name ++ "</a>") ++
      ". All rights reserved.</p>\n</body></html>\n")
  exact ⟨congrArg (· ++ "." ++ extension) hname, hmarkup⟩

end Sheet

/-! ## One event -/

/-- Does the headline begin a page, while the page `current` is being written? -/
def turns (current : Option String) : Headline → Bool
  | .chapter _ => true
  | .classPage _ => true
  | .function f => current != some (pageName f.owner)

namespace Writer

/-- **One event.**  It adds to the page being written, or it is a headline that begins a page and
stands on that. -/
theorem write_cases (w : Writer) (e : Event) :
    (∃ f, (∀ s, Sheet.Grows s (f s)) ∧ w.write e = w.edit f ∧
      ∀ h, e.headline? = some h → turns w.currentName h = false) ∨
    (∃ h name title f, e.headline? = some h ∧ turns w.currentName h = true ∧
      pageName name = h.page ∧ (∀ s, Sheet.Grows s (f s)) ∧
      w.write e = (w.startPage name title).edit f) := by
  cases e with
  | close => exact .inl ⟨_, Sheet.grows_close, rfl, fun _ h => nomatch h⟩
  | content c =>
      refine .inl ⟨_, fun s => ?_, rfl, fun _ h => nomatch h⟩
      split
      · exact Sheet.grows_inline s _
      · exact Sheet.grows_element s _
  | headline h =>
      cases h with
      | chapter name =>
          have hedit : w.write (.headline (.chapter name)) = (w.startPage name name).edit id := by
            simp [write, headline, edit]
          exact .inr ⟨_, name, name, id, rfl, rfl, rfl, Sheet.Grows.refl, hedit⟩
      | classPage name =>
          exact .inr ⟨_, name, classTitle name, _, rfl, rfl, rfl,
            fun s => Sheet.grows_enter s .classHeadline, rfl⟩
      | function f =>
          have hgrows (s : Sheet) := Sheet.grows_functionHeadline s f.anchor
          by_cases hcurrent : w.currentName = some (pageName f.owner)
          · refine .inl ⟨_, hgrows, by rw [write, headline, if_pos hcurrent], fun h hh => ?_⟩
            obtain rfl := Option.some.inj hh
            simp [turns, hcurrent]
          · refine .inr ⟨_, f.owner, classTitle f.owner, _, rfl, ?_, rfl, hgrows, ?_⟩
            · simp [turns, hcurrent]
            · rw [write, headline, if_neg hcurrent]

end Writer

/-! ## Which page is being written -/

/-- The number of pages finished and the name of the page being written, after one more headline. -/
def turn (p : Nat × Option String) (h : Headline) : Nat × Option String :=
  if turns p.2 h then (if p.2.isSome then p.1 + 1 else p.1, some h.page) else p

/-- The number of pages finished and the name of the page being written, after some headlines. -/
def place (headlines : List Headline) : Nat × Option String :=
  headlines.foldl turn (0, none)

theorem turn_snd (p : Nat × Option String) (h : Headline) : (turn p h).2 = some h.page := by
  unfold turn
  split
  · rfl
  · rename_i hstay
    cases h with
    | chapter name => exact absurd rfl hstay
    | classPage name => exact absurd rfl hstay
    | function f => simpa [turns, Headline.page] using hstay

/-- A headline stands on its page. -/
theorem place_concat_snd (headlines : List Headline) (h : Headline) :
    (place (headlines ++ [h])).2 = some h.page := by
  rw [place, List.foldl_append]
  exact turn_snd _ h

/-- The functions of a class all stand on one page. -/
theorem place_functions {headlines more : List Headline} {page : String}
    (hpage : (place headlines).2 = some page)
    (hmore : ∀ h ∈ more, ∃ f, h = .function f ∧ h.page = page) :
    place (headlines ++ more) = place headlines := by
  have hstay : more.foldl turn (place headlines) = place headlines := by
    refine List.foldlRecOn more turn (motive := (· = place headlines)) rfl fun p hp h hh => ?_
    obtain ⟨f, rfl, hf⟩ := hmore h hh
    have hturns : turns (place headlines).2 (.function f) = false := by
      rw [hpage, ← hf]
      simp [turns, Headline.page]
    rw [hp, turn, hturns]
    rfl
  rw [place, List.foldl_append]
  exact hstay

namespace Writer

/-- The number of pages finished, and the name of the page being written. -/
def position (w : Writer) : Nat × Option String :=
  (w.finished.length, w.currentName)

/-- Adding to a page is no turn. -/
theorem position_edit (w : Writer) {f : Sheet → Sheet} (hf : ∀ s, Sheet.Grows s (f s)) :
    (w.edit f).position = w.position := by
  simp [position, currentName, edit, Function.comp_def, fun s => (hf s).name]

theorem position_startPage (w : Writer) (name title : String) :
    (w.startPage name title).position =
      (if w.currentName.isSome then w.finished.length + 1 else w.finished.length,
        some (pageName name)) := by
  unfold position currentName startPage endPage
  cases w.current <;> simp [Sheet.blank]

/-- Only headlines turn pages. -/
theorem position_write (w : Writer) (e : Event) :
    (w.write e).position = e.headline?.toList.foldl turn w.position := by
  obtain ⟨f, hf, hwrite, hstay⟩ | ⟨h, name, title, f, hh, hturns, hname, hf, hwrite⟩ :=
    write_cases w e
  · rw [hwrite, position_edit w hf]
    cases hh : e.headline? with
    | none => rfl
    | some h =>
        have hturns : turns w.position.2 h = false := hstay h hh
        simp [turn, hturns]
  · have hturns : turns w.position.2 h = true := hturns
    rw [hwrite, position_edit _ hf, position_startPage, hh, hname]
    simp only [Option.toList_some, List.foldl_cons, List.foldl_nil, turn, hturns, if_true]
    rfl

theorem position_foldl (w : Writer) (events : List Event) :
    (events.foldl write w).position = (Event.headlines events).foldl turn w.position := by
  induction events generalizing w with
  | nil => rfl
  | cons e rest ih =>
      rw [List.foldl_cons, ih, position_write]
      cases hh : e.headline? <;> simp [Event.headlines, hh]

end Writer

/-- The writer after a stream of events. -/
def written (owner : Owner) (events : List Event) : Writer :=
  events.foldl Writer.write (.empty owner)

/-- **Turning pages.**  Which page is being written depends on the headlines alone. -/
theorem position_written (owner : Owner) (events : List Event) :
    (written owner events).position = place (Event.headlines events) :=
  Writer.position_foldl _ events

theorem written_concat (owner : Owner) (events : List Event) (e : Event) :
    written owner (events ++ [e]) = (written owner events).write e := by
  simp [written, List.foldl_append]

/-- Once there has been a headline, a page is being written. -/
theorem current_written (owner : Owner) {events : List Event} {name : String}
    (h : (place (Event.headlines events)).2 = some name) :
    ∃ s, (written owner events).current = some s ∧ s.name = name := by
  rw [← position_written owner events] at h
  exact Option.map_eq_some_iff.mp h

/-- The pages are what has been written in the end. -/
theorem pages_html (owner : Owner) (events : List Event) :
    Format.html.pages owner events = (written owner events).finish.1 := by
  have hall (w : Writer) :
      (PageWriter.html w).writeAll events = .html (events.foldl Writer.write w) := by
    induction events generalizing w with
    | nil => rfl
    | cons e rest ih => exact ih (w.write e)
  rw [Format.pages, PageWriter.empty, hall]
  rfl

/-! ## What stays -/

/-- The page number `k` has the name and begins with the markup, be it finished or not. -/
def Holds (k : Nat) (name markup : String) (w : Writer) : Prop :=
  (w.finished.length = k ∧
    ∃ s, w.current = some s ∧ s.name = name ∧ ∃ more, s.markup = markup ++ more) ∨
  ∃ page, w.finished[k]? = some page ∧ page.name = name ++ "." ++ extension ∧
    ∃ more, page.content = markup ++ more

section Holds

variable {k : Nat} {name markup : String} {w : Writer}

theorem Holds.edit (h : Holds k name markup w) {f : Sheet → Sheet}
    (hf : ∀ s, Sheet.Grows s (f s)) : Holds k name markup (w.edit f) := by
  rcases h with ⟨hlength, s, hs, hname, more, hmore⟩ | hpage
  · obtain ⟨more', hmore'⟩ := (hf s).markup
    refine .inl ⟨hlength, f s, by simp [Writer.edit, hs], (hf s).name.trans hname,
      more ++ more', ?_⟩
    rw [hmore', hmore, String.append_assoc]
  · exact .inr hpage

/-- When the page being written is finished, what it holds is on it. -/
theorem Holds.endPage (h : Holds k name markup w) :
    ∃ page, w.endPage.finished[k]? = some page ∧ page.name = name ++ "." ++ extension ∧
      ∃ more, page.content = markup ++ more := by
  rcases h with ⟨hlength, s, hs, hname, more, hmore⟩ | ⟨page, hpage, hrest⟩
  · obtain ⟨hfinish, more', hmore'⟩ := s.finish_spec w.owner
    refine ⟨s.finish w.owner, by simp [Writer.endPage, hs, ← hlength], by rw [hfinish, hname],
      more ++ more', ?_⟩
    rw [hmore', hmore, String.append_assoc]
  · refine ⟨page, ?_, hrest⟩
    unfold Writer.endPage
    split
    · exact (List.getElem?_append_left (List.getElem?_eq_some_iff.mp hpage).1).trans hpage
    · exact hpage

theorem Holds.startPage (h : Holds k name markup w) {next title : String} :
    Holds k name markup (w.startPage next title) :=
  .inr h.endPage

theorem Holds.write (h : Holds k name markup w) (e : Event) : Holds k name markup (w.write e) := by
  obtain ⟨f, hf, hwrite, -⟩ | ⟨_, _, _, f, _, _, _, hf, hwrite⟩ := Writer.write_cases w e
  · rw [hwrite]
    exact h.edit hf
  · rw [hwrite]
    exact h.startPage.edit hf

theorem Holds.foldl (h : Holds k name markup w) (events : List Event) :
    Holds k name markup (events.foldl Writer.write w) :=
  List.foldlRecOn events Writer.write h fun _ hw e _ => hw.write e

end Holds

/-- **What has been written stays.**  The page that was being written after the first part of a
stream is among the pages of the whole stream, with all that was on it. -/
theorem stands (owner : Owner) {before : List Event} (after : List Event) {s : Sheet}
    (h : (written owner before).current = some s) :
    ∃ page, (Format.html.pages owner (before ++ after))[(place (Event.headlines before)).1]? =
        some page ∧
      page.name = s.name ++ "." ++ extension ∧ ∃ more, page.content = s.markup ++ more := by
  have hlength : (written owner before).finished.length = (place (Event.headlines before)).1 :=
    congrArg Prod.fst (position_written owner before)
  have hnow : Holds (place (Event.headlines before)).1 s.name s.markup (written owner before) :=
    .inl ⟨hlength, s, h, rfl, "", by simp⟩
  have hall : written owner (before ++ after) = after.foldl Writer.write (written owner before) :=
    List.foldl_append
  rw [pages_html, hall]
  exact (hnow.foldl after).endPage

/-- Anchors that have been set are there. -/
def Anchored (w : Writer) : Prop :=
  ∀ s, w.current = some s → ∀ a ∈ s.anchors, Shows s.markup (anchorMarkup a)

theorem Anchored.edit {w : Writer} (h : Anchored w) {f : Sheet → Sheet}
    (hf : ∀ s, Sheet.Grows s (f s)) : Anchored (w.edit f) := by
  intro s' hs' a ha
  obtain ⟨s, hs, rfl⟩ := Option.map_eq_some_iff.mp hs'
  rcases (hf s).anchors a ha with ha | ha
  · obtain ⟨more, hmore⟩ := (hf s).markup
    rw [hmore]
    exact (h s hs a ha).append more
  · exact ha

theorem anchored_startPage (w : Writer) (name title : String) :
    Anchored (w.startPage name title) := by
  intro s hs a ha
  obtain rfl := Option.some.inj hs
  exact nomatch ha

theorem Anchored.write {w : Writer} (h : Anchored w) (e : Event) : Anchored (w.write e) := by
  obtain ⟨f, hf, hwrite, -⟩ | ⟨_, _, _, f, _, _, _, hf, hwrite⟩ := Writer.write_cases w e
  · rw [hwrite]
    exact h.edit hf
  · rw [hwrite]
    exact (anchored_startPage w _ _).edit hf

theorem anchored_written (owner : Owner) (events : List Event) :
    Anchored (written owner events) := by
  have hempty : Anchored (.empty owner) := fun _ hs => nomatch hs
  exact List.foldlRecOn events Writer.write hempty fun _ hw e _ => hw.write e

/-! ## Where events stand -/

/-- What an event has added stands on the page that is written after it. -/
theorem event_stands (owner : Owner) (before after : List Event) (e : Event) {name : String}
    (h : (place (Event.headlines (before ++ [e]))).2 = some name) :
    ∃ s page, ((written owner before).write e).current = some s ∧
      (Format.html.pages owner (before ++ e :: after))[
        (place (Event.headlines (before ++ [e]))).1]? = some page ∧
      page.name = name ++ "." ++ extension ∧ ∃ more, page.content = s.markup ++ more := by
  obtain ⟨s, hs, hname⟩ := current_written owner h
  obtain ⟨page, hpage, hnamed, hmore⟩ := stands owner after hs
  rw [← List.append_cons] at hpage
  rw [written_concat] at hs
  exact ⟨s, page, hs, hpage, by rw [hnamed, hname], hmore⟩

theorem headlines_concat (events : List Event) (h : Headline) :
    Event.headlines (events ++ [.headline h]) = Event.headlines events ++ [h] := by
  simp [Event.headlines, Event.headline?]

/-- A headline stands on its page. -/
theorem headline_stands (owner : Owner) (before after : List Event) (h : Headline) :
    ∃ page, (Format.html.pages owner (before ++ .headline h :: after))[
        (place (Event.headlines before ++ [h])).1]? = some page ∧
      page.name = h.page ++ "." ++ extension := by
  rw [← headlines_concat before h]
  have hplace : (place (Event.headlines (before ++ [.headline h]))).2 = some h.page := by
    rw [headlines_concat]
    exact place_concat_snd _ h
  obtain ⟨_, page, _, hpage, hname, _⟩ := event_stands owner before after (.headline h) hplace
  exact ⟨page, hpage, hname⟩

/-- The anchor of a function is set by its headline. -/
theorem mem_anchors_headline {w : Writer} {f : MemberRef} {s : Sheet}
    (h : (w.write (.headline (.function f))).current = some s) : f.anchor ∈ s.anchors := by
  obtain ⟨s₀, _, rfl⟩ := Option.map_eq_some_iff.mp h
  exact Sheet.mem_anchors_anchor _ f.anchor

/-- **Functions.**  The anchor of a function stands where its headline stands. -/
theorem function_stands (owner : Owner) (before after : List Event) (f : MemberRef) :
    ∃ page, (Format.html.pages owner (before ++ .headline (.function f) :: after))[
        (place (Event.headlines before ++ [.function f])).1]? = some page ∧
      page.name = pageName f.owner ++ "." ++ extension ∧
      Shows page.content (anchorMarkup f.anchor) := by
  rw [← headlines_concat before (.function f)]
  have hplace : (place (Event.headlines (before ++ [.headline (.function f)]))).2 =
      some (pageName f.owner) := by
    rw [headlines_concat]
    exact place_concat_snd _ (.function f)
  obtain ⟨s, page, hs, hpage, hname, more, hmore⟩ :=
    event_stands owner before after (.headline (.function f)) hplace
  have hset : Shows s.markup (anchorMarkup f.anchor) :=
    (anchored_written owner before).write _ s hs f.anchor (mem_anchors_headline hs)
  refine ⟨page, hpage, hname, ?_⟩
  rw [hmore]
  exact hset.append more

/-- Content is written onto the page. -/
theorem shows_content (s : Sheet) (c : Content) (markup : String) :
    Shows (if c.inline?.isSome then s.inline markup else s.element markup).markup markup := by
  split
  · exact ⟨_, "", String.append_empty.symm⟩
  · exact ⟨_, "", String.append_empty.symm⟩

/-- **Content.**  It stands on the page of the last headline, written as it is on that page. -/
theorem content_stands (owner : Owner) (before after : List Event) (c : Content) {name : String}
    (h : (place (Event.headlines before)).2 = some name) :
    ∃ page, (Format.html.pages owner (before ++ .content c :: after))[
        (place (Event.headlines before)).1]? = some page ∧
      page.name = name ++ "." ++ extension ∧
      Shows page.content (contentMarkup (some name) c) := by
  have hheadlines : Event.headlines (before ++ [.content c]) = Event.headlines before := by
    simp [Event.headlines, Event.headline?]
  have hcurrent : (written owner before).currentName = some name :=
    (congrArg Prod.snd (position_written owner before)).trans h
  rw [← hheadlines] at h ⊢
  obtain ⟨s, page, hs, hpage, hname, more, hmore⟩ := event_stands owner before after (.content c) h
  refine ⟨page, hpage, hname, ?_⟩
  obtain ⟨s₀, _, rfl⟩ := Option.map_eq_some_iff.mp hs
  rw [hmore, ← hcurrent]
  exact (shows_content s₀ c _).append more

end Html

end CppDoc
