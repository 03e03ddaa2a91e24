import CppDoc.Proofs.Page.Html

/-!
# Every format is divided alike

The three page writers keep their pages in different ways, but the headlines alone decide which pages
there are, and they decide it alike for all of them.  Only pages without a name are handled
differently: JSON pages have one for what comes before the first headline, and hand out none of them.

* `begun`: the pages that headlines begin;
* `Splits`: a writer begins these pages, event by event; `Splits.foldl`: over a whole stream;
* `Html.splits`, `Markdown.splits` and `Json.splits`: the three writers;
* `names_pages`: the file names of the pages of a stream.
-/

namespace CppDoc

/-! ## The pages that headlines begin -/

/-- The names of the pages that headlines begin, while the page `current` is being written. -/
def begun (current : Option String) : List Headline → List String
  | [] => []
  | h :: rest => (if Html.turns current h then [h.page] else []) ++ begun (some h.page) rest

/-- The page that is written after an event, if `current` was written before it. -/
def Event.pageAfter (current : Option String) (e : Event) : Option String :=
  match e.headline? with
  | some h => some h.page
  | none => current

/-- The pages that an event begins. -/
def Event.begins (current : Option String) (e : Event) : List String :=
  begun current e.headline?.toList

theorem begun_append (current : Option String) (hs more : List Headline) :
    begun current (hs ++ more) =
      begun current hs ++ begun (hs.foldl (fun _ h => some h.page) current) more := by
  induction hs generalizing current with
  | nil => rfl
  | cons h hs ih =>
      rw [List.cons_append, begun, begun, ih, List.append_assoc]
      rfl

/-- A headline that begins no page stands on the page that is being written. -/
theorem Html.page_of_stays {current : Option String} {h : Headline}
    (hstay : turns current h = false) : current = some h.page := by
  cases h with
  | chapter name => exact nomatch hstay
  | classPage name => exact nomatch hstay
  | function f => simpa [turns, Headline.page] using hstay

/-- Every headline stands on a page that is begun, or on the page that was being written. -/
theorem page_mem_begun {current : Option String} {hs : List Headline} {h : Headline} (hmem : h ∈ hs) :
    h.page ∈ begun current hs ∨ current = some h.page := by
  induction hs generalizing current with
  | nil => exact absurd hmem List.not_mem_nil
  | cons first rest ih =>
      have hfirst : first.page ∈ begun current (first :: rest) ∨ current = some first.page := by
        cases hturns : Html.turns current first with
        | true =>
            refine .inl ?_
            rw [begun, hturns]
            exact List.mem_append_left _ (List.mem_singleton_self _)
        | false =>
            exact .inr (Html.page_of_stays hturns)
      rcases List.mem_cons.mp hmem with rfl | hmem
      · exact hfirst
      · have hrest : h.page ∈ begun (some first.page) rest ∨ some first.page = some h.page :=
          ih hmem
        rcases hrest with hlater | hsame
        · refine .inl ?_
          rw [begun]
          exact List.mem_append_right _ hlater
        · rw [← Option.some.inj hsame]
          exact hfirst

/-- An event that turns no page begins none. -/
theorem begun_of_stays {current : Option String} {e : Event}
    (hstay : ∀ h, e.headline? = some h → Html.turns current h = false) :
    begun current e.headline?.toList = [] := by
  cases hh : e.headline? with
  | none => rfl
  | some h => simp [begun, hstay h hh]

/-- The file of the page `name`. -/
def Format.fileName (format : Format) (name : String) : String :=
  name ++ "." ++ format.extension

/-- The files that are made of the page `name`: none in JSON, if the name is empty. -/
def Format.files (format : Format) (name : String) : List String :=
  if format = .json ∧ name = "" then [] else [format.fileName name]

/-! ## Writers that begin these pages -/

/-- A writer begins the pages that the headlines begin.  `At w current` relates its state to the
page being written, `names` are the pages it has begun, and `named` is what it makes of a name. -/
structure Splits {W : Type} (write : W → Event → W) (names : W → List String)
    (named : String → List String) (At : W → Option String → Prop) : Prop where
  stays : ∀ w current e, At w current → At (write w e) (e.pageAfter current)
  begins : ∀ w current e, At w current →
    names (write w e) = names w ++ (e.begins current).flatMap named

/-- **Whole streams.**  The pages that a writer begins are those of the headlines. -/
theorem Splits.foldl {W : Type} {write : W → Event → W} {names : W → List String}
    {named : String → List String} {At : W → Option String → Prop}
    (h : Splits write names named At) {w : W} {current : Option String} (hw : At w current)
    (events : List Event) :
    names (events.foldl write w) =
      names w ++ (begun current (Event.headlines events)).flatMap named := by
  induction events generalizing w current with
  | nil => exact (List.append_nil _).symm
  | cons e rest ih =>
      have hnext := h.stays w current e hw
      have hcons : begun current (Event.headlines (e :: rest)) =
          e.begins current ++ begun (e.pageAfter current) (Event.headlines rest) := by
        unfold Event.begins Event.pageAfter Event.headlines
        cases hh : e.headline? with
        | none => simp [hh, begun]
        | some g => simp [hh, begun]
      rw [List.foldl_cons, ih hnext, h.begins w current e hw, hcons, List.flatMap_append,
        List.append_assoc]

/-! ## HTML -/

namespace Html

namespace Writer

/-- The files of the pages begun so far. -/
def names (w : Writer) : List String :=
  w.finished.map Page.name ++ w.currentName.toList.map Format.html.fileName

theorem names_edit (w : Writer) {f : Sheet → Sheet} (hf : ∀ s, Sheet.Grows s (f s)) :
    (w.edit f).names = w.names := by
  simp [names, currentName, edit, Function.comp_def, fun s => (hf s).name]

theorem names_endPage (w : Writer) : w.endPage.finished.map Page.name = w.names := by
  unfold endPage names currentName
  cases w.current with
  | none => simp
  | some s =>
      have hname := (s.finish_spec w.owner).1
      simp [hname, Format.fileName, Format.extension]

theorem names_startPage (w : Writer) (name title : String) :
    (w.startPage name title).names = w.names ++ [Format.html.fileName (pageName name)] := by
  rw [← names_endPage w]
  rfl

theorem currentName_write (w : Writer) (e : Event) :
    (w.write e).currentName = e.pageAfter w.currentName := by
  have hposition := congrArg Prod.snd (position_write w e)
  refine hposition.trans ?_
  unfold Event.pageAfter
  cases e.headline? with
  | none => rfl
  | some h => exact turn_snd _ h

end Writer

/-- Web pages. -/
theorem splits : Splits Writer.write Writer.names Format.html.files
    (fun w current => w.currentName = current) where
  stays := by
    intro w current e hw
    rw [Writer.currentName_write, hw]
  begins := by
    intro w current e hw
    subst hw
    unfold Event.begins
    obtain ⟨f, hf, hwrite, hstay⟩ | ⟨h, name, title, f, hh, hturns, hname, hf, hwrite⟩ :=
      Writer.write_cases w e
    · rw [hwrite, Writer.names_edit w hf, begun_of_stays hstay, List.flatMap_nil, List.append_nil]
    · rw [hwrite, Writer.names_edit _ hf, Writer.names_startPage, hname, hh]
      simp [begun, hturns, Format.files]

end Html

/-! ## Markdown -/

namespace Markdown

namespace Writer

/-- The files of the pages begun so far. -/
def names (w : Writer) : List String :=
  w.finished.map Page.name ++ w.currentName.toList.map Format.markdown.fileName

/-- The writer `w'` is `w` with more on the page being written. -/
structure Adds (w w' : Writer) : Prop where
  finished : w'.finished = w.finished
  currentName : w'.currentName = w.currentName

theorem Adds.trans {w w' w'' : Writer} (h : Adds w w') (h' : Adds w' w'') : Adds w w'' :=
  ⟨h'.finished.trans h.finished, h'.currentName.trans h.currentName⟩

theorem Adds.names {w w' : Writer} (h : Adds w w') : w'.names = w.names := by
  unfold Writer.names
  rw [h.finished, h.currentName]

theorem adds_put (w : Writer) (text : String) : Adds w (w.put text) := by
  unfold put
  split
  · rename_i name out hcurrent
    exact ⟨rfl, by simp [Writer.currentName, hcurrent]⟩
  · exact ⟨rfl, rfl⟩

theorem adds_close (w : Writer) : Adds w w.close := by
  unfold close
  split
  · exact ⟨rfl, by simp [Writer.currentName, Function.comp_def]⟩
  · exact ⟨rfl, rfl⟩

theorem names_endPage (w : Writer) : w.endPage.finished.map Page.name = w.names := by
  rw [← (adds_close w).names]
  unfold endPage names currentName
  cases hcurrent : w.close.current with
  | none => simp [hcurrent]
  | some page => simp [hcurrent, Format.fileName, Format.extension]

theorem names_startPage (w : Writer) (name : String) :
    (w.startPage name).names = w.names ++ [Format.markdown.fileName (pageName name)] := by
  rw [← names_endPage w]
  rfl

theorem currentName_startPage (w : Writer) (name : String) :
    (w.startPage name).currentName = some (pageName name) := rfl

/-- **One event.**  It adds to the page being written, or it is a headline that begins a page and
stands on that. -/
theorem write_cases (w : Writer) (e : Event) :
    (Adds w (w.write e) ∧ ∀ h, e.headline? = some h → Html.turns w.currentName h = false) ∨
    (∃ h name, e.headline? = some h ∧ Html.turns w.currentName h = true ∧ pageName name = h.page ∧
      Adds (w.startPage name) (w.write e)) := by
  cases e with
  | close => exact .inl ⟨adds_close w, nofun⟩
  | content c =>
      refine .inl ⟨?_, nofun⟩
      simp only [write]
      split
      · exact adds_put w _
      · exact ((adds_close w).trans (adds_put _ _)).trans (adds_close _)
  | headline h =>
      cases h with
      | chapter name => exact .inr ⟨_, name, rfl, rfl, rfl, rfl, rfl⟩
      | classPage name => exact .inr ⟨_, name, rfl, rfl, rfl, adds_put _ _⟩
      | function f =>
          have hadds (w : Writer) (text : String) : Adds w (w.close.put text) :=
            (adds_close w).trans (adds_put _ text)
          by_cases hcurrent : w.currentName = some (pageName f.owner)
          · refine .inl ⟨?_, fun h hh => ?_⟩
            · rw [write, headline, if_pos hcurrent]
              exact hadds w _
            · obtain rfl := Option.some.inj hh
              simp [Html.turns, hcurrent]
          · refine .inr ⟨_, f.owner, rfl, ?_, rfl, ?_⟩
            · simp [Html.turns, hcurrent]
            · rw [write, headline, if_neg hcurrent]
              exact hadds _ _

end Writer

/-- Markdown pages. -/
theorem splits : Splits Writer.write Writer.names Format.markdown.files
    (fun w current => w.currentName = current) where
  stays := by
    intro w current e hw
    subst hw
    unfold Event.pageAfter
    obtain ⟨hadds, hstay⟩ | ⟨h, name, hh, -, hname, hadds⟩ := Writer.write_cases w e
    · rw [hadds.currentName]
      cases hh : e.headline? with
      | none => rfl
      | some h => exact Html.page_of_stays (hstay h hh)
    · rw [hadds.currentName, hh, Writer.currentName_startPage, hname]
  begins := by
    intro w current e hw
    subst hw
    unfold Event.begins
    obtain ⟨hadds, hstay⟩ | ⟨h, name, hh, hturns, hname, hadds⟩ := Writer.write_cases w e
    · rw [hadds.names, begun_of_stays hstay, List.flatMap_nil, List.append_nil]
    · rw [hadds.names, Writer.names_startPage, hname, hh]
      simp [begun, hturns, Format.files]

end Markdown

/-! ## JSON -/

namespace Json

namespace Writer

/-- The files of the pages begun so far that have a name. -/
def names (w : Writer) : List String :=
  (w.sheets.map Prod.fst).flatMap Format.json.files

/-- An event is added to the page being written, or to a page without a name. -/
theorem sheets_put (w : Writer) (e : Event) :
    (w.put e).sheets.map Prod.fst =
      if w.sheets = [] then [""] else w.sheets.map Prod.fst := by
  unfold put
  cases hlast : w.sheets.getLast? with
  | none =>
      rw [if_pos (List.getLast?_eq_none_iff.mp hlast)]
      rfl
  | some last =>
      obtain ⟨before, hbefore⟩ := List.getLast?_eq_some_iff.mp hlast
      rw [if_neg (by rw [hbefore]; exact List.append_ne_nil_of_right_ne_nil _ (List.cons_ne_nil _ _))]
      simp [hbefore]

theorem names_put (w : Writer) (e : Event) : (w.put e).names = w.names := by
  unfold names
  rw [sheets_put]
  split
  · rename_i hnone
    rw [hnone]
    decide
  · rfl

theorem currentName_put (w : Writer) (e : Event) :
    (w.put e).currentName = some (w.currentName.getD "") := by
  have hcurrent (w : Writer) : w.currentName = (w.sheets.map Prod.fst).getLast? := by
    simp [Writer.currentName]
  rw [hcurrent, sheets_put, hcurrent]
  split
  · rename_i hnone
    rw [hnone]
    rfl
  · rename_i hsome
    have hne : w.sheets.map Prod.fst ≠ [] := fun h => hsome (List.map_eq_nil_iff.mp h)
    rw [List.getLast?_eq_some_getLast hne]
    rfl

theorem names_startPage (w : Writer) (name : String) :
    (w.startPage name).names = w.names ++ Format.json.files (pageName name) := by
  simp [names, startPage]

theorem currentName_startPage (w : Writer) (name : String) :
    (w.startPage name).currentName = some (pageName name) := by
  simp [currentName, startPage]

/-- **One event.**  It goes to the page being written, or to a page that it begins. -/
theorem write_cases (w : Writer) (e : Event) :
    (w.write e = w.put e ∧ ∀ h, e.headline? = some h → Html.turns w.currentName h = false) ∨
    (∃ h name, e.headline? = some h ∧ Html.turns w.currentName h = true ∧ pageName name = h.page ∧
      w.write e = (w.startPage name).put e) := by
  cases e with
  | close => exact .inl ⟨rfl, nofun⟩
  | content c => exact .inl ⟨rfl, nofun⟩
  | headline h =>
      cases h with
      | chapter name => exact .inr ⟨_, name, rfl, rfl, rfl, rfl⟩
      | classPage name => exact .inr ⟨_, name, rfl, rfl, rfl, rfl⟩
      | function f =>
          by_cases hcurrent : w.currentName = some (pageName f.owner)
          · refine .inl ⟨?_, fun h hh => ?_⟩
            · simp [write, hcurrent]
            · obtain rfl := Option.some.inj hh
              simp [Html.turns, hcurrent]
          · refine .inr ⟨_, f.owner, rfl, ?_, rfl, ?_⟩
            · simp [Html.turns, hcurrent]
            · simp [write, hcurrent]

end Writer

/-- What is handed out is what has a name. -/
theorem names_finish (w : Writer) : w.finish.1.map Page.name = w.names := by
  unfold Writer.finish Writer.names
  induction w.sheets with
  | nil => rfl
  | cons sheet rest ih =>
      obtain ⟨name, events⟩ := sheet
      by_cases hname : name = ""
      · simpa [hname, Format.files] using ih
      · simpa [hname, Format.files, Format.fileName, Format.extension] using ih

/-- For the pages that have a name, no page and a page without a name are the same. -/
theorem files_begun {c c' : Option String} (hsame : c.getD "" = c'.getD "") (h : Headline) :
    (begun c [h]).flatMap Format.json.files = (begun c' [h]).flatMap Format.json.files := by
  have hnone (h : Headline) :
      (begun none [h]).flatMap Format.json.files = (begun (some "") [h]).flatMap Format.json.files := by
    cases h with
    | chapter name => rfl
    | classPage name => rfl
    | function f =>
        by_cases hpage : pageName f.owner = ""
        · simp [begun, Html.turns, Headline.page, hpage, Format.files]
        · simp [begun, Html.turns, Ne.symm hpage]
  cases c with
  | none =>
      cases c' with
      | none => rfl
      | some name' =>
          have hempty : name' = "" := hsame.symm
          rw [hempty, hnone]
  | some name =>
      cases c' with
      | none =>
          have hempty : name = "" := hsame
          rw [hempty, hnone]
      | some name' =>
          have heq : name = name' := hsame
          rw [heq]

/-- JSON pages.  Before the first headline, a page without a name may be written. -/
theorem splits : Splits Writer.write Writer.names Format.json.files
    (fun w current => w.currentName.getD "" = current.getD "") where
  stays := by
    intro w current e hw
    unfold Event.pageAfter
    obtain ⟨hwrite, hstay⟩ | ⟨h, name, hh, -, hname, hwrite⟩ := Writer.write_cases w e
    · rw [hwrite, Writer.currentName_put]
      cases hh : e.headline? with
      | none => exact hw
      | some h =>
          have hcurrent := Html.page_of_stays (hstay h hh)
          rw [hcurrent]
          rfl
    · rw [hwrite, Writer.currentName_put, Writer.currentName_startPage, hh, hname]
      rfl
  begins := by
    intro w current e hw
    have hown : (w.write e).names =
        w.names ++ (e.begins w.currentName).flatMap Format.json.files := by
      unfold Event.begins
      obtain ⟨hwrite, hstay⟩ | ⟨h, name, hh, hturns, hname, hwrite⟩ := Writer.write_cases w e
      · rw [hwrite, Writer.names_put, begun_of_stays hstay, List.flatMap_nil, List.append_nil]
      · rw [hwrite, Writer.names_put, Writer.names_startPage, hname, hh]
        simp [begun, hturns]
    rw [hown]
    unfold Event.begins
    cases e.headline? with
    | none => rfl
    | some h => exact congrArg (w.names ++ ·) (files_begun hw h)

end Json

/-! ## Whole streams -/

/-- Writing a stream is left to the writer of the format. -/
theorem writeAll_html (w : Html.Writer) (events : List Event) :
    (PageWriter.html w).writeAll events = .html (events.foldl Html.Writer.write w) :=
  List.foldl_hom PageWriter.html fun _ _ => rfl

theorem writeAll_markdown (w : Markdown.Writer) (events : List Event) :
    (PageWriter.markdown w).writeAll events = .markdown (events.foldl Markdown.Writer.write w) :=
  List.foldl_hom PageWriter.markdown fun _ _ => rfl

theorem writeAll_json (w : Json.Writer) (events : List Event) :
    (PageWriter.json w).writeAll events = .json (events.foldl Json.Writer.write w) :=
  List.foldl_hom PageWriter.json fun _ _ => rfl

/-- **Pages.**  In each format, the files of the pages of a stream are those of the pages that its
headlines begin. -/
theorem names_pages (format : Format) (owner : Owner) (events : List Event) :
    (format.pages owner events).map Page.name =
      (begun none (Event.headlines events)).flatMap format.files := by
  unfold Format.pages
  cases format with
  | html =>
      rw [PageWriter.empty, writeAll_html]
      refine (Html.Writer.names_endPage _).trans ?_
      exact Html.splits.foldl (w := .empty owner) rfl events
  | markdown =>
      rw [PageWriter.empty, writeAll_markdown]
      refine (Markdown.Writer.names_endPage _).trans ?_
      exact Markdown.splits.foldl (w := .empty owner) rfl events
  | json =>
      rw [PageWriter.empty, writeAll_json]
      refine (Json.names_finish _).trans ?_
      exact Json.splits.foldl (w := .empty) rfl events

end CppDoc
