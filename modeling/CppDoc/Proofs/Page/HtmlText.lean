import CppDoc.Proofs.Page.Carried
import CppDoc.Proofs.Page.Markup

/-!
# The text of a web page

A page is read as tags of the writer's own and the letters between them; the tags are nested, and the
letters are the texts of the events.

* `Shown`: the text that events show, line by line, independently of any markup;
* `Fits`: what a piece of markup does wherever it stands on a page: which elements it closes and opens,
  which text it shows, and which anchors it sets.  `Fits.append` puts two pieces together;
* `fits_content`: the markup of content;
* `Sound`: what is on a sheet, and `Sound.add`: after one more event;
* `pages_readable`: the finished pages.
-/

namespace CppDoc

/-! ## What events show -/

/-- The text that content shows, with the label of a warning or a note. -/
def Content.shown : Content → String
  | .text t | .argument t | .classLink t _ | .functionLink t _ | .code t | .heading _ t => t
  | .link _ title => title
  | .warning t => "Warning: " ++ t
  | .note t => "Note: " ++ t

/-- The text shown so far, and whether its last line is still open. -/
structure Shown where
  text : String
  opened : Bool
  deriving DecidableEq, Repr

namespace Shown

/-- A new page; the first line is empty. -/
def blank : Shown :=
  ⟨"\n", false⟩

/-- Ends the line, if one is open. -/
def endLine (r : Shown) : Shown :=
  if r.opened then ⟨r.text ++ "\n", false⟩ else r

/-- Shows one event.  Content that stands in a paragraph goes on the open line, and the other content
has a line of its own. -/
def add (r : Shown) : Event → Shown
  | .headline (.chapter _) => r
  | .headline (.classPage _) => { r with opened := true }
  | .headline (.function _) => { r.endLine with opened := true }
  | .close => r.endLine
  | .content c =>
    if c.inline?.isSome then ⟨r.text ++ c.shown, true⟩ else ⟨r.endLine.text ++ c.shown ++ "\n", false⟩

end Shown

/-- The text that the events of a part show. -/
def Part.shown (p : Part) : String :=
  (p.events.foldl Shown.add .blank).endLine.text

/-- The anchor that an event asks for. -/
def Event.anchor? : Event → Option String
  | .headline (.function f) => some f.anchor
  | _ => none

/-- Is the event a block of code? -/
def Event.isCode : Event → Bool
  | .content (.code _) => true
  | _ => false

namespace Html

/-! ## Pieces of a page -/

/-- The tag that opens the notice at the end of a page. -/
def noticeTag : Tag :=
  ⟨"p", [("class", letters "rights")]⟩

/-- The elements that the writer makes, with their attributes. -/
def ownTags : List (String × List String) :=
  [("html", ["lang"]), ("head", []), ("meta", ["charset"]), ("title", []),
    ("link", ["rel", "href", "type"]), ("body", []), ("h1", ["class"]), ("h2", ["class"]), ("h3", []),
    ("h4", []), ("h5", []), ("p", ["class"]), ("b", []), ("i", []), ("span", ["class"]),
    ("a", ["href"]), ("a", ["name"])]

/-- No tag comes from a text. -/
def Token.isOwn : Token → Bool
  | .opening t => ownTags.contains (t.element, t.attributes.map Prod.fst)
  | _ => true

/-- May the token stand in the content of a page? -/
def Token.isContent (t : Token) : Bool :=
  t.isOwn && t.isEscaped && t != .opening noticeTag

/-- Where the elements `before` are open, the markup leaves `after` open; it shows `text` and sets
`anchors`. -/
def Fits (markup : String) (before after : List String) (text : String) (anchors : List String) : Prop :=
  ∃ ts, Runs .text markup.toList ts .text ∧
    (∀ below, nest (before ++ below) ts = some (after ++ below)) ∧
    (∀ t ∈ ts, t.isContent = true) ∧ textOf ts = text ∧ anchorsOf ts = anchors

section Fits

variable {m m' text text' : String} {a b c anchors anchors' : List String}

/-- **Two pieces**, one behind the other. -/
theorem Fits.append (h : Fits m a b text anchors) (h' : Fits m' b c text' anchors') :
    Fits (m ++ m') a c (text ++ text') (anchors ++ anchors') := by
  obtain ⟨ts, hruns, hnest, hcontent, rfl, rfl⟩ := h
  obtain ⟨ts', hruns', hnest', hcontent', rfl, rfl⟩ := h'
  refine ⟨ts ++ ts', ?_, fun below => ?_, fun t ht => ?_, textOf_append ts ts', anchorsOf_append ts ts'⟩
  · rw [String.toList_append]
    exact hruns.append hruns'
  · rw [nest_append, hnest, Option.bind_some, hnest']
  · exact (List.mem_append.mp ht).elim (hcontent t) (hcontent' t)

/-- What leaves the open elements as they are does so wherever it stands. -/
theorem Fits.below (h : Fits m [] [] text anchors) (stack : List String) :
    Fits m stack stack text anchors := by
  obtain ⟨ts, hruns, hnest, hrest⟩ := h
  exact ⟨ts, hruns, fun below => hnest (stack ++ below), hrest⟩

theorem isContent_of_isEscaped {l : Letter} (h : l.isEscaped = true) :
    (Token.letter l).isContent = true := by
  simp [Token.isContent, Token.isOwn, Token.isEscaped, Token.letters, h]

/-- Escaped text shows itself. -/
theorem fits_escape (s : String) : Fits (escape s) [] [] s [] := by
  refine ⟨(letters s).map .letter, runs_escape s, fun below => nest_letters below _, fun t ht => ?_,
    textOf_letters s, anchorsOf_letters _⟩
  obtain ⟨l, hl, rfl⟩ := List.mem_map.mp ht
  exact isContent_of_isEscaped (isEscaped_of_mem_letters hl)

/-- A piece between two tags, which by themselves show nothing. -/
theorem Fits.between {start stop : String} (hstart : Fits start a b "" []) (h : Fits m b b text [])
    (hstop : Fits stop b c text' []) : Fits (start ++ m ++ stop) a c (text ++ text') [] := by
  simpa using (hstart.append h).append hstop

end Fits

/-! ## Content -/

/-- A link. -/
theorem fits_link {href m text : String} (hhref : IsValue href) (h : Fits m [] [] text []) :
    Fits ("<a href=\"" ++ href ++ "\">" ++ m ++ "</a>") [] [] text [] := by
  obtain ⟨ls, hls, hruns⟩ := hhref
  have hopen : Fits ("<a href=\"" ++ href ++ "\">") [] ["a"] "" [] := by
    refine ⟨[.opening ⟨"a", [("href", ls)]⟩], ?_, fun _ => rfl, fun t ht => ?_, rfl, rfl⟩
    · have hstart : Runs .text "<a href=\"".toList [] (.quoted ⟨"a", []⟩ "href".toList []) := rfl
      have hstop : Runs (.quoted ⟨"a", []⟩ "href".toList ls) "\">".toList
          [.opening ⟨"a", [("href", ls)]⟩] .text := rfl
      rw [String.toList_append, String.toList_append]
      exact (hstart.append (hruns _ _ _)).append hstop
    · obtain rfl := List.mem_singleton.mp ht
      have hescaped : ls.all Letter.isEscaped = true := List.all_eq_true.mpr hls
      simp [Token.isContent, Token.isOwn, ownTags, Token.isEscaped, Token.letters, hescaped, noticeTag]
  have hclose : Fits "</a>" ["a"] [] "" [] := ⟨[.closing "a"], rfl, fun _ => rfl, by decide, rfl, rfl⟩
  simpa using hopen.between (h.below ["a"]) hclose

/-- The element of a block. -/
def Block.element : Block → String
  | .paragraph => "p"
  | .classHeadline => "h1"
  | .functionHeadline => "h2"

/-- The markup that opens a block opens its element. -/
theorem fits_opening (b : Block) : Fits b.opening [] [b.element] "" [] := by
  cases b
  · exact ⟨[.opening ⟨"p", [("class", letters "text")]⟩], rfl, fun _ => rfl, by decide, rfl, rfl⟩
  · exact ⟨[.opening ⟨"h1", [("class", letters "classh")]⟩], rfl, fun _ => rfl, by decide, rfl, rfl⟩
  · exact ⟨[.opening ⟨"h2", [("class", letters "functionh")]⟩], rfl, fun _ => rfl, by decide, rfl, rfl⟩

/-- The markup that closes a block closes its element, and the line ends. -/
theorem fits_closing (b : Block) : Fits b.closing [b.element] [] "\n" [] := by
  cases b <;> exact ⟨[.closing _, .letter ⟨'\n', false⟩], rfl, fun _ => rfl, by decide, rfl, rfl⟩

/-- The three parts of a text that has been cut where the link stands. -/
def LinkText.text (t : LinkText) : String :=
  t.before ++ t.linked ++ t.after

theorem text_within? {needle text : String} {t : LinkText} (h : LinkText.within? needle text = some t) :
    LinkText.text t = text := by
  obtain ⟨n, hn, rfl⟩ := Option.map_eq_some_iff.mp h
  apply String.toList_inj.mp
  simpa [LinkText.text] using (Text.eq_of_find? hn).symm

theorem text_withCall (t : LinkText) : LinkText.text t.withCall = LinkText.text t := by
  unfold LinkText.withCall
  split
  · rename_i rest hafter
    apply String.toList_inj.mp
    simp [LinkText.text, hafter]
  · rfl

theorem text_toClass (className text : String) :
    LinkText.text (.toClass className text) = text := by
  unfold LinkText.toClass
  cases h : LinkText.within? className text with
  | some t => exact text_within? h
  | none => simp [LinkText.text, LinkText.whole]

theorem text_toFunction (f : MemberRef) (text : String) :
    LinkText.text (.toFunction f text) = text := by
  unfold LinkText.toFunction
  rw [text_withCall]
  cases h : LinkText.within? f.name text with
  | some t => exact text_within? h
  | none =>
      cases h' : LinkText.within? f.member text with
      | some t => exact text_within? h'
      | none => simp [LinkText.text, LinkText.whole]

/-- What is kept on one line shows the same. -/
theorem Fits.unbroken {m text : String} (h : Fits m [] [] text []) (kept : Bool) :
    Fits (if kept then "<span class=nobr>" ++ m ++ "</span>" else m) [] [] text [] := by
  have hopen : Fits "<span class=nobr>" [] ["span"] "" [] :=
    ⟨[.opening ⟨"span", [("class", letters "nobr")]⟩], rfl, fun _ => rfl, by decide, rfl, rfl⟩
  have hclose : Fits "</span>" ["span"] [] "" [] :=
    ⟨[.closing "span"], rfl, fun _ => rfl, by decide, rfl, rfl⟩
  cases kept with
  | false => exact h
  | true => simpa using hopen.between (h.below ["span"]) hclose

/-- A text with a link in it, or without one. -/
theorem fits_linkMarkup (t : LinkText) (href : Option String) (hhref : ∀ s, href = some s → IsValue s) :
    Fits (linkMarkup t href) [] [] (LinkText.text t) [] := by
  have hparts {linked : String} (h : Fits linked [] [] t.linked []) :
      Fits (escape t.before ++ linked ++ escape t.after) [] [] (LinkText.text t) [] :=
    ((fits_escape t.before).append h).append (fits_escape t.after)
  simp only [linkMarkup]
  cases href with
  | none => exact (hparts (fits_escape t.linked)).unbroken _
  | some s => exact (hparts (fits_link (hhref s rfl) (fits_escape t.linked))).unbroken _

/-- The file of a page as the value of an attribute. -/
theorem isValue_pageHref (current : Option String) (name : String) : IsValue (pageHref current name) := by
  unfold pageHref
  split
  · exact isValue_escape ""
  · exact ((isValue_escape name).append (isValue_escape ".")).append (isValue_escape extension)

theorem fits_argument (t : String) : Fits ("<i>" ++ escape t ++ "</i>") [] [] t [] := by
  have hopen : Fits "<i>" [] ["i"] "" [] :=
    ⟨[.opening ⟨"i", []⟩], rfl, fun _ => rfl, by decide, rfl, rfl⟩
  have hclose : Fits "</i>" ["i"] [] "" [] :=
    ⟨[.closing "i"], rfl, fun _ => rfl, by decide, rfl, rfl⟩
  have hfits := hopen.between ((fits_escape t).below ["i"]) hclose
  rwa [String.append_empty] at hfits

/-- Every level of a heading has one of three elements. -/
theorem fits_heading (current : Option String) (level : Nat) (t : String) :
    Fits (contentMarkup current (.heading level t)) [] [] (t ++ "\n") [] := by
  have htags (h : String) (hh : h = "h3" ∨ h = "h4" ∨ h = "h5") :
      Fits ("<" ++ h ++ ">" ++ escape t ++ "</" ++ h ++ ">\n") [] [] (t ++ "\n") [] := by
    have hopen : Fits ("<" ++ h ++ ">") [] [h] "" [] := by
      rcases hh with rfl | rfl | rfl <;>
        exact ⟨[.opening ⟨_, []⟩], rfl, fun _ => rfl, by decide, rfl, rfl⟩
    have hclose : Fits ("</" ++ h ++ ">\n") [h] [] "\n" [] := by
      rcases hh with rfl | rfl | rfl <;>
        exact ⟨[.closing _, .letter ⟨'\n', false⟩], rfl, fun _ => rfl, by decide, rfl, rfl⟩
    simpa [String.append_assoc] using hopen.between ((fits_escape t).below [h]) hclose
  have hlevel : max 1 (min level 3) + 2 = 3 ∨ max 1 (min level 3) + 2 = 4 ∨
      max 1 (min level 3) + 2 = 5 := by omega
  apply htags
  rcases hlevel with h | h | h <;> rw [h] <;> decide

/-- **Content** shows its text and leaves the open elements as they are; a block of its own ends its
line. -/
theorem fits_content (current : Option String) {c : Content} (hc : (Event.content c).isCode = false) :
    Fits (contentMarkup current c) [] []
      (if c.inline?.isSome then c.shown else c.shown ++ "\n") [] := by
  cases c with
  | text t => exact fits_escape t
  | link url title => exact fits_link (isValue_escape url) (fits_escape title)
  | argument t => exact fits_argument t
  | classLink t className =>
      have hlink := fits_linkMarkup (.toClass className t)
        (if current = some (pageName className) then none
          else some (pageHref current (pageName className)))
        fun s hs => by
          split at hs
          · exact nomatch hs
          · exact Option.some.inj hs ▸ isValue_pageHref current _
      rw [text_toClass] at hlink
      exact hlink
  | functionLink t f =>
      have hlink := fits_linkMarkup (.toFunction f t)
        (some (pageHref current (pageName f.owner) ++ "#" ++ escape f.anchor))
        fun s hs => Option.some.inj hs ▸
          ((isValue_pageHref current _).append (isValue_escape "#")).append (isValue_escape _)
      rw [text_toFunction] at hlink
      exact hlink
  | code t => exact nomatch hc
  | warning t =>
      have hopen : Fits "<p class=\"warning\"><b>Warning:</b> " [] ["p"] "Warning: " [] := by
        refine ⟨.opening ⟨"p", [("class", letters "warning")]⟩ :: .opening ⟨"b", []⟩ ::
          ((letters "Warning:").map Token.letter ++ [Token.closing "b", Token.letter ⟨' ', false⟩]),
          rfl, fun _ => rfl, by decide, rfl, rfl⟩
      exact (hopen.append ((fits_escape t).below ["p"])).append (fits_closing .paragraph)
  | note t =>
      have hopen : Fits "<p class=\"note\"><b>Note:</b> " [] ["p"] "Note: " [] :=
        ⟨.opening ⟨"p", [("class", letters "note")]⟩ :: .opening ⟨"b", []⟩ ::
          ((letters "Note:").map Token.letter ++ [Token.closing "b", Token.letter ⟨' ', false⟩]),
          rfl, fun _ => rfl, by decide, rfl, rfl⟩
      exact (hopen.append ((fits_escape t).below ["p"])).append (fits_closing .paragraph)
  | heading level t => exact fits_heading current level t

/-! ## Sheets -/

/-- The markup before the content of a page. -/
def head (title : String) : String :=
  "<!DOCTYPE html>\n<html lang=en><head>\n<meta charset=\"utf-8\">\n<title>" ++ escape title ++
    "</title>\n<link rel=stylesheet href=\"udoc.css\" type=\"text/css\">\n</head><body>"

/-- The sheet has shown what is in `r`: its content fits, up to the open block, and no anchor is set
twice. -/
def Sound (s : Sheet) (r : Shown) : Prop :=
  ∃ title content, s.markup = head title ++ content ∧
    Fits content [] (s.block.toList.map Block.element) r.text s.anchors ∧
    r.opened = s.block.isSome ∧ s.anchors.Nodup

theorem Sheet.block_close (s : Sheet) : s.close.block = none := by
  unfold close
  cases h : s.block with
  | none => exact h
  | some b => rfl

theorem Sheet.anchors_close (s : Sheet) : s.close.anchors = s.anchors := by
  unfold close
  cases s.block <;> rfl

section Sound

variable {s : Sheet} {r : Shown}

/-- More markup. -/
theorem Sound.put (h : Sound s r) {m text : String}
    (hm : Fits m (s.block.toList.map Block.element) (s.block.toList.map Block.element) text []) :
    Sound (s.put m) { r with text := r.text ++ text } := by
  obtain ⟨title, content, hmarkup, hcontent, hopened, hnodup⟩ := h
  have hmore := hcontent.append hm
  rw [List.append_nil] at hmore
  exact ⟨title, content ++ m, by rw [Sheet.put, hmarkup, String.append_assoc], hmore, hopened, hnodup⟩

theorem Sound.close (h : Sound s r) : Sound s.close r.endLine := by
  obtain ⟨title, content, hmarkup, hcontent, hopened, hnodup⟩ := h
  unfold Sheet.close Shown.endLine
  rw [hopened]
  cases hblock : s.block with
  | none =>
      simp only [Option.isSome_none]
      exact ⟨title, content, hmarkup, hcontent, hopened, hnodup⟩
  | some b =>
      have hmore := hcontent.append (by simpa [hblock] using fits_closing b)
      rw [List.append_nil] at hmore
      exact ⟨title, content ++ b.closing, by simp [Sheet.put, hmarkup, String.append_assoc], hmore, rfl,
        hnodup⟩

/-- A block that is opened where none is open. -/
theorem Sound.enter (h : Sound s r) (hblock : s.block = none) (b : Block) :
    Sound (s.enter b) { r with opened := true } := by
  obtain ⟨title, content, hmarkup, hcontent, -, hnodup⟩ := h
  have hmore := hcontent.append (by simpa [hblock] using fits_opening b)
  rw [List.append_nil, String.append_empty] at hmore
  exact ⟨title, content ++ b.opening, by simp [Sheet.enter, Sheet.put, hmarkup, String.append_assoc],
    hmore, rfl, hnodup⟩

/-- Content that stands in a paragraph, which is opened if nothing is open. -/
theorem Sound.inline (h : Sound s r) {m text : String} (hm : Fits m [] [] text []) :
    Sound (s.inline m) ⟨r.text ++ text, true⟩ := by
  unfold Sheet.inline
  cases hblock : s.block with
  | none =>
      exact (h.enter hblock .paragraph).put (hm.below _)
  | some b =>
      have hopened : r.opened = true := by
        obtain ⟨-, -, -, -, hopened, -⟩ := h
        rw [hopened, hblock]
        rfl
      have hput := h.put (hm.below _)
      rw [hopened] at hput
      exact hput

/-- A block of its own. -/
theorem Sound.element (h : Sound s r) {m text : String} (hm : Fits m [] [] text []) :
    Sound (s.element m) ⟨r.endLine.text ++ text, false⟩ := by
  have hclosed : r.endLine.opened = false := by
    unfold Shown.endLine
    cases hopened : r.opened <;> simp [hopened]
  rw [← hclosed]
  exact h.close.put (hm.below _)

/-- A place is named. -/
theorem fits_anchor (name : String) :
    Fits ("<a name=\"" ++ escape name ++ "\"></a>") [] [] "" [name] := by
  refine ⟨[.opening ⟨"a", [("name", letters name)]⟩, .closing "a"], ?_, fun _ => rfl, fun t ht => ?_,
    rfl, ?_⟩
  · have hstart : Runs .text "<a name=\"".toList [] (.quoted ⟨"a", []⟩ "name".toList []) := rfl
    have hstop : Runs (.quoted ⟨"a", []⟩ "name".toList (letters name)) "\"></a>".toList
        [.opening ⟨"a", [("name", letters name)]⟩, .closing "a"] .text := rfl
    rw [String.toList_append, String.toList_append]
    exact (hstart.append (runs_escape_quoted _ _ _ name)).append hstop
  · rcases List.mem_pair.mp ht with rfl | rfl
    · have hescaped : (letters name).all Letter.isEscaped = true :=
        List.all_eq_true.mpr fun _ => isEscaped_of_mem_letters
      simp [Token.isContent, Token.isOwn, ownTags, Token.isEscaped, Token.letters, hescaped, noticeTag]
    · rfl
  · have hname : String.ofList ((letters name).map Letter.char) = name := by
      simp [letters, Function.comp_def]
    simp [anchorsOf, Token.anchor?, hname]

/-- The headline of a function, the place of which is named unless it has been before. -/
theorem Sound.functionHeadline (h : Sound s r) (name : String) :
    Sound { (s.close.put Block.functionHeadline.opening).anchor name with
      block := some .functionHeadline } { r.endLine with opened := true } := by
  obtain ⟨title, content, hmarkup, hcontent, -, hnodup⟩ :=
    h.close.enter s.block_close .functionHeadline
  unfold Sheet.anchor
  split
  · exact ⟨title, content, hmarkup, hcontent, rfl, hnodup⟩
  · rename_i hnew
    have hmore := hcontent.append ((fits_anchor name).below _)
    rw [String.append_empty] at hmore
    refine ⟨title, content ++ ("<a name=\"" ++ escape name ++ "\"></a>"), ?_, hmore, rfl, ?_⟩
    · rw [← String.append_assoc, ← hmarkup]
      rfl
    · refine List.nodup_append.mpr ⟨hnodup, List.pairwise_singleton _ name, fun a ha b hb hab => ?_⟩
      obtain rfl := List.mem_singleton.mp hb
      obtain rfl := hab
      exact hnew (List.contains_iff_mem.mpr ha)

/-- **One more event.**  The headline of a class comes where no block is open. -/
theorem Sound.add (h : Sound s r) {e : Event} (hcode : e.isCode = false)
    (hfirst : ∀ name, e = .headline (.classPage name) → s.block = none) :
    Sound (s.add e) (r.add e) := by
  cases e with
  | close => exact h.close
  | headline g =>
      cases g with
      | chapter name => exact h
      | classPage name => exact h.enter (hfirst name rfl) .classHeadline
      | function f => exact h.functionHeadline f.anchor
  | content c =>
      have hc := fits_content (some s.name) hcode
      simp only [Sheet.add, Shown.add]
      split
      · rename_i hinline
        rw [if_pos hinline] at hc
        exact h.inline hc
      · rename_i hinline
        rw [if_neg hinline] at hc
        rw [String.append_assoc]
        exact h.element hc

end Sound

theorem markup_blank (name title : String) : (Sheet.blank name title).markup = head title ++ "\n" := by
  have hhead : "</title>\n<link rel=stylesheet href=\"udoc.css\" type=\"text/css\">\n</head><body>\n" =
      "</title>\n<link rel=stylesheet href=\"udoc.css\" type=\"text/css\">\n</head><body>" ++ "\n" := by
    decide
  unfold Sheet.blank head
  dsimp only
  rw [hhead]
  exact String.append_assoc.symm

theorem sound_blank (name title : String) : Sound (.blank name title) .blank := by
  have hnewline : escape "\n" = "\n" := rfl
  have hcontent : Fits "\n" [] [] "\n" [] := hnewline ▸ fits_escape "\n"
  exact ⟨title, "\n", markup_blank name title, hcontent, rfl, List.nodup_nil⟩

/-- The sheet of a part without code shows what the events of the part show. -/
theorem Filled.sound {s : Sheet} {p : Part} (h : Filled s p) (hcode : ∀ e ∈ p.events, e.isCode = false) :
    Sound s (p.events.foldl Shown.add .blank) := by
  induction h with
  | first g =>
      have hblank : Sound (Sheet.first g) .blank := by
        cases g <;> exact sound_blank _ _
      refine hblank.add rfl fun name hname => ?_
      obtain rfl := Event.headline.inj hname
      rfl
  | @add s p e hs hstay ih =>
      simp only [Part.extend, List.forall_mem_append, List.forall_mem_singleton] at hcode
      rw [Part.extend, List.foldl_append]
      refine (ih hcode.1).add hcode.2 fun name hname => ?_
      rw [hname] at hstay
      cases hstay

/-- The anchors on the sheet of a part are those that its events ask for. -/
theorem Filled.anchors {s : Sheet} {p : Part} (h : Filled s p) (a : String) :
    a ∈ s.anchors ↔ a ∈ p.events.filterMap Event.anchor? := by
  have hadd (s : Sheet) (e : Event) : a ∈ (s.add e).anchors ↔ a ∈ s.anchors ∨ e.anchor? = some a := by
    cases e with
    | close => simp [Sheet.add, Sheet.anchors_close, Event.anchor?]
    | content c =>
        simp only [Sheet.add, Event.anchor?, reduceCtorEq, or_false]
        split
        · unfold Sheet.inline
          split <;> rfl
        · simp [Sheet.element, Sheet.put, Sheet.anchors_close]
    | headline g =>
        cases g with
        | chapter name => simp [Sheet.add, Event.anchor?]
        | classPage name => simp [Sheet.add, Sheet.enter, Sheet.put, Event.anchor?]
        | function f =>
            simp only [Sheet.add, Sheet.anchor, Event.anchor?, Option.some.injEq]
            split
            · rename_i hmem
              have hmem : f.anchor ∈ s.anchors := by
                simpa [Sheet.put, Sheet.anchors_close] using hmem
              have hcase : f.anchor = a → a ∈ s.anchors := fun heq => heq ▸ hmem
              simpa [Sheet.put, Sheet.anchors_close] using hcase
            · simp [Sheet.put, Sheet.anchors_close, eq_comm]
  induction h with
  | first g =>
      have hnone : (Sheet.first g).anchors = [] := by cases g <;> rfl
      rw [hadd, hnone]
      simp
  | @add s p e hs hstay ih =>
      refine (hadd s e).trans ((or_congr_left ih).trans ?_)
      simp [Part.extend, eq_comm]

/-! ## Finished pages -/

/-- The tag that opens the content of a page. -/
def bodyTag : Tag :=
  ⟨"body", []⟩

/-- What stands on a page between the tag that opens its body and the notice. -/
def contentOf (ts : List Token) : List Token :=
  (ts.dropWhile (· != .opening bodyTag)).tail.takeWhile (· != .opening noticeTag)

/-- The notice and the end of a page. -/
def noticeOf (ts : List Token) : List Token :=
  ts.dropWhile (· != .opening noticeTag)

/-- The text of the notice. -/
def noticeText (owner : Owner) : String :=
  "This web page based on source code belonging to " ++ owner.name ++ ". All rights reserved.\n\n"

/-- A page on which a part can be read: its tags are the writer's own and are nested, its letters are
those of the events and of the owner, and every place is named once. -/
structure IsPage (owner : Owner) (p : Part) (ts : List Token) : Prop where
  nested : nest [] ts = some []
  own : ∀ t ∈ ts, t.isOwn = true
  escaped : ∀ t ∈ ts, t.isEscaped = true
  content : textOf (contentOf ts) = p.shown
  notice : textOf (noticeOf ts) = noticeText owner
  nodup : (anchorsOf ts).Nodup
  anchors : ∀ a, a ∈ anchorsOf ts ↔ a ∈ p.events.filterMap Event.anchor?

/-- The tokens before the content of a page, apart from the tag that opens it. -/
def headTokens (title : String) : List Token :=
  [.declaration, .letter ⟨'\n', false⟩, .opening ⟨"html", [("lang", letters "en")]⟩,
      .opening ⟨"head", []⟩, .letter ⟨'\n', false⟩,
      .opening ⟨"meta", [("charset", letters "utf-8")]⟩, .letter ⟨'\n', false⟩,
      .opening ⟨"title", []⟩] ++
    (letters title).map .letter ++
    [.closing "title", .letter ⟨'\n', false⟩,
      .opening ⟨"link", [("rel", letters "stylesheet"), ("href", letters "udoc.css"),
        ("type", letters "text/css")]⟩,
      .letter ⟨'\n', false⟩, .closing "head"]

set_option maxRecDepth 2000 in
theorem runs_head (title : String) :
    Runs .text (head title).toList (headTokens title ++ [.opening bodyTag]) .text := by
  unfold head headTokens
  rw [String.toList_append, String.toList_append, List.append_assoc _ _ [Token.opening bodyTag]]
  refine Runs.append (Runs.append ?_ (runs_escape title)) ?_ <;> rfl

/-- Before the content, two elements are opened. -/
theorem nest_head (title : String) :
    nest [] (headTokens title ++ [.opening bodyTag]) = some ["body", "html"] := by
  unfold headTokens
  rw [nest_append, nest_append, nest_append,
    show nest [] [_, _, _, _, _, _, _, _] = some ["title", "head", "html"] from rfl, Option.bind_some,
    nest_letters]
  rfl

theorem isContent_of_mem_head (title : String) :
    ∀ t ∈ headTokens title, t.isContent = true ∧ (t != .opening bodyTag) = true := by
  unfold headTokens
  simp only [List.forall_mem_append]
  refine ⟨⟨by decide, fun t ht => ?_⟩, by decide⟩
  obtain ⟨l, hl, rfl⟩ := List.mem_map.mp ht
  exact ⟨isContent_of_isEscaped (isEscaped_of_mem_letters hl), rfl⟩

theorem anchorsOf_head (title : String) : anchorsOf (headTokens title) = [] := by
  unfold headTokens
  rw [anchorsOf_append, anchorsOf_append, anchorsOf_letters]
  rfl

set_option maxRecDepth 2000 in
/-- The notice ends the page. -/
theorem runs_notice (owner : Owner) {name : String} (hname : Fits name [] [] owner.name []) :
    ∃ ts, Runs .text ("<p class=\"rights\">This web page based on source code belonging to " ++ name ++
        ". All rights reserved.</p>\n</body></html>\n").toList (.opening noticeTag :: ts) .text ∧
      nest ["body", "html"] (.opening noticeTag :: ts) = some [] ∧
      (∀ t ∈ ts, t.isContent = true) ∧ textOf ts = noticeText owner ∧ anchorsOf ts = [] := by
  obtain ⟨ns, hruns, hnest, hcontent, htext, hanchors⟩ := hname
  let before := (letters "This web page based on source code belonging to ").map Token.letter
  let behind := (letters ". All rights reserved.").map Token.letter ++
    [.closing "p", .letter ⟨'\n', false⟩, .closing "body", .closing "html", .letter ⟨'\n', false⟩]
  have hbefore : Runs .text "<p class=\"rights\">This web page based on source code belonging to ".toList
      (.opening noticeTag :: before) .text := rfl
  have hbehind : Runs .text ". All rights reserved.</p>\n</body></html>\n".toList behind .text := rfl
  have hstart : nest ["body", "html"] (.opening noticeTag :: before) = some ["p", "body", "html"] := rfl
  have hkept : nest ["p", "body", "html"] ns = some ["p", "body", "html"] := hnest _
  refine ⟨before ++ ns ++ behind, ?_, ?_, ?_, ?_, ?_⟩
  · rw [String.toList_append, String.toList_append]
    exact (hbefore.append hruns).append hbehind
  · rw [← List.cons_append, ← List.cons_append, nest_append, nest_append, hstart, Option.bind_some,
      hkept]
    rfl
  · simp only [List.forall_mem_append]
    exact ⟨⟨by decide, hcontent⟩, by decide⟩
  · rw [textOf_append, textOf_append, htext]
    rfl
  · rw [anchorsOf_append, anchorsOf_append, hanchors]
    rfl

/-- **A page** is a head, some content and the notice. -/
theorem isPage_of_fits {owner : Owner} {p : Part} (title : String) {content name : String}
    {anchors : List String}
    (hcontent : Fits content [] [] p.shown anchors) (hname : Fits name [] [] owner.name [])
    (hnodup : anchors.Nodup) (hanchors : ∀ a, a ∈ anchors ↔ a ∈ p.events.filterMap Event.anchor?) :
    ∃ ts, lex (head title ++ content ++
        ("<p class=\"rights\">This web page based on source code belonging to " ++ name ++
          ". All rights reserved.</p>\n</body></html>\n")).toList = some ts ∧ IsPage owner p ts := by
  obtain ⟨cs, hcruns, hcnest, hccontent, hctext, hcanchors⟩ := hcontent
  obtain ⟨ns, hnruns, hnnest, hncontent, hntext, hnanchors⟩ := runs_notice owner hname
  have hhead := isContent_of_mem_head title
  have hnotNotice {t : Token} (h : t.isContent = true) : (t != .opening noticeTag) = true :=
    (Bool.and_eq_true_iff.mp h).2
  have hfront : ∀ t ∈ headTokens title ++ [Token.opening bodyTag] ++ cs, t.isContent = true := by
    simp only [List.forall_mem_append, List.forall_mem_singleton]
    exact ⟨⟨fun t ht => (hhead t ht).1, by decide⟩, hccontent⟩
  have hall (P : Token → Bool) (hP : ∀ t : Token, t.isContent = true → P t = true)
      (hnotice : P (.opening noticeTag) = true) :
      ∀ t ∈ headTokens title ++ [Token.opening bodyTag] ++ cs ++ .opening noticeTag :: ns, P t = true := by
    simp only [List.forall_mem_append, List.forall_mem_cons] at hfront ⊢
    exact ⟨⟨⟨fun t ht => hP t (hfront.1.1 t ht), ⟨hP _ hfront.1.2.1, nofun⟩⟩,
      fun t ht => hP t (hfront.2 t ht)⟩, hnotice, fun t ht => hP t (hncontent t ht)⟩
  have hnotice : noticeOf (headTokens title ++ [.opening bodyTag] ++ cs ++ .opening noticeTag :: ns) =
      .opening noticeTag :: ns := by
    rw [noticeOf, List.dropWhile_append_of_pos fun t ht => hnotNotice (hfront t ht),
      List.dropWhile_cons_of_neg (by simp)]
  have hbody : contentOf (headTokens title ++ [.opening bodyTag] ++ cs ++ .opening noticeTag :: ns) =
      cs := by
    rw [contentOf, List.append_assoc, List.append_assoc,
      List.dropWhile_append_of_pos fun t ht => (hhead t ht).2, List.singleton_append,
      List.dropWhile_cons_of_neg (by simp), List.tail_cons,
      List.takeWhile_append_of_pos fun t ht => hnotNotice (hccontent t ht),
      List.takeWhile_cons_of_neg (by simp), List.append_nil]
  have htokens : anchorsOf (headTokens title ++ [.opening bodyTag] ++ cs ++ .opening noticeTag :: ns) =
      anchors := by
    have hnoticeAnchors : anchorsOf (.opening noticeTag :: ns) = [] := hnanchors
    rw [anchorsOf_append, anchorsOf_append, anchorsOf_append, anchorsOf_head, hcanchors, hnoticeAnchors,
      List.append_nil]
    rfl
  refine ⟨headTokens title ++ [.opening bodyTag] ++ cs ++ .opening noticeTag :: ns, ?_, ?_, ?_, ?_, ?_,
    ?_, ?_, ?_⟩
  · rw [String.toList_append, String.toList_append]
    exact lex_of_runs (((runs_head title).append hcruns).append hnruns)
  · rw [nest_append, nest_append, nest_head, Option.bind_some, ← List.nil_append ["body", "html"],
      hcnest, Option.bind_some, List.nil_append, hnnest]
  · exact hall Token.isOwn
      (fun t ht => (Bool.and_eq_true_iff.mp (Bool.and_eq_true_iff.mp ht).1).1) (by decide)
  · exact hall Token.isEscaped
      (fun t ht => (Bool.and_eq_true_iff.mp (Bool.and_eq_true_iff.mp ht).1).2) (by decide)
  · rw [hbody, hctext]
  · rw [hnotice]
    exact hntext
  · rwa [htokens]
  · rwa [htokens]

/-- The page of a part without code. -/
theorem Filled.isPage {s : Sheet} {p : Part} (h : Filled s p) (owner : Owner)
    (hcode : ∀ e ∈ p.events, e.isCode = false) :
    ∃ ts, lex (s.finish owner).content.toList = some ts ∧ IsPage owner p ts := by
  obtain ⟨title, content, hmarkup, hcontent, -, hnodup⟩ := (h.sound hcode).close
  have hblock : s.close.block = none := s.block_close
  rw [hblock] at hcontent
  have hname : Fits (if owner.home.isEmpty then escape owner.name
      else "<a href=\"" ++ escape owner.home ++ "\">" ++ escape owner.name ++ "</a>") [] []
      owner.name [] := by
    split
    · exact fits_escape owner.name
    · exact fits_link (isValue_escape owner.home) (fits_escape owner.name)
  have hanchors (a : String) : a ∈ s.close.anchors ↔ a ∈ p.events.filterMap Event.anchor? := by
    rw [s.anchors_close]
    exact h.anchors a
  have hpage := isPage_of_fits title hcontent hname hnodup hanchors
  rw [← hmarkup] at hpage
  exact hpage

/-- **Web pages can be read.**  A stream without code gives a page for each of its parts.  The page is
read as tags of the writer's own, which are nested, and letters, the special ones of which are written as
references; the letters between the head and the notice are what the events of the part show, line by
line, and every place that the part names is named once. -/
theorem pages_readable (owner : Owner) (events : List Event)
    (hcode : ∀ e ∈ events, e.isCode = false) :
    List.Forall₂ (fun p page => ∃ ts, lex page.content.toList = some ts ∧ IsPage owner p ts)
      (Part.ofEvents events) (Format.html.pages owner events) := by
  have hread : ∀ p ∈ Part.ofEvents events, ∃ page, Format.html.pages owner p.events = [page] ∧
      ∃ ts, lex page.content.toList = some ts ∧ IsPage owner p ts := by
    intro p hp
    obtain ⟨before, hevents, -⟩ := Part.flatMap_ofEvents events
    obtain ⟨s, hs, hwritten⟩ := filled_of_begun owner (Part.begun_of_mem events p hp)
    refine ⟨s.finish owner, ?_, hs.isPage owner fun e he => hcode e ?_⟩
    · rw [pages_eq, hwritten]
      rfl
    · rw [hevents]
      exact List.mem_append_right _ (List.mem_flatMap.mpr ⟨p, hp, he⟩)
  rw [Format.pages_parts]
  generalize Part.ofEvents events = parts at hread
  induction parts with
  | nil => exact .nil
  | cons p rest ih =>
      obtain ⟨⟨page, hpage, hpageRead⟩, hrest⟩ := List.forall_mem_cons.mp hread
      rw [List.flatMap_cons, hpage]
      exact .cons hpageRead (ih hrest)

/-- A function of a class and, without any end of what was open, the page of another class. -/
theorem pages_readable_unbalanced :
    let events : List Event := [.content (.text "lost"), .headline (.function ⟨"a::f", "a"⟩),
      .content (.text "x<y>"), .headline (.classPage "b&c"), .content (.warning "\"x\"")]
    (∀ e ∈ events, e.isCode = false) ∧
      (Part.ofEvents events).map Part.shown = ["\nx<y>\n", "\n\nWarning: \"x\"\n"] ∧
      List.Forall₂ (fun p page => ∃ ts, lex page.content.toList = some ts ∧ IsPage ⟨"o", "h"⟩ p ts)
        (Part.ofEvents events) (Format.html.pages ⟨"o", "h"⟩ events) :=
  ⟨by decide, by decide +kernel, pages_readable ⟨"o", "h"⟩ _ (by decide)⟩

end Html

end CppDoc
