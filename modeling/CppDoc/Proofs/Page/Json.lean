import CppDoc.Proofs.Page.JsonText
import CppDoc.Proofs.Page.Split
import Mathlib.Data.List.Forall2
import Mathlib.Data.List.TakeWhile

/-!
# What JSON pages say

A page is a JSON text if the texts on it are **legible**: if the only control characters in them are
tabs, line feeds and carriage returns.  From that text, the name of the page and its events can be read
again.

* `reads_quote`: a text in quotes is read as what was written, if it is legible;
* `Value.tree`, `eventTree` and `pageTree`: the values that pages are written for, each with the lemma
  on how it is read;
* `Entry`: what a page says of an event; `Entry.ofTree?` and `readPage?` read it by the names of fields;
* `denotes_renderPage`: one page; `finish_denotes`: every page of every stream of events.
-/

namespace CppDoc.Json

/-! ## Texts -/

/-- Is the character written in a way that it can be read again? -/
def isLegibleChar (c : Char) : Bool :=
  isUnescaped c || c == '\n' || c == '\r' || c == '\t'

/-- Are there no other control characters in the text? -/
def legible (s : String) : Bool :=
  s.toList.all isLegibleChar

/-- A character is read as itself. -/
theorem readText_escapeChar (c : Char) (rest : List Char) :
    readText ((escapeChar c).toList ++ rest) =
      if isLegibleChar c then withCode c.toNat (readText rest) else none := by
  unfold escapeChar
  by_cases hbackslash : c = '\\'
  · subst hbackslash
    rfl
  by_cases hquote : c = '"'
  · subst hquote
    rfl
  by_cases hfeed : c = '\n'
  · subst hfeed
    rfl
  by_cases hreturn : c = '\r'
  · subst hreturn
    rfl
  by_cases htab : c = '\t'
  · subst htab
    rfl
  rw [if_neg hbackslash, if_neg hquote, if_neg hfeed, if_neg hreturn, if_neg htab,
    String.toList_singleton, List.singleton_append, readText_plain hquote hbackslash]
  simp [isLegibleChar, hfeed, hreturn, htab]

/-- The inside of a text in quotes. -/
theorem readText_quoted (s rest : List Char) :
    readText (s.flatMap (fun c => (escapeChar c).toList) ++ ('"' :: rest)) =
      if s.all isLegibleChar then some (s.map Char.toNat, rest) else none := by
  induction s with
  | nil => exact readText_close rest
  | cons c s ih =>
      rw [List.flatMap_cons, List.append_assoc, readText_escapeChar, ih, List.all_cons]
      cases isLegibleChar c with
      | false => rfl
      | true =>
          cases s.all isLegibleChar with
          | false => rfl
          | true => rfl

/-- Characters are no surrogates. -/
theorem scalars_toNat (s : List Char) : scalars (s.map Char.toNat) = s := by
  have hscalar (c : Char) : scalar c.toNat = c := by
    have hvalid : c.toNat.isValidChar := c.valid
    rw [scalar, if_pos hvalid, Char.ofNat_toNat]
  have hpair (c e : Char) : isPair c.toNat e.toNat = false := by
    have hvalid : c.toNat < 0xD800 ∨ 0xDFFF < c.toNat ∧ c.toNat < 0x110000 := c.valid
    simp only [isPair, Bool.and_eq_false_iff, decide_eq_false_iff_not]
    omega
  induction s with
  | nil => rfl
  | cons c s ih =>
      cases s with
      | nil => simp [scalars, hscalar]
      | cons e s =>
          simp only [List.map_cons, scalars, hpair, Bool.false_eq_true, if_false, hscalar] at ih ⊢
          rw [ih]

/-- **A text in quotes** is read as what was written, if it is legible. -/
theorem reads_quote {P : List Char → Prop} (s : String) :
    Reads P (quote s).toList (legible s) [.text s] := by
  have hquoted : (quote s).toList =
      '"' :: (s.toList.flatMap (fun c => (escapeChar c).toList) ++ ['"']) := by
    simp [quote, List.flatMap_map]
  have hread : Reads P ('"' :: (s.toList.flatMap (fun c => (escapeChar c).toList) ++ ['"'])) (legible s)
      [.text (String.ofList (scalars (s.toList.map Char.toNat)))] := by
    refine reads_text fun rest => ?_
    rw [List.append_assoc, List.singleton_append, readText_quoted]
    rfl
  rw [scalars_toNat, String.ofList_toList] at hread
  rw [hquoted]
  exact hread

/-! ## Numbers -/

/-- The digits of a number begin with a zero for zero only. -/
theorem isInteger_toDigits (n : Nat) : isInteger (Nat.toDigits 10 n) = true := by
  have hhead (n : Nat) (hn : 0 < n) : (Nat.toDigits 10 n).head?.any (· != '0') = true := by
    induction n using Nat.strongRecOn with
    | ind n ih =>
        by_cases hlt : n < 10
        · rw [Nat.toDigits_of_lt_base hlt]
          simpa using Nat.ne_of_gt hn
        · have hle : 10 ≤ n := Nat.not_lt.mp hlt
          have hfirst := ih (n / 10) (by omega) (by omega)
          rw [Nat.toDigits_of_base_le (by decide) hle, List.head?_append]
          cases hdigits : (Nat.toDigits 10 (n / 10)).head? with
          | none => simp [hdigits] at hfirst
          | some c => rwa [hdigits] at hfirst
  unfold isInteger
  rcases Nat.eq_zero_or_pos n with rfl | hn
  · rfl
  · rw [hhead n hn, Bool.or_true]

/-- A digit ends no word. -/
theorem endsWord_of_isDigit {c : Char} (hdigit : c.isDigit = true) : endsWord c = false := by
  cases hends : endsWord c with
  | false => rfl
  | true =>
      simp only [endsWord, isFiller, isMark, Bool.or_eq_true, beq_iff_eq] at hends
      rcases hends with ((((rfl | rfl) | rfl) | rfl) | (((((rfl | rfl) | rfl) | rfl) | rfl) | rfl)) | rfl
      all_goals exact absurd hdigit (by decide)

/-- **A number** is read as it is written. -/
theorem reads_number (n : Nat) : Reads EndsWord (toString n).toList true [.number (toString n)] := by
  have hdigits : (toString n).toList = Nat.toDigits 10 n := String.toList_ofList
  have hall : ∀ c ∈ Nat.toDigits 10 n, c.isDigit = true :=
    fun c hc => Nat.isDigit_of_mem_toDigits (by decide) (by decide) hc
  have hother {w : List Char} {c : Char} (hw : w.head? = some c) (hc : c.isDigit = false) :
      Nat.toDigits 10 n ≠ w := by
    rintro rfl
    exact Bool.noConfusion (hc.symm.trans (hall c (List.mem_of_head? hw)))
  have hliteral : Literal.ofWord? (Nat.toDigits 10 n) = none := by
    rw [Literal.ofWord?, if_neg (hother (c := 'n') (by decide) (by decide)),
      if_neg (hother (c := 'f') (by decide) (by decide)),
      if_neg (hother (c := 't') (by decide) (by decide))]
  have hminus : (Nat.toDigits 10 n).head? ≠ some '-' :=
    fun hw => absurd (hall '-' (List.mem_of_head? hw)) (by decide)
  have hnumber : isNumber (Nat.toDigits 10 n) = true := by
    rw [isNumber, if_neg hminus, List.takeWhile_eq_self_iff.mpr hall,
      List.dropWhile_eq_nil_iff.mpr hall, isInteger_toDigits]
    rfl
  have hword : wordToken? (Nat.toDigits 10 n) = some (.number (toString n)) := by
    rw [wordToken?, hliteral, ← hdigits, String.ofList_toList, hdigits]
    exact if_pos hnumber
  rw [hdigits]
  exact reads_word Nat.toDigits_ne_nil (fun c hc => endsWord_of_isDigit (hall c hc)) hword

/-! ## Fields -/

/-- The value of a field. -/
def Value.tree : Value → Tree
  | .text s => .text s
  | .number n => .number (toString n)

/-- Can the value be read again? -/
def Value.legible : Value → Bool
  | .text s => Json.legible s
  | .number _ => true

theorem Value.reads (v : Value) : Reads EndsWord v.render.toList v.legible v.tree.tokens := by
  cases v with
  | text s =>
      rw [Value.tree, Tree.tokens]
      exact reads_quote s
  | number n =>
      rw [Value.tree, Tree.tokens]
      exact reads_number n

/-! ## Lists -/

/-- The tokens of an array are those of its items, with commas between them. -/
theorem tokens_array (vs : List Tree) :
    (Tree.array vs).tokens =
      .mark '[' :: ([Token.mark ','].intercalate (vs.map Tree.tokens) ++ [.mark ']']) := by
  have hmore (v : Tree) (vs : List Tree) : v.tokens ++ itemsBehind [.mark ','] vs =
      [Token.mark ','].intercalate ((v :: vs).map Tree.tokens) ++ [.mark ']'] := by
    induction vs generalizing v with
    | nil => simp [itemsBehind, List.intercalate_singleton]
    | cons w vs ih =>
        rw [itemsBehind, ih]
        simp only [List.map_cons, List.intercalate_cons_cons, List.append_assoc]
  rw [Tree.tokens]
  cases vs with
  | nil => simp [itemsBehind]
  | cons v vs => rw [itemsBehind, List.nil_append, hmore]

/-- The tokens of a member of an object. -/
def memberTokens (m : String × Tree) : List Token :=
  .text m.1 :: .mark ':' :: m.2.tokens

/-- The tokens of an object are those of its members, with commas between them. -/
theorem tokens_object (ms : List (String × Tree)) :
    (Tree.object ms).tokens =
      .mark '\x7b' :: ([Token.mark ','].intercalate (ms.map memberTokens) ++ [.mark '\x7d']) := by
  have hmore (m : String × Tree) (ms : List (String × Tree)) :
      memberTokens m ++ membersBehind [.mark ','] ms =
        [Token.mark ','].intercalate ((m :: ms).map memberTokens) ++ [.mark '\x7d'] := by
    induction ms generalizing m with
    | nil => simp [membersBehind, List.intercalate_singleton]
    | cons w ms ih =>
        have hw : membersBehind [.mark ','] (w :: ms) =
            [.mark ','] ++ (memberTokens w ++ membersBehind [.mark ','] ms) := by
          rw [membersBehind]
          rfl
        rw [hw, ih]
        simp only [List.map_cons, List.intercalate_cons_cons, List.append_assoc]
  rw [Tree.tokens]
  cases ms with
  | nil => simp [membersBehind]
  | cons m ms =>
      have hm : membersBehind [] (m :: ms) = memberTokens m ++ membersBehind [.mark ','] ms := by
        rw [membersBehind]
        rfl
      rw [hm, hmore]

/-- **A list of pieces** is read piece by piece, with commas between them. -/
theorem reads_separated {α : Type} {text : α → List Char} {ok : α → Bool} {ts : α → List Token}
    {sep : List Char} (hsep : Reads Anything sep true [.mark ','])
    (hends : ∀ rest, EndsWord (sep ++ rest)) {l : List α}
    (hl : ∀ a ∈ l, Reads EndsWord (text a) (ok a) (ts a)) :
    Reads EndsWord (sep.intercalate (l.map text)) (l.all ok) ([Token.mark ','].intercalate (l.map ts)) := by
  induction l with
  | nil => exact reads_nil
  | cons a l ih =>
      have hfirst := hl a List.mem_cons_self
      have hrest := ih fun b hb => hl b (List.mem_cons_of_mem a hb)
      cases l with
      | nil => simpa [List.intercalate_singleton] using hfirst
      | cons b l =>
          have hmore := hsep.append hrest fun _ _ => trivial
          have hall := hfirst.append hmore fun rest _ => by
            rw [List.append_assoc]
            exact hends _
          rw [List.map_cons, List.map_cons, List.map_cons, List.map_cons, List.intercalate_cons_cons,
            List.intercalate_cons_cons, List.append_assoc, List.append_assoc]
          exact hall

/-! ## Events -/

/-- The value that an event is written for. -/
def eventTree (e : Event) : Tree :=
  .object ((fields e).map fun (key, v) => (key, v.tree))

/-- Are all texts of an event legible? -/
def eventLegible (e : Event) : Bool :=
  (fields e).all fun (_, v) => v.legible

/-- The names of the fields are legible. -/
theorem legible_key (e : Event) : ∀ field ∈ fields e, legible field.1 = true := by
  have hkeys : ∀ key ∈ ["event", "kind", "name", "anchor", "text", "url", "title", "class", "function",
      "page", "level"], legible key = true := by
    decide
  have hfields : ∀ field ∈ fields e, field.1 ∈ ["event", "kind", "name", "anchor", "text", "url",
      "title", "class", "function", "page", "level"] := by
    cases e with
    | headline h => cases h <;> simp [fields]
    | close => simp [fields]
    | content c => cases c <;> simp [fields]
  exact fun field hfield => hkeys field.1 (hfields field hfield)

/-- A field. -/
theorem reads_field {key : String} (hkey : legible key = true) (v : Value) :
    Reads EndsWord (quote key ++ ": " ++ v.render).toList v.legible (memberTokens (key, v.tree)) := by
  have hcolon : Reads Anything ": ".toList true [.mark ':'] :=
    reads_punctuation (rfl : _ = [] ++ ':' :: [' ']) rfl rfl rfl
  have hall := (reads_quote (P := Anything) key).append
    (hcolon.append v.reads fun _ _ => trivial) fun _ _ => trivial
  rw [String.toList_append, String.toList_append, List.append_assoc]
  simpa [hkey, memberTokens] using hall

/-- **An event.** -/
theorem reads_event (e : Event) :
    Reads Anything (renderEvent e).toList (eventLegible e) (eventTree e).tokens := by
  have hopen : Reads Anything "\x7b ".toList true [.mark '\x7b'] :=
    reads_punctuation (rfl : _ = [] ++ '\x7b' :: [' ']) rfl rfl rfl
  have hclose : Reads Anything " \x7d".toList true [.mark '\x7d'] :=
    reads_punctuation (rfl : _ = [' '] ++ '\x7d' :: []) rfl rfl rfl
  have hcomma : Reads Anything ", ".toList true [.mark ','] :=
    reads_punctuation (rfl : _ = [] ++ ',' :: [' ']) rfl rfl rfl
  have hends (rest : List Char) : EndsWord (", ".toList ++ rest) := fun c hc => by cases hc; rfl
  have hends' (rest : List Char) : EndsWord (" \x7d".toList ++ rest) := fun c hc => by cases hc; rfl
  have hfields : Reads EndsWord
      (", ".toList.intercalate ((fields e).map fun f => (quote f.1 ++ ": " ++ f.2.render).toList))
      ((fields e).all fun f => f.2.legible)
      ([Token.mark ','].intercalate ((fields e).map fun f => memberTokens (f.1, f.2.tree))) :=
    reads_separated hcomma hends fun f hf => reads_field (legible_key e f hf) f.2
  have hall := hopen.append (hfields.append hclose fun rest _ => hends' rest) fun _ _ => trivial
  have htext : (renderEvent e).toList = "\x7b ".toList ++
      (", ".toList.intercalate ((fields e).map fun f => (quote f.1 ++ ": " ++ f.2.render).toList) ++
        " \x7d".toList) := by
    simp only [renderEvent, String.toList_append, String.toList_intercalate, List.map_map,
      List.append_assoc, Function.comp_def]
  rw [htext, eventTree, tokens_object, List.map_map]
  simpa [eventLegible, Function.comp_def] using hall

/-! ## Pages -/

/-- The value that a page is written for. -/
def pageTree (name : String) (events : List Event) : Tree :=
  .object [("page", .text name), ("events", .array (events.map eventTree))]

/-- Are all texts of a page legible? -/
def pageLegible (name : String) (events : List Event) : Bool :=
  legible name && events.all eventLegible

/-- What stands before the name of a page. -/
theorem reads_pageStart : Reads Anything "\x7b\n  \"page\": ".toList true
    [.mark '\x7b', .text "page", .mark ':'] := by
  have hopen : Reads Anything "\x7b\n  ".toList true [.mark '\x7b'] :=
    reads_punctuation (rfl : _ = [] ++ '\x7b' :: "\n  ".toList) rfl rfl rfl
  have hkey : Reads Anything "\"page\"".toList true [.text "page"] := reads_quote "page"
  have hcolon : Reads Anything ": ".toList true [.mark ':'] :=
    reads_punctuation (rfl : _ = [] ++ ':' :: [' ']) rfl rfl rfl
  exact hopen.append (hkey.append hcolon fun _ _ => trivial) fun _ _ => trivial

/-- What stands between the name of a page and its events. -/
theorem reads_pageEvents : Reads Anything ",\n  \"events\": [\n".toList true
    [.mark ',', .text "events", .mark ':', .mark '['] := by
  have hcomma : Reads Anything ",\n  ".toList true [.mark ','] :=
    reads_punctuation (rfl : _ = [] ++ ',' :: "\n  ".toList) rfl rfl rfl
  have hkey : Reads Anything "\"events\"".toList true [.text "events"] := reads_quote "events"
  have hcolon : Reads Anything ": ".toList true [.mark ':'] :=
    reads_punctuation (rfl : _ = [] ++ ':' :: [' ']) rfl rfl rfl
  have hopen : Reads Anything "[\n".toList true [.mark '['] :=
    reads_punctuation (rfl : _ = [] ++ '[' :: ['\n']) rfl rfl rfl
  exact hcomma.append (hkey.append (hcolon.append hopen fun _ _ => trivial) fun _ _ => trivial)
    fun _ _ => trivial

/-- What stands behind the events of a page. -/
theorem reads_pageEnd : Reads Anything "\n  ]\n\x7d\n".toList true [.mark ']', .mark '\x7d'] := by
  have hitems : Reads Anything "\n  ]".toList true [.mark ']'] :=
    reads_punctuation (rfl : _ = "\n  ".toList ++ ']' :: []) rfl rfl rfl
  have hobject : Reads Anything "\n\x7d\n".toList true [.mark '\x7d'] :=
    reads_punctuation (rfl : _ = ['\n'] ++ '\x7d' :: ['\n']) rfl rfl rfl
  exact hitems.append hobject fun _ _ => trivial

/-- The events of a page. -/
theorem reads_events (events : List Event) :
    Reads EndsWord (",\n".toList.intercalate (events.map fun e => ("    " ++ renderEvent e).toList))
      (events.all eventLegible) ([Token.mark ','].intercalate (events.map fun e => (eventTree e).tokens)) := by
  have hcomma : Reads Anything ",\n".toList true [.mark ','] :=
    reads_punctuation (rfl : _ = [] ++ ',' :: ['\n']) rfl rfl rfl
  have hends (rest : List Char) : EndsWord (",\n".toList ++ rest) := fun c hc => by cases hc; rfl
  refine reads_separated hcomma hends fun e _ => ?_
  have hindent : Reads Anything "    ".toList true [] := reads_filler rfl
  have hevent := hindent.append (reads_event e) fun _ _ => trivial
  rw [String.toList_append]
  exact hevent.anything

/-- **A page.** -/
theorem reads_page (name : String) (events : List Event) :
    Reads Anything (renderPage name events).toList (pageLegible name events)
      (pageTree name events).tokens := by
  have hends (rest : List Char) : EndsWord ("\n  ]\n\x7d\n".toList ++ rest) :=
    fun c hc => by cases hc; rfl
  have hevents := (reads_events events).append reads_pageEnd fun rest _ => hends rest
  have hname := (reads_quote (P := Anything) name).append
    (reads_pageEvents.append hevents fun _ _ => trivial) fun _ _ => trivial
  have hall := reads_pageStart.append hname fun _ _ => trivial
  have htext : (renderPage name events).toList =
      "\x7b\n  \"page\": ".toList ++ ((quote name).toList ++ (",\n  \"events\": [\n".toList ++
        (",\n".toList.intercalate (events.map fun e => ("    " ++ renderEvent e).toList) ++
          "\n  ]\n\x7d\n".toList))) := by
    unfold renderPage
    simp only [String.toList_append, String.toList_intercalate, List.map_map, List.append_assoc,
      Function.comp_def]
  have htokens : (pageTree name events).tokens =
      [.mark '\x7b', .text "page", .mark ':'] ++ ([.text name] ++
        ([.mark ',', .text "events", .mark ':', .mark '['] ++
          ([Token.mark ','].intercalate (events.map fun e => (eventTree e).tokens) ++
            [.mark ']', .mark '\x7d']))) := by
    have hname : (Tree.text name).tokens = [.text name] := by rw [Tree.tokens]
    rw [pageTree, tokens_object]
    simp [memberTokens, hname, tokens_array, List.intercalate_cons_cons, List.intercalate_singleton,
      Function.comp_def]
  rw [htext, htokens]
  simpa [pageLegible] using hall

/-- **The content of a page** stands for the value that it is written for, if everything on the page is
legible, and is no JSON text otherwise. -/
theorem denotes_renderPage {name : String} {events : List Event} {v : Tree} :
    Denotes (renderPage name events) v ↔
      pageLegible name events = true ∧ v = pageTree name events := by
  have hlex := reads_page name events [] trivial
  rw [List.append_nil] at hlex
  have hnil : lex [] = some [] := by rw [lex]
  constructor
  · intro h
    cases hlegible : pageLegible name events with
    | false =>
        rw [hlegible] at hlex
        cases h.symm.trans hlex
    | true =>
        rw [hlegible, hnil] at hlex
        have hpage : Denotes (renderPage name events) (pageTree name events) := by
          simpa [Denotes] using hlex
        exact ⟨rfl, h.unique hpage⟩
  · rintro ⟨hlegible, rfl⟩
    rw [hlegible, hnil] at hlex
    simpa [Denotes] using hlex

/-! ## Reading pages -/

/-- The value of a field of an object. -/
def Tree.field? (key : String) : Tree → Option Tree
  | .object members => members.lookup key
  | _ => none

/-- The text of a field of an object. -/
def Tree.textField? (key : String) (v : Tree) : Option String :=
  match v.field? key with
  | some (.text s) => some s
  | _ => none

/-- The number of a field of an object, if it is written in digits. -/
def Tree.numberField? (key : String) (v : Tree) : Option Nat :=
  match v.field? key with
  | some (.number written) =>
    if written.toList.all Char.isDigit then some (Nat.ofDigitChars 10 written.toList 0) else none
  | _ => none

/-- What a page says of an event. -/
inductive Entry where
  | chapter (name : String)
  | classPage (name : String)
  | function (name anchor : String)
  | close
  | text (text : String)
  | link (url title : String)
  | argument (text : String)
  | classLink (text className : String)
  | functionLink (text name page anchor : String)
  | code (text : String)
  | warning (text : String)
  | note (text : String)
  | heading (level : Nat) (text : String)
  deriving DecidableEq, Repr

namespace Entry

/-- What is said of a headline. -/
def headline? (v : Tree) : Option Entry :=
  match v.textField? "kind" with
  | some "intro" => (v.textField? "name").map chapter
  | some "class" => (v.textField? "name").map classPage
  | some "function" => do
    return function (← v.textField? "name") (← v.textField? "anchor")
  | _ => none

/-- Reads what is said of an event by the names of its fields. -/
def ofTree? (v : Tree) : Option Entry :=
  match v.textField? "event" with
  | some "headline" => headline? v
  | some "end_paragraph" => some close
  | some "text" => (v.textField? "text").map text
  | some "link" => do
    return link (← v.textField? "url") (← v.textField? "title")
  | some "argument" => (v.textField? "text").map argument
  | some "class" => do
    return classLink (← v.textField? "text") (← v.textField? "class")
  | some "function" => do
    return functionLink (← v.textField? "text") (← v.textField? "function") (← v.textField? "page")
      (← v.textField? "anchor")
  | some "code" => (v.textField? "text").map code
  | some "warning" => (v.textField? "text").map warning
  | some "note" => (v.textField? "text").map note
  | some "section" => do
    return heading (← v.numberField? "level") (← v.textField? "text")
  | _ => none

/-- What is to be said of an event. -/
def ofEvent : Event → Entry
  | .headline (.chapter name) => chapter name
  | .headline (.classPage name) => classPage name
  | .headline (.function f) => function f.name f.anchor
  | .close => close
  | .content (.text t) => text t
  | .content (.link url title) => link url title
  | .content (.argument t) => argument t
  | .content (.classLink t className) => classLink t className
  | .content (.functionLink t f) => functionLink t f.name (pageName f.owner) f.anchor
  | .content (.code t) => code t
  | .content (.warning t) => warning t
  | .content (.note t) => note t
  | .content (.heading level t) => heading level t

/-- The texts in what is said. -/
def texts : Entry → List String
  | chapter name => [name]
  | classPage name => [name]
  | function name anchor => [name, anchor]
  | close => []
  | text t => [t]
  | link url title => [url, title]
  | argument t => [t]
  | classLink t className => [t, className]
  | functionLink t name page anchor => [t, name, page, anchor]
  | code t => [t]
  | warning t => [t]
  | note t => [t]
  | heading _ t => [t]

/-- **An event** is read again. -/
theorem ofTree_eventTree (e : Event) : ofTree? (eventTree e) = some (ofEvent e) := by
  have hnumber (n : Nat) : (toString n).toList.all Char.isDigit = true ∧
      Nat.ofDigitChars 10 (toString n).toList 0 = n := by
    have hdigits : (toString n).toList = Nat.toDigits 10 n := String.toList_ofList
    rw [hdigits]
    exact ⟨List.all_eq_true.mpr fun c hc => Nat.isDigit_of_mem_toDigits (by decide) (by decide) hc,
      Nat.ofDigitChars_ten_toDigits⟩
  cases e with
  | headline h => cases h <;> rfl
  | close => rfl
  | content c =>
      cases c with
      | heading level t =>
          have hlevel : (eventTree (.content (.heading level t))).numberField? "level" = some level := by
            obtain ⟨hdigits, hvalue⟩ := hnumber level
            refine (if_pos hdigits).trans ?_
            rw [hvalue]
          have hread : ofTree? (eventTree (.content (.heading level t))) =
              ((eventTree (.content (.heading level t))).numberField? "level").bind
                fun level => some (heading level t) := rfl
          rw [hread, hlevel]
          rfl
      | _ => rfl

/-- The other texts in the fields of an event are legible. -/
theorem legible_ofEvent (e : Event) : eventLegible e = (ofEvent e).texts.all legible := by
  have hkind : ∀ kind ∈ ["headline", "intro", "class", "function", "end_paragraph", "text", "link",
      "argument", "code", "warning", "note", "section"], legible kind = true := by
    decide
  cases e with
  | headline h => cases h <;> simp [eventLegible, fields, Value.legible, ofEvent, texts, hkind]
  | close => rfl
  | content c => cases c <;> simp [eventLegible, fields, Value.legible, ofEvent, texts, hkind]

end Entry

/-- Reads the name of a page, and what it says of its events. -/
def readPage? (v : Tree) : Option (String × List Entry) :=
  match v.field? "events" with
  | some (.array vs) => do
    return (← v.textField? "page", ← vs.mapM Entry.ofTree?)
  | _ => none

/-- **A page** is read again. -/
theorem readPage_pageTree (name : String) (events : List Event) :
    readPage? (pageTree name events) = some (name, events.map Entry.ofEvent) := by
  have hevents : (events.map eventTree).mapM Entry.ofTree? = some (events.map Entry.ofEvent) := by
    induction events with
    | nil => rfl
    | cons e rest ih =>
        rw [List.map_cons, List.mapM_cons, Entry.ofTree_eventTree, ih]
        rfl
  have hread : readPage? (pageTree name events) =
      ((events.map eventTree).mapM Entry.ofTree?).bind fun entries => some (name, entries) := rfl
  rw [hread, hevents]
  rfl

/-! ## Whole streams -/

/-- The events that have been written stand on the pages in their order. -/
theorem events_write (w : Writer) (e : Event) : (w.write e).events = w.events ++ [e] := by
  have hput (w : Writer) : (w.put e).events = w.events ++ [e] := by
    unfold Writer.put Writer.events
    cases hlast : w.sheets.getLast? with
    | none =>
        rw [List.getLast?_eq_none_iff.mp hlast]
        rfl
    | some last =>
        obtain ⟨before, hbefore⟩ := List.getLast?_eq_some_iff.mp hlast
        simp [hbefore]
  have hstart (w : Writer) (name : String) : (w.startPage name).events = w.events := by
    simp [Writer.startPage, Writer.events]
  obtain ⟨hwrite, -⟩ | ⟨h, name, -, -, -, hwrite⟩ := Writer.write_cases w e
  · rw [hwrite, hput]
  · rw [hwrite, hput, hstart]

/-- The events of a page: its headlines belong on it, and a page with a name begins with one. -/
structure Fits (sheet : String × List Event) : Prop where
  stands : ∀ h, .headline h ∈ sheet.2 → h.page = sheet.1
  begins : sheet.1 ≠ "" → ∃ h, sheet.2.head? = some (.headline h)

/-- An event is added to the page that it belongs on. -/
theorem fits_put {w : Writer} {e : Event} (hw : ∀ sheet ∈ w.sheets, Fits sheet)
    (he : ∀ h, e = .headline h → w.currentName = some h.page) :
    ∀ sheet ∈ (w.put e).sheets, Fits sheet := by
  unfold Writer.put
  cases hlast : w.sheets.getLast? with
  | none =>
      have hnone : w.currentName = none := by simp [Writer.currentName, hlast]
      intro sheet hsheet
      obtain rfl := List.mem_singleton.mp hsheet
      refine ⟨fun h hmem => ?_, fun hne => absurd rfl hne⟩
      cases hnone.symm.trans (he h (List.mem_singleton.mp hmem).symm)
  | some last =>
      obtain ⟨before, hbefore⟩ := List.getLast?_eq_some_iff.mp hlast
      obtain ⟨name, events⟩ := last
      have hcurrent : w.currentName = some name := by simp [Writer.currentName, hlast]
      have hfits : Fits (name, events) := hw _ (by simp [hbefore])
      intro sheet hsheet
      rcases List.mem_append.mp hsheet with hsheet | hsheet
      · exact hw sheet (List.dropLast_subset _ hsheet)
      obtain rfl := List.mem_singleton.mp hsheet
      refine ⟨fun h hmem => ?_, fun hne => ?_⟩
      · rcases List.mem_append.mp hmem with hmem | hmem
        · exact hfits.stands h hmem
        · have hown := he h (List.mem_singleton.mp hmem).symm
          exact Option.some.inj (hown.symm.trans hcurrent)
      · obtain ⟨h, hhead⟩ := hfits.begins hne
        exact ⟨h, by rw [List.head?_append, hhead]; rfl⟩

theorem fits_write {w : Writer} (hw : ∀ sheet ∈ w.sheets, Fits sheet) (e : Event) :
    ∀ sheet ∈ (w.write e).sheets, Fits sheet := by
  obtain ⟨hwrite, hstay⟩ | ⟨h, name, hh, -, hname, hwrite⟩ := Writer.write_cases w e
  · rw [hwrite]
    refine fits_put hw fun h he => ?_
    subst he
    exact Html.page_of_stays (hstay h rfl)
  · obtain rfl : e = .headline h := by
      cases e with
      | headline g => exact congrArg Event.headline (Option.some.inj hh)
      | close => cases hh
      | content c => cases hh
    have hstart : ((w.startPage name).put (.headline h)).sheets =
        w.sheets ++ [(pageName name, [.headline h])] := by
      simp [Writer.startPage, Writer.put]
    rw [hwrite, hstart]
    intro sheet hsheet
    rcases List.mem_append.mp hsheet with hsheet | hsheet
    · exact hw sheet hsheet
    obtain rfl := List.mem_singleton.mp hsheet
    refine ⟨fun g hmem => ?_, fun _ => ⟨h, rfl⟩⟩
    rw [Event.headline.inj (List.mem_singleton.mp hmem), hname]

/-- **The pages of a stream.**  They divide its events among them, in their order, so that every headline
stands on the page it belongs on.  The content of a page is a JSON text if and only if its name and the
texts of its events are legible, and then the name and what is said of the events are read again. -/
theorem finish_denotes (events : List Event) :
    let w := events.foldl Writer.write .empty
    w.events = events ∧ (∀ sheet ∈ w.sheets, Fits sheet) ∧
      List.Forall₂
        (fun sheet page =>
          page.name = Format.json.fileName sheet.1 ∧
            ((∃ v, Denotes page.content v) ↔ legible sheet.1 = true ∧
              ∀ e ∈ sheet.2, ∀ t ∈ (Entry.ofEvent e).texts, legible t = true) ∧
            ∀ v, Denotes page.content v → readPage? v = some (sheet.1, sheet.2.map Entry.ofEvent))
        (w.sheets.filter fun sheet => !sheet.1.isEmpty) w.finish.1 := by
  intro w
  have hwritten (w : Writer) (hw : ∀ sheet ∈ w.sheets, Fits sheet) :
      (events.foldl Writer.write w).events = w.events ++ events ∧
        ∀ sheet ∈ (events.foldl Writer.write w).sheets, Fits sheet := by
    induction events generalizing w with
    | nil => exact ⟨(List.append_nil _).symm, hw⟩
    | cons e rest ih =>
        obtain ⟨hevents, hfits⟩ := ih (w.write e) (fits_write hw e)
        rw [List.foldl_cons, hevents, events_write, List.append_assoc]
        exact ⟨rfl, hfits⟩
  obtain ⟨hevents, hfits⟩ := hwritten .empty nofun
  refine ⟨hevents, hfits, ?_⟩
  rw [Writer.finish, List.forall₂_map_right_iff, List.forall₂_same]
  rintro ⟨name, events⟩ _
  have hlegible : pageLegible name events = true ↔ legible name = true ∧
      ∀ e ∈ events, ∀ t ∈ (Entry.ofEvent e).texts, legible t = true := by
    simp only [pageLegible, Bool.and_eq_true, List.all_eq_true, Entry.legible_ofEvent]
  refine ⟨rfl, ?_, fun v hv => ?_⟩
  · rw [← hlegible]
    exact ⟨fun ⟨v, hv⟩ => (denotes_renderPage.mp hv).1, fun h => ⟨_, denotes_renderPage.mpr ⟨h, rfl⟩⟩⟩
  · rw [(denotes_renderPage.mp hv).2]
    exact readPage_pageTree name events

/-- A page with another control character is no JSON text. -/
example : ¬ ∃ v, Denotes (renderPage "a" [.content (.text "\x01")]) v := by
  rintro ⟨v, hv⟩
  exact absurd (denotes_renderPage.mp hv).1 (by decide)

end CppDoc.Json
