import CppDoc.Proofs.Syntax.AcceptedLists

/-!
# Parameter lists with other blanks

The layout of a parameter list consists of its characters other than blanks, and of the blanks that
count.  Between the parts of a parameter the scanner passes over blanks, so that they may come and go;
inside the name of a type, around `::` and the brackets of template arguments, they may become more or
fewer, but none is put where there was none, since a type is kept with the blanks of its name.  Two
accepted lists of one layout are kept alike, and so they have the same signature.

* `layout`: what two ways to write a list have in common, and `Relaid`: a text with other blanks;
* `Relaid.type` and `LaidParameter.relaid`: a type and a parameter that are laid out in another way;
* `typesOnly_layout`: the signature of a list depends on its layout only.
-/

namespace CppDoc.Syntax

open CppDoc.Text

/-- May there be blanks between `p` and `c`, or none, as one likes?  Not between two characters of the
name of a type, unless a name stands behind template arguments.  `v` tells whether they stand in a
default value. -/
def loose (v : Bool) (p : Option Char) (c : Char) : Bool :=
  v || !(p.any isTypeChar && isTypeChar c) || (p == some '>' && isNameChar c)

/-- The characters of a text other than blanks, each with whether blanks that count stand before it.  `v`
tells whether the text begins in a default value, `p` is the character before it, and `b` tells whether
there are blanks between them. -/
def layout (v : Bool) (p : Option Char) (b : Bool) : List Char → List (Char × Bool)
  | [] => []
  | c :: s =>
    if isBlank c then layout v p true s
    else (c, b && !loose v p c) :: layout (valueAfter v c) (some c) false s

/-- `t` is `s` with other blanks.  `v` tells whether they begin in a default value, and `p` is the
character before them. -/
inductive Relaid : Bool → Option Char → List Char → List Char → Prop
  | ends {v : Bool} {p : Option Char} {b b' : List Char} (hb : b.all isBlank = true)
      (hb' : b'.all isBlank = true) : Relaid v p b b'
  | next {v : Bool} {p : Option Char} {b b' s t : List Char} {c : Char} (hb : b.all isBlank = true)
      (hb' : b'.all isBlank = true) (hc : isBlank c = false)
      (hsame : loose v p c = true ∨ (b = [] ↔ b' = []))
      (h : Relaid (valueAfter v c) (some c) s t) : Relaid v p (b ++ c :: s) (b' ++ c :: t)

section Relaid

variable {v : Bool} {o : Option Char} {b d s t w x z : List Char} {c e : Char}

/-- The blanks at the front of a text end at its first other character. -/
theorem blanks_append_inj (hb : b.all isBlank = true) (hd : d.all isBlank = true)
    (hc : isBlank c = false) (he : isBlank e = false) (h : b ++ c :: s = d ++ e :: t) :
    b = d ∧ c = e ∧ s = t := by
  have hfront {b s : List Char} {c : Char} (hb : b.all isBlank = true) (hc : isBlank c = false) :
      (b ++ c :: s).takeWhile isBlank = b := by
    rw [List.takeWhile_append_of_pos (List.all_eq_true.mp hb), List.takeWhile_cons_of_neg (by simp [hc]),
      List.append_nil]
  have hsame : b = d := by rw [← hfront (s := s) hb hc, h, hfront hd he]
  subst hsame
  obtain ⟨rfl, rfl⟩ := List.cons.inj (List.append_cancel_left h)
  exact ⟨rfl, rfl, rfl⟩

theorem layout_blanks (hb : b.all isBlank = true) (f : Bool) :
    layout v o f (b ++ s) = layout v o (f || !b.isEmpty) s := by
  induction b generalizing f with
  | nil => simp
  | cons c b ih =>
      rw [List.all_cons, Bool.and_eq_true] at hb
      rw [List.cons_append, layout, if_pos hb.1, ih hb.2]
      simp

theorem layout_cons (hb : b.all isBlank = true) (hc : isBlank c = false) :
    layout v o false (b ++ c :: s) =
      (c, !b.isEmpty && !loose v o c) :: layout (valueAfter v c) (some c) false s := by
  rw [layout_blanks hb, layout, if_neg (by simp [hc]), Bool.false_or]

/-- A text consists of blanks, or it has a first other character. -/
theorem blanks_or_visible (x : List Char) :
    x.all isBlank = true ∨
      ∃ b c y, x = b ++ c :: y ∧ b.all isBlank = true ∧ isBlank c = false := by
  have hstop := head?_dropWhile_not (q := isBlank) x
  have hcut := List.takeWhile_append_dropWhile (p := isBlank) (l := x)
  cases hy : x.dropWhile isBlank with
  | nil =>
      left
      rw [hy, List.append_nil] at hcut
      rw [← hcut]
      exact List.all_takeWhile
  | cons c y =>
      right
      rw [hy] at hstop hcut
      exact ⟨x.takeWhile isBlank, c, y, hcut.symm, List.all_takeWhile, hstop⟩

/-- **Texts of one layout** differ in their blanks. -/
theorem relaid_of_layout (h : layout v o false s = layout v o false t) : Relaid v o s t := by
  have hblanks {v : Bool} {o : Option Char} {b : List Char} (hb : b.all isBlank = true) :
      layout v o false b = [] := by
    have hnone := layout_blanks (v := v) (o := o) (s := []) hb false
    rwa [List.append_nil] at hnone
  induction hlen : s.length using Nat.strongRecOn generalizing s t v o with
  | ind n ih =>
      subst hlen
      rcases blanks_or_visible s with hs | ⟨b, c, s, rfl, hb, hc⟩
      · rcases blanks_or_visible t with ht | ⟨b', c', t, rfl, hb', hc'⟩
        · exact .ends hs ht
        · rw [hblanks hs, layout_cons hb' hc'] at h
          exact nomatch h
      · rcases blanks_or_visible t with ht | ⟨b', c', t, rfl, hb', hc'⟩
        · rw [hblanks ht, layout_cons hb hc] at h
          exact nomatch h
        · rw [layout_cons hb hc, layout_cons hb' hc'] at h
          obtain ⟨hfirst, hrest⟩ := List.cons.inj h
          obtain ⟨rfl, hflag⟩ := Prod.mk.inj hfirst
          have hshort : s.length < (b ++ c :: s).length := by
            simp only [List.length_append, List.length_cons]
            omega
          refine .next hb hb' hc ?_ (ih s.length hshort hrest rfl)
          cases hloose : loose v o c with
          | true => exact .inl rfl
          | false =>
              rw [hloose] at hflag
              cases b <;> cases b' <;> simp_all

/-- What begins with blanks and another character begins alike. -/
theorem Relaid.blanks_cons (hb : b.all isBlank = true) (hc : isBlank c = false)
    (h : Relaid v o (b ++ c :: s) z) :
    ∃ b' t, z = b' ++ c :: t ∧ b'.all isBlank = true ∧
      (loose v o c = true ∨ (b = [] ↔ b' = [])) ∧ Relaid (valueAfter v c) (some c) s t := by
  generalize hy : b ++ c :: s = y at h
  cases h with
  | ends hends =>
      have hblank := List.all_eq_true.mp hends c (by simp [← hy])
      exact nomatch hc.symm.trans hblank
  | @next _ _ d d' s' t e hd hd' he hsame h =>
      obtain ⟨rfl, rfl, rfl⟩ := blanks_append_inj hb hd hc he hy
      exact ⟨d', t, rfl, hd', hsame, h⟩

/-- The blanks at the front, and the rest. -/
theorem Relaid.blanks_append (hb : b.all isBlank = true) (hs : s.head?.any (!isBlank ·) = true)
    (h : Relaid v o (b ++ s) z) :
    ∃ b' t, z = b' ++ t ∧ b'.all isBlank = true ∧ t.head? = s.head? ∧ Relaid v o s t := by
  cases s with
  | nil => exact nomatch hs
  | cons c s =>
      have hc : isBlank c = false := by simpa using hs
      obtain ⟨b', t, rfl, hb', -, h⟩ := h.blanks_cons hb hc
      exact ⟨b', c :: t, rfl, hb', rfl, @Relaid.next v o [] [] s t c rfl rfl hc (.inr Iff.rfl) h⟩

/-- Behind letters there are the same letters. -/
theorem Relaid.letters (hc : isNameChar c = true) (hw : w.all isNameChar = true)
    (h : Relaid false (some c) (w ++ s) z) :
    ∃ e t, isNameChar e = true ∧ z = w ++ t ∧ Relaid false (some e) s t := by
  induction w generalizing c z with
  | nil => exact ⟨c, z, hc, rfl, h⟩
  | cons e w ih =>
      rw [List.all_cons, Bool.and_eq_true] at hw
      have hloose : loose false (some c) e = false := by
        have hclose : c ≠ '>' := by
          rintro rfl
          cases hc
        simp [loose, isTypeChar, hc, hw.1, hclose]
      have hvalue : valueAfter false e = false := by
        have hequals : e ≠ '=' := by
          rintro rfl
          cases hw.1
        simp [valueAfter, hequals]
      obtain ⟨b', t, rfl, -, hsame, hrest⟩ :=
        h.blanks_cons (b := []) rfl (isBlank_eq_false_of_isNameChar hw.1)
      obtain rfl : b' = [] := by
        rcases hsame with hsame | hsame
        · cases hloose.symm.trans hsame
        · exact hsame.mp rfl
      rw [hvalue] at hrest
      obtain ⟨f, t, hf, rfl, htail⟩ := ih hw.1 hw.2 hrest
      exact ⟨f, t, hf, rfl, htail⟩

/-! ## Types -/

/-- Behind a `>` in `x`, no letter comes next. -/
def Snug (x : List Char) : Prop :=
  ∀ u b c y, x = u ++ '>' :: (b ++ c :: y) → b.all isBlank = true → isNameChar c = false

theorem Snug.behind (h : Snug (b ++ s)) : Snug s := by
  intro u d c y hs hd
  exact h (b ++ u) d c y (by rw [hs]; simp) hd

/-- **The name of a type** with other blanks has blanks in the same places. -/
theorem Relaid.type (hc : isTypeChar c = true) (hx : TypeChars x) (hsnug : Snug (c :: x))
    (hlast : x ≠ [] → x.getLast?.any (!isBlank ·) = true) (h : Relaid false (some c) (x ++ s) z) :
    ∃ x' t, z = x' ++ t ∧ Respaced x x' ∧ Relaid false (c :: x).getLast? s t := by
  induction hlen : x.length using Nat.strongRecOn generalizing c x z with
  | ind n ih =>
      subst hlen
      by_cases hnil : x = []
      · subst hnil
        exact ⟨[], z, rfl, .ends rfl rfl Iff.rfl, h⟩
      obtain ⟨b, d, y, rfl, hb, hd⟩ := (blanks_or_visible x).resolve_left fun hblanks => by
        have hlast := hlast hnil
        rw [List.getLast?_eq_some_getLast hnil, Option.any_some,
          List.all_eq_true.mp hblanks _ (List.getLast_mem hnil)] at hlast
        exact nomatch hlast
      have hdType : isTypeChar d = true := (hx d (by simp)).resolve_right fun h =>
        nomatch hd.symm.trans h
      have htight : loose false (some c) d = false := by
        by_cases hclose : c = '>'
        · have hname := hsnug [] b d y (by rw [hclose]; rfl) hb
          simp [loose, hc, hdType, hname]
        · simp [loose, hc, hdType, hclose]
      have hvalue : valueAfter false d = false := by
        have hequals : d ≠ '=' := by
          rintro rfl
          exact nomatch hdType
        simp [valueAfter, hequals]
      rw [List.append_assoc, List.cons_append] at h
      obtain ⟨b', t, rfl, hb', hsame, hrest⟩ := h.blanks_cons hb hd
      have hblanks : b = [] ↔ b' = [] := by
        rcases hsame with hsame | hsame
        · exact nomatch htight.symm.trans hsame
        · exact hsame
      rw [hvalue] at hrest
      have hshort : y.length < (b ++ d :: y).length := by
        simp only [List.length_append, List.length_cons]
        omega
      have hcut : c :: (b ++ d :: y) = (c :: b) ++ d :: y := rfl
      obtain ⟨y', u, rfl, hrespaced, htail⟩ := ih y.length hshort hdType
        (fun e he => hx e (by simp [he])) (by rw [hcut] at hsnug; exact hsnug.behind)
        (fun hne => by
          have hlast := hlast hnil
          rwa [List.append_cons, getLast?_append_right hne] at hlast) hrest rfl
      refine ⟨b' ++ d :: y', u, by simp, .next hb hb' hblanks hd hrespaced, ?_⟩
      rwa [hcut, getLast?_append_right (List.cons_ne_nil d y)]

/-! ### Template arguments end a name -/

theorem no_close_blanks (hb : b.all isBlank = true) : '>' ∉ b :=
  fun hmem => nomatch List.all_eq_true.mp hb '>' hmem

theorem no_close_letters (hw : w.all isNameChar = true) : '>' ∉ w :=
  fun hmem => nomatch List.all_eq_true.mp hw '>' hmem

theorem no_close_chain {E : Prop} {cs : List (List Char)} (hcs : ∀ c ∈ cs, ChainMember E c) :
    '>' ∉ chain cs := by
  induction cs with
  | nil => exact nofun
  | cons c cs ih =>
      have hrest := ih fun d hd => hcs d (List.mem_cons_of_mem c hd)
      have hc : '>' ∉ c := by
        cases hcs c List.mem_cons_self with
        | name hb hw _ =>
            rw [List.mem_append, not_or]
            exact ⟨no_close_blanks hb, no_close_letters hw.chars⟩
        | destructor hb hw =>
            rw [List.mem_cons, List.mem_append, not_or, not_or]
            exact ⟨by decide, no_close_blanks hb, no_close_letters hw.chars⟩
        | tilde => decide
      rw [chain_cons_eq]
      simp [hc, hrest]

theorem Lead.no_close {l : List Char} (h : Lead l) : '>' ∉ l := by
  cases h with
  | none => exact nofun
  | outermost hb => simp [no_close_blanks hb]

/-- There is a `>` at the end of a name or nowhere. -/
theorem SpelledName.no_close {E : Prop} {k : Shape} {q : List Char} (h : SpelledName E k q)
    (hk : k ≠ .closed) : '>' ∉ q := by
  cases h with
  | word hl hw => simp [hl.no_close, no_close_letters hw.chars]
  | path hl hw hg _ hcs =>
      simp [hl.no_close, no_close_letters hw.chars, no_close_blanks hg, no_close_chain hcs]
  | closed => exact absurd rfl hk

theorem Snug.of_no_close (hx : '>' ∉ x) : Snug x := by
  intro u b c y h _
  exact absurd (by rw [h]; simp) hx

/-- Two texts are put together where no letter comes first. -/
theorem Snug.append (hs : Snug s) (ht : Snug t)
    (hfirst : ∀ b c y, t = b ++ c :: y → b.all isBlank = true → isNameChar c = false) :
    Snug (s ++ t) := by
  intro u b c y h hb
  rcases List.append_eq_append_iff.mp h with ⟨a, -, hrest⟩ | ⟨a, hfront, hrest⟩
  · exact ht a b c y hrest hb
  cases a with
  | nil => exact ht [] b c y hrest.symm hb
  | cons d a =>
      obtain ⟨rfl, htail⟩ := List.cons.inj hrest
      -- The `>` stands in the first text, and the letter in the first or in the second.
      rcases List.append_eq_append_iff.mp htail with ⟨a', hpart, hletter⟩ | ⟨a', hpart, hletter⟩
      · cases a' with
        | nil => exact hfirst [] c y hletter.symm rfl
        | cons e a' =>
            obtain ⟨rfl, -⟩ := List.cons.inj hletter
            exact hs u b c a' (by rw [hfront, hpart]) hb
      · rw [hpart, List.all_append, Bool.and_eq_true] at hb
        exact hfirst a' c y hletter hb.2

/-- A text without `>` in front changes nothing. -/
theorem Snug.append_left (hs : '>' ∉ s) (ht : Snug t) : Snug (s ++ t) := by
  intro u b c y h hb
  rcases List.append_eq_append_iff.mp h with ⟨a, -, hrest⟩ | ⟨a, hfront, hrest⟩
  · exact ht a b c y hrest hb
  · cases a with
    | nil => exact ht [] b c y hrest.symm hb
    | cons d a =>
        obtain ⟨rfl, -⟩ := List.cons.inj hrest
        exact absurd (by rw [hfront]; simp) hs

/-- A mark that comes first is no letter. -/
theorem first_no_letter (hd : d.all isBlank = true) (he : isBlank e = false)
    (hname : isNameChar e = false) :
    ∀ b c y, d ++ e :: t = b ++ c :: y → b.all isBlank = true → isNameChar c = false := by
  intro b c y h hb
  cases hc : isBlank c with
  | true => exact isNameChar_eq_false_of_isBlank hc
  | false =>
      obtain ⟨-, rfl, -⟩ := blanks_append_inj hd hb he hc h
      exact hname

section Types

variable {E : Prop}

theorem Snug.close : Snug ['>'] := by
  intro u b c y h _
  have hlength := congrArg List.length h
  simp at hlength
  omega

theorem SpelledName.snug {k : Shape} {q : List Char} (h : SpelledName E k q) : Snug q := by
  induction h with
  | word hl hw => exact .of_no_close ((SpelledName.word hl hw).no_close nofun)
  | path hl hw hg hne hcs => exact .of_no_close ((SpelledName.path hl hw hg hne hcs).no_close nofun)
  | @closed k i q g h a g' hq hk hg hh ha hg' hi ihq iha =>
      have hend : Snug (g' ++ ['>']) := Snug.close.append_left (no_close_blanks hg')
      have hargument := iha.append hend (first_no_letter hg' rfl rfl)
      have hfront : '>' ∉ q ++ (g ++ '<' :: h) := by
        simp [hq.no_close hk, no_close_blanks hg, no_close_blanks hh]
      have hwhole := hargument.append_left hfront
      simpa using hwhole

theorem SpelledType.snug (h : SpelledType E x) : Snug x := by
  induction h with
  | body hs =>
      cases hs with
      | name hq => exact hq.snug
      | @member k q g b w hq hg hb hw =>
          have hmember : '>' ∉ g ++ ':' :: ':' :: (b ++ w) := by
            simp [no_close_blanks hg, no_close_blanks hb, no_close_letters hw.chars]
          exact hq.snug.append (.of_no_close hmember) (first_no_letter hg rfl rfl)
  | @modifier m g s hm hg hs _ ih =>
      have hall : ∀ m ∈ typeModifiers, m.all isNameChar = true := by decide
      have hfront : '>' ∉ m ++ g := by
        rw [List.mem_append, not_or]
        exact ⟨no_close_letters (hall m hm), no_close_blanks hg⟩
      rw [← List.append_assoc]
      exact ih.append_left hfront

/-- A type that is laid out in another way is a type with the same words. -/
theorem SpelledType.relaid {y : List Char} (hx : SpelledType E x) (hb : b.all isBlank = true)
    (h : Relaid false o (b ++ (x ++ y)) z) :
    ∃ b' x' t, z = b' ++ (x' ++ t) ∧ b'.all isBlank = true ∧ SpelledType E x' ∧
      words x' = words x ∧ x'.getLast? = x.getLast? ∧ Relaid false x.getLast? y t := by
  obtain ⟨c, x, rfl, hc, htype⟩ := hx.exists_head
  have hvalue : valueAfter false c = false := by
    have hequals : c ≠ '=' := by
      rintro rfl
      exact nomatch htype
    simp [valueAfter, hequals]
  obtain ⟨b', z', rfl, hb', -, hrest⟩ := h.blanks_cons hb hc
  rw [hvalue] at hrest
  obtain ⟨x', t, rfl, hrespaced, htail⟩ := hrest.type htype
    (fun d hd => hx.typeChars d (List.mem_cons_of_mem c hd)) hx.snug fun hne => by
      have hlast := hx.getLast?_no_blank
      rwa [List.getLast?_cons_of_ne_nil hne] at hlast
  have hwhole : Respaced (c :: x) (c :: x') := .cons hc hrespaced
  exact ⟨b', c :: x', t, rfl, hb', hx.respaced hwhole, hwhole.words_eq,
    hwhole.getLast?_eq hx.getLast?_no_blank, htail⟩

/-- A name may follow a type at once only behind template arguments. -/
theorem SpelledType.closes_of_loose (h : SpelledType E x) (he : isNameStart e = true)
    (hloose : loose false x.getLast? e = true) : x.getLast? = some '>' := by
  rcases h.getLast? with hlast | hlast | hlast
  · exact hlast
  · rw [hlast] at hloose
    simp [loose, isTypeChar, isNameChar_of_isNameStart he] at hloose
  · cases hx : x.getLast? with
    | none =>
        rw [hx] at hlast
        cases hlast
    | some d =>
        rw [hx] at hlast hloose
        have hd : isNameChar d = true := hlast
        have hclose : d = '>' := by
          simpa [loose, isTypeChar, hd, isNameChar_of_isNameStart he] using hloose
        rw [hclose]

/-- The mark of a type that is laid out in another way. -/
theorem SpelledMark.relaid {k : List Char} (hk : SpelledMark k) (h : Relaid false o (k ++ s) z) :
    ∃ k' t o', z = k' ++ t ∧ SpelledMark k' ∧ spaceless k' = spaceless k ∧ Relaid false o' s t ∧
      (k' = [] → k = [] ∧ o' = o) := by
  cases hk with
  | none => exact ⟨[], z, o, rfl, .none, rfl, h, fun _ => ⟨rfl, rfl⟩⟩
  | @mark g c hg hc =>
      have hblank : isBlank c = false := by rcases hc with rfl | rfl <;> rfl
      have hvalue : valueAfter false c = false := by rcases hc with rfl | rfl <;> rfl
      rw [List.append_assoc] at h
      obtain ⟨g', t, rfl, hg', -, hrest⟩ := h.blanks_cons hg hblank
      rw [hvalue] at hrest
      refine ⟨g' ++ [c], t, some c, by simp, .mark hg' hc, ?_, hrest, fun h => by simp at h⟩
      rw [spaceless_mark hg' hc, spaceless_mark hg hc]

end Types

/-- A name with the blanks around it, if there is one. -/
theorem Relaid.name {l : List Char} (hb : b.all isBlank = true) (hl : l.all isBlank = true)
    (hw : w ≠ [] → Word True w) (hc : isBlank c = false)
    (h : Relaid false o (b ++ (w ++ (l ++ c :: s))) z) :
    ∃ b' l' t, z = b' ++ (w ++ (l' ++ c :: t)) ∧ b'.all isBlank = true ∧ l'.all isBlank = true ∧
      (w ≠ [] → b' = [] → b = [] ∨ ∃ e, isNameStart e = true ∧ loose false o e = true) ∧
      Relaid (valueAfter false c) (some c) s t := by
  by_cases hnil : w = []
  · subst hnil
    rw [List.nil_append, ← List.append_assoc] at h
    obtain ⟨b', t, rfl, hb', -, hrest⟩ :=
      h.blanks_cons (by rw [List.all_append, hb, hl]; rfl) hc
    exact ⟨b', [], t, rfl, hb', rfl, fun h => absurd rfl h, hrest⟩
  obtain ⟨e, w, rfl⟩ := List.exists_cons_of_ne_nil hnil
  have hword := hw hnil
  have hstart : isNameStart e = true := hword.start
  have hchars := hword.chars
  rw [List.all_cons, Bool.and_eq_true] at hchars
  have hvalue : valueAfter false e = false := by
    have hequals : e ≠ '=' := by
      rintro rfl
      exact nomatch hstart
    simp [valueAfter, hequals]
  obtain ⟨b', z', rfl, hb', hsame, hrest⟩ :=
    h.blanks_cons hb (isBlank_eq_false_of_isNameChar hchars.1)
  rw [hvalue] at hrest
  obtain ⟨f, y, -, rfl, hbehind⟩ := hrest.letters hchars.1 hchars.2
  obtain ⟨l', t, rfl, hl', -, htail⟩ := hbehind.blanks_cons hl hc
  refine ⟨b', l', t, by simp, hb', hl', fun _ hempty => ?_, htail⟩
  rcases hsame with hloose | hsame
  · exact .inr ⟨e, hstart, hloose⟩
  · exact .inl (hsame.mpr hempty)

/-! ## Parameters -/

/-- A parameter that is laid out in another way, up to its ending. -/
theorem LaidParameter.relaid_front (p : LaidParameter True) (hc : isBlank c = false)
    (h : Relaid false o (p.front ++ c :: s) z) :
    ∃ (q : LaidParameter True) (t : List Char), q.typeWords = p.typeWords ∧ q.name = p.name ∧
      z = q.front ++ c :: t ∧ Relaid (valueAfter false c) (some c) s t := by
  have htext : p.front ++ c :: s =
      p.indent ++ (p.type ++ (p.mark ++ (p.space ++ (p.name ++ (p.lead ++ c :: s))))) := by
    simp [front]
  rw [htext] at h
  obtain ⟨i, x, z, rfl, hi, hx, hwords, hlast, h⟩ := p.spelled.relaid p.blank.1 h
  obtain ⟨k, z, o', rfl, hk, hmark, h, hnone⟩ := p.marked.relaid h
  obtain ⟨b, l, t, rfl, hb, hl, hspace, h⟩ := h.name p.blank.2.1 p.blank.2.2 p.named hc
  let q : LaidParameter True :=
    { indent := i, type := x, mark := k, space := b, name := p.name, lead := l, ending := .none,
      blank := ⟨hi, hb, hl⟩, spelled := hx, marked := hk, named := p.named,
      apart := fun hname hempty => by
        obtain ⟨hunmarked, rfl⟩ := hnone hempty
        obtain ⟨htilde, hclose⟩ := p.apart hname hunmarked
        rw [hlast]
        refine ⟨htilde, fun hnil => ?_⟩
        rcases hspace hname hnil with hnil | ⟨d, hstart, hloose⟩
        · exact hclose hnil
        · exact p.spelled.closes_of_loose hstart hloose }
  refine ⟨q, t, ?_, rfl, by simp [q, front], h⟩
  rw [typeWords, typeWords, hwords, hmark]

theorem not_endsDefault_of_blanks (hb : b.all isBlank = true) :
    b.all (fun c => !endsDefault c) = true := by
  rw [List.all_eq_true] at hb ⊢
  intro c hc
  cases hends : endsDefault c with
  | false => rfl
  | true =>
      have hblank := hb c hc
      simp only [endsDefault, Bool.or_eq_true, beq_iff_eq] at hends
      rcases hends with rfl | rfl <;> cases hblank

/-- A default value that is laid out in another way ends at the same place. -/
theorem Relaid.value {y : List Char} (hy : y.all (fun c => !endsDefault c) = true) (hc : Separates c)
    (h : Relaid true o (y ++ c :: s) z) :
    ∃ y' t, z = y' ++ c :: t ∧ y'.all (fun c => !endsDefault c) = true ∧
      Relaid false (some c) s t := by
  have hblank : isBlank c = false := by rcases hc with rfl | rfl <;> rfl
  generalize hx : y ++ c :: s = x at h
  obtain ⟨v, hv⟩ : ∃ v, v = true := ⟨true, rfl⟩
  rw [← hv] at h
  induction h generalizing y with
  | ends hends =>
      have hblank' := List.all_eq_true.mp hends c (by simp [← hx])
      exact nomatch hblank.symm.trans hblank'
  | @next v o b b' s' t e hb hb' he hsame h ih =>
      subst hv
      have hblanks := not_endsDefault_of_blanks hb'
      rcases List.append_eq_append_iff.mp hx with ⟨a, hfront, hrest⟩ | ⟨a, hfront, hrest⟩
      · cases a with
        | nil =>
            obtain ⟨rfl, rfl⟩ := List.cons.inj hrest
            have hvalue : valueAfter true c = false := by rcases hc with rfl | rfl <;> rfl
            rw [hvalue] at h
            exact ⟨b', t, rfl, hblanks, h⟩
        | cons d a =>
            obtain ⟨rfl, -⟩ := List.cons.inj hrest
            have hblank' := List.all_eq_true.mp hb c (by simp [hfront])
            exact nomatch hblank.symm.trans hblank'
      · cases a with
        | nil =>
            obtain ⟨rfl, rfl⟩ := List.cons.inj hrest
            have hvalue : valueAfter true e = false := by rcases hc with rfl | rfl <;> rfl
            rw [hvalue] at h
            exact ⟨b', t, rfl, hblanks, h⟩
        | cons d a =>
            obtain ⟨rfl, hrest'⟩ := List.cons.inj hrest
            rw [hfront, List.all_append, List.all_cons, Bool.and_eq_true, Bool.and_eq_true] at hy
            have hvalue : valueAfter true e = true := by simp [valueAfter, hy.2.1]
            obtain ⟨y', u, rfl, hy', htail⟩ := ih hy.2.2 hrest'.symm hvalue
            refine ⟨b' ++ e :: y', u, by simp, ?_, htail⟩
            rw [List.all_append, List.all_cons, hblanks, hy.2.1, hy']
            rfl

/-- What the layout of a parameter does not change. -/
def LaidParameter.shape (p : LaidParameter True) :
    (List (List Char) × List Char) × List Char × List Char :=
  (p.typeWords, p.name, p.ending.kept)

/-- **A parameter** that is laid out in another way, unless its brackets have come apart. -/
theorem LaidParameter.relaid (p : LaidParameter True) (hc : Separates c)
    (h : Relaid false o (p.text ++ c :: s) z) :
    (∃ (q : LaidParameter True) (t : List Char), q.shape = p.shape ∧ z = q.text ++ c :: t ∧
        Relaid false (some c) s t) ∨
      ∃ (q : LaidParameter True) (b t : List Char), z = q.front ++ '[' :: (b ++ ']' :: t) ∧
        b.all isBlank = true ∧ b ≠ [] := by
  have hblank : isBlank c = false := by rcases hc with rfl | rfl <;> rfl
  have hvalue : valueAfter false c = false := by rcases hc with rfl | rfl <;> rfl
  rw [text, List.append_assoc] at h
  -- The ending is put behind the front that is found.
  have hfound {q : LaidParameter True} {t : List Char} (e : LaidEnding)
      (htype : q.typeWords = p.typeWords) (hname : q.name = p.name)
      (he : e.kept = p.ending.kept) (hrest : Relaid false (some c) s t) :
      ∃ (r : LaidParameter True) (u : List Char), r.shape = p.shape ∧
        q.front ++ (e.text ++ c :: t) = r.text ++ c :: u ∧ Relaid false (some c) s u := by
    let r : LaidParameter True := { q with ending := e }
    refine ⟨r, t, ?_, (List.append_assoc ..).symm, hrest⟩
    rw [shape, shape, ← htype, ← hname, ← he]
    rfl
  cases hending : p.ending with
  | none =>
      rw [hending] at h
      obtain ⟨q, t, htype, hname, rfl, hrest⟩ := p.relaid_front hblank h
      rw [hvalue] at hrest
      exact .inl (hfound .none htype hname (by rw [hending]) hrest)
  | value y closed =>
      rw [hending, LaidEnding.text, List.cons_append] at h
      obtain ⟨q, z', htype, hname, rfl, hrest⟩ := p.relaid_front (c := '=') rfl h
      obtain ⟨y', t, rfl, hclosed, htail⟩ := Relaid.value closed hc hrest
      exact .inl (hfound (.value y' hclosed) htype hname (by rw [hending]; rfl) htail)
  | brackets b blank =>
      rw [hending, LaidEnding.text, List.cons_append, List.cons_append] at h
      obtain ⟨q, z', htype, hname, rfl, hrest⟩ := p.relaid_front (c := '[') rfl h
      obtain ⟨d, z'', rfl, hd, -, hbehind⟩ := hrest.blanks_cons (b := []) (c := ']') rfl rfl
      by_cases hnil : d = []
      · subst hnil
        obtain ⟨b', t, rfl, hb', -, htail⟩ := hbehind.blanks_cons blank hblank
        have hclose : valueAfter (valueAfter false '[') ']' = false := rfl
        rw [hclose, hvalue] at htail
        exact .inl (hfound (.brackets b' hb') htype hname (by rw [hending]; rfl) htail)
      · exact .inr ⟨q, d, z'', rfl, hd, hnil⟩

/-- Brackets that have come apart are refused. -/
theorem LaidParameter.refused_of_brackets (q : LaidParameter True) (hb : b.all isBlank = true)
    (hne : b ≠ []) (t : List Char) :
    (readParameterTail (q.front ++ '[' :: (b ++ t))).1 = none := by
  obtain ⟨c, b, rfl⟩ := List.exists_cons_of_ne_nil hne
  have hblank : isBlank c = true := List.all_eq_true.mp hb c List.mem_cons_self
  have hclose : c ≠ ']' := by
    rintro rfl
    exact nomatch hblank
  have hdrop : (q.front ++ '[' :: (c :: b ++ t)).drop q.front.length = '[' :: (c :: b ++ t) :=
    List.drop_left
  rcases q.readParameter_front (y := '[' :: (c :: b ++ t)) rfl rfl with hread | ⟨-, hnone⟩
  · have hlength : (readParameter (q.front ++ '[' :: (c :: b ++ t))).2 = q.front.length := by
      rw [hread]
      rcases readParameterEnd_cases (q.front ++ '[' :: (c :: b ++ t)) (q.written ++ q.nameText)
        q.front.length with ⟨v, hv, -⟩ | ⟨r, hr, -⟩ | hend
      · exact nomatch hdrop.symm.trans hv
      · have hsame := (List.cons.inj (hdrop.symm.trans hr)).2
        exact absurd (List.cons.inj hsame).1 hclose
      · exact hend
    refine readParameterTail_refused (c := '[') ?_ fun h => h.elim nofun nofun
    rw [hlength, hdrop]
    rfl
  · exact hnone

/-! ## Lists -/

/-- **The rest of a list** that is laid out in another way, if it is accepted. -/
theorem relaid_commas {y : List Char} (p : LaidParameter True) (ps : List (LaidParameter True))
    (h : Relaid false o (commas ((p :: ps).map LaidParameter.text) ++ [')']) z)
    (haccepted : (readParameterTail (z ++ y)).1 ≠ none) :
    ∃ (q : LaidParameter True) (qs : List (LaidParameter True)) (b : List Char),
      (q :: qs).map LaidParameter.shape = (p :: ps).map LaidParameter.shape ∧
        z = commas ((q :: qs).map LaidParameter.text) ++ ')' :: b := by
  have hrefused {q : LaidParameter True} {b t : List Char} (hb : b.all isBlank = true) (hne : b ≠ []) :
      (readParameterTail (q.front ++ '[' :: (b ++ ']' :: t) ++ y)).1 = none := by
    simpa using q.refused_of_brackets hb hne (']' :: (t ++ y))
  induction ps generalizing p o z with
  | nil =>
      rw [List.map_singleton, commas, List.intercalate_singleton] at h
      rcases p.relaid (.inr rfl) h with ⟨q, b, hshape, rfl, -⟩ | ⟨q, b, t, rfl, hb, hne⟩
      · exact ⟨q, [], b, by rw [List.map_singleton, hshape]; rfl, by simp [commas]⟩
      · exact absurd (hrefused hb hne) haccepted
  | cons r rs ih =>
      have htext : commas ((p :: r :: rs).map LaidParameter.text) ++ [')'] =
          p.text ++ ',' :: (commas ((r :: rs).map LaidParameter.text) ++ [')']) := by
        simp only [List.map_cons, commas_cons, List.append_assoc, List.cons_append]
      rw [htext] at h
      rcases p.relaid (.inl rfl) h with ⟨q, t, hshape, rfl, hrest⟩ | ⟨q, b, t, rfl, hb, hne⟩
      · have hcut : q.text ++ ',' :: t ++ y = q.text ++ ',' :: (t ++ y) := by simp
        rw [hcut] at haccepted
        rcases q.readParameter_text (t ++ y) (.inl rfl) with hread | ⟨-, hnone⟩
        · obtain ⟨-, u, ⟨hnext, htail, -⟩ | ⟨hnext, -⟩⟩ := readParameterTail_cases haccepted
          · rw [hread, List.drop_left] at hnext
            rw [← (List.cons.inj hnext).2] at htail
            obtain ⟨q', qs, b, hshapes, rfl⟩ := ih r hrest htail
            refine ⟨q, q' :: qs, b, by rw [List.map_cons, hshapes, hshape]; rfl, ?_⟩
            simp only [List.map_cons, commas_cons, List.append_assoc, List.cons_append]
          · rw [hread, List.drop_left] at hnext
            cases hnext
        · exact absurd hnone haccepted
      · exact absurd (hrefused hb hne) haccepted

/-! ## Keywords of classes before a mark -/

/-- The keyword of a class stands as a name directly before a mark. -/
def NamesRecord (s : List Char) : Prop :=
  ∃ a k b r c, s = a ++ (k ++ (b ++ c :: r)) ∧ a.getLast?.any isNameChar = false ∧
    isRecord k = true ∧ b.all isBlank = true ∧ (c = '&' ∨ c = '*')

/-- A text with a keyword before a mark holds the keyword. -/
theorem NamesRecord.holds (h : NamesRecord s) :
    RecordKey.ofClass.text <:+: s ∨ RecordKey.ofStruct.text <:+: s := by
  obtain ⟨a, k, b, r, c, hs, -, hk, -, -⟩ := h
  have hinfix : k <:+: s := ⟨a, b ++ c :: r, by rw [hs, List.append_assoc]⟩
  rw [isRecord, Bool.or_eq_true, beq_iff_eq, beq_iff_eq] at hk
  rcases hk with rfl | rfl
  · exact .inl hinfix
  · exact .inr hinfix

/-- The last word of a text stands behind blanks or at the front. -/
theorem exists_last_word (hspace : ∀ c ∈ x, isSpace c = true → isBlank c = true)
    (hlast : x.getLast?.any (!isBlank ·) = true) :
    ∃ u w, x = u ++ w ∧ (words x).getLast? = some w ∧ u.getLast?.all isBlank = true := by
  have hcut := congrArg List.reverse
    (List.takeWhile_append_dropWhile (p := fun c => !isBlank c) (l := x.reverse))
  have hstop := head?_dropWhile_not (q := fun c => !isBlank c) x.reverse
  have hall : (x.reverse.takeWhile fun c => !isBlank c).all (fun c => !isBlank c) = true :=
    List.all_takeWhile
  have hne : (x.reverse.takeWhile fun c => !isBlank c) ≠ [] := by
    rcases List.eq_nil_or_concat x with rfl | ⟨y, d, rfl⟩
    · exact nomatch hlast
    · rw [List.concat_eq_append, List.getLast?_concat] at hlast
      rw [List.concat_eq_append, List.reverse_append, List.reverse_singleton, List.singleton_append,
        List.takeWhile_cons_of_pos (by simpa using hlast)]
      exact List.cons_ne_nil _ _
  generalize (x.reverse.takeWhile fun c => !isBlank c) = w at hcut hall hne
  generalize (x.reverse.dropWhile fun c => !isBlank c) = u at hcut hstop
  rw [List.reverse_append, List.reverse_reverse] at hcut
  have hsolid : Solid w.reverse := by
    intro c hc
    cases hsp : isSpace c with
    | false => rfl
    | true =>
        have hblank := hspace c (by rw [← hcut]; exact List.mem_append_right _ hc) hsp
        simpa [hblank] using List.all_eq_true.mp hall c (List.mem_reverse.mp hc)
  have hword : words w.reverse = [w.reverse] :=
    words_eq_singleton hsolid (mt List.reverse_eq_nil_iff.mp hne)
  refine ⟨u.reverse, w.reverse, hcut.symm, ?_, ?_⟩
  · cases u with
    | nil => rw [← hcut, List.reverse_nil, List.nil_append, hword]; rfl
    | cons d u =>
        have hd : isBlank d = true := by simpa using hstop
        rw [← hcut, List.reverse_cons, List.append_assoc, List.singleton_append,
          words_append_cons (isSpace_of_isBlank hd), hword, List.getLast?_concat]
  · rw [List.getLast?_reverse]
    cases u with
    | nil => rfl
    | cons d u => simpa using hstop

/-- Without a keyword before a mark, the type is kept by its words. -/
theorem LaidParameter.kept_of_shape {p q : LaidParameter True} (hshape : q.shape = p.shape)
    (hlast : p.mark ≠ [] → ∀ w, (words p.type).getLast? = some w → isRecord w = false) :
    q.kept = p.kept := by
  obtain ⟨htype, hrest⟩ := Prod.mk.inj hshape
  obtain ⟨hname, hending⟩ := Prod.mk.inj hrest
  obtain ⟨hwords, hmark⟩ := Prod.mk.inj htype
  have hwritten (r : LaidParameter True)
      (hr : r.mark ≠ [] → ∀ w, (words r.type).getLast? = some w → isRecord w = false) :
      r.written = joined (cleanWords (words r.type)) ++ spaceless r.mark := by
    have hclean := cleanType_marked (i := []) (b := []) rfl r.spelled r.marked rfl hr
    rwa [List.nil_append, List.append_nil] at hclean
  have hmarked : q.mark ≠ [] → p.mark ≠ [] := by
    intro hne hnil
    rw [hnil] at hmark
    have hspelled := q.marked
    generalize q.mark = k at hne hmark hspelled
    cases hspelled with
    | none => exact hne rfl
    | mark hg hc =>
        rw [spaceless_mark hg hc] at hmark
        exact nomatch hmark
  rw [kept, kept, hwritten p hlast, hwritten q (fun hne => hwords ▸ hlast (hmarked hne)), hwords, hmark,
    nameText, nameText, hname, hending]

theorem last_no_letter {a : List Char} (ha : a.getLast?.any isNameChar = false)
    (hb : b.getLast?.all isBlank = true) : (a ++ b).getLast?.any isNameChar = false := by
  by_cases hnil : b = []
  · rwa [hnil, List.append_nil]
  · rw [getLast?_append_right hnil]
    cases hc : b.getLast? with
    | none => rfl
    | some c =>
        rw [hc] at hb
        exact isNameChar_eq_false_of_isBlank hb

/-- The last word of a type in a list is no keyword if a mark follows. -/
theorem LaidParameter.last_word {a r : List Char} (p : LaidParameter True)
    (ha : a.getLast?.any isNameChar = false) (h : ¬ NamesRecord (a ++ (p.text ++ r)))
    (hmark : p.mark ≠ []) : ∀ w, (words p.type).getLast? = some w → isRecord w = false := by
  intro w hw
  obtain ⟨u, w', htype, hw', hu⟩ :=
    exists_last_word p.spelled.typeChars.isBlank p.spelled.getLast?_no_blank
  obtain rfl := Option.some.inj (hw'.symm.trans hw)
  cases hrecord : isRecord w' with
  | false => rfl
  | true =>
      refine absurd ?_ h
      have hmarked := p.marked
      generalize hk : p.mark = k at hmark hmarked
      cases hmarked with
      | none => exact absurd rfl hmark
      | @mark g c hg hc =>
          refine ⟨a ++ (p.indent ++ u), w', g, p.space ++ (p.name ++ (p.lead ++ (p.ending.text ++ r))), c,
            ?_, ?_, hrecord, hg, hc⟩
          · simp [text, front, htype, hk]
          · have hindent : p.indent.getLast?.all isBlank = true := by
              cases hlast : p.indent.getLast? with
              | none => rfl
              | some d => exact List.all_eq_true.mp p.blank.1 d (List.mem_of_getLast? hlast)
            rw [← List.append_assoc]
            exact last_no_letter (last_no_letter ha hindent) hu

/-- **A list** without keywords before marks is kept alike in another layout. -/
theorem kept_of_shapes {a r : List Char} {ps qs : List (LaidParameter True)}
    (hshapes : qs.map LaidParameter.shape = ps.map LaidParameter.shape)
    (ha : a.getLast?.any isNameChar = false)
    (h : ¬ NamesRecord (a ++ (commas (ps.map LaidParameter.text) ++ ')' :: r))) :
    qs.map LaidParameter.kept = ps.map LaidParameter.kept := by
  induction ps generalizing a qs with
  | nil => rw [List.map_eq_nil_iff.mp hshapes]
  | cons p ps ih =>
      cases qs with
      | nil => exact nomatch hshapes
      | cons q qs =>
          obtain ⟨hshape, hrest⟩ := List.cons.inj hshapes
          have hcons (hfirst : p.mark ≠ [] → ∀ w, (words p.type).getLast? = some w → isRecord w = false)
              (htail : qs.map LaidParameter.kept = ps.map LaidParameter.kept) :
              (q :: qs).map LaidParameter.kept = (p :: ps).map LaidParameter.kept := by
            rw [List.map_cons, List.map_cons, LaidParameter.kept_of_shape hshape hfirst, htail]
          cases ps with
          | nil =>
              rw [List.map_singleton, commas, List.intercalate_singleton] at h
              exact hcons (p.last_word ha h) (by rw [List.map_eq_nil_iff.mp hrest])
          | cons s ps =>
              simp only [List.map_cons, commas_cons, List.append_assoc, List.cons_append] at h
              refine hcons (p.last_word ha h) (ih (a := a ++ (p.text ++ [','])) hrest ?_ ?_)
              · rw [← List.append_assoc, List.getLast?_concat]
                rfl
              · simpa [commas] using h

/-! ## Whole lists -/

/-- What a list in its parentheses is read as, behind the blanks there. -/
theorem readParameters_parenthesis {l y : List Char} (hl : l.all isBlank = true)
    (hb : b.all isBlank = true) (hy : gap y = 0) :
    (readParameters (l ++ '(' :: (b ++ y))).1 =
      if y.head? = some ')' then "()"
      else ((readParameterTail y).1.map fun t => String.ofList ('(' :: t)).getD "" := by
  have hopen : (l ++ '(' :: (b ++ y)).drop (gap (l ++ '(' :: (b ++ y))) = '(' :: (b ++ y) := by
    rw [gap_blanks_append hl, gap_parenthesis, Nat.add_zero, List.drop_left]
  have hbehind : (b ++ y).drop (gap (b ++ y)) = y := by
    rw [gap_blanks_append hb, hy, Nat.add_zero, List.drop_left]
  rw [readParameters_of_open hopen, readParameters_eq hbehind]
  split <;> rfl

/-- The parameters of a list that is laid out in another way, if it is accepted. -/
theorem kept_relaid {l y : List Char} (p : LaidParameter True) (ps : List (LaidParameter True))
    (hl : l.all isBlank = true)
    (h : Relaid false (some '(') (commas ((p :: ps).map LaidParameter.text) ++ [')']) z)
    (haccepted : (readParameters (l ++ '(' :: (z ++ y))).1 ≠ "") :
    ∃ qs : List (LaidParameter True), qs.map LaidParameter.shape = (p :: ps).map LaidParameter.shape ∧
      (readParameters (l ++ '(' :: (z ++ y))).1 = laidKept qs := by
  -- The blanks behind the parenthesis are skipped with it.
  let p' : LaidParameter True := { p with indent := [], blank := ⟨rfl, p.blank.2⟩ }
  have hfirst : p.text = p.indent ++ p'.text := by
    simp [p', LaidParameter.text, LaidParameter.front]
  obtain ⟨c, x, hx, hblank, htype⟩ := p.spelled.exists_head
  have hhead : (commas ((p' :: ps).map LaidParameter.text) ++ [')']).head? = some c := by
    cases ps <;>
      simp [p', commas, List.intercalate_cons_cons, LaidParameter.text, LaidParameter.front, hx]
  rw [commas_behind hfirst, List.append_assoc] at h
  obtain ⟨b, z, rfl, hb, hsame, hrest⟩ := h.blanks_append p.blank.1 (by rw [hhead]; simpa using hblank)
  obtain ⟨z', rfl⟩ := List.head?_eq_some_iff.mp (hsame.trans hhead)
  obtain ⟨hgap, hopen⟩ := front_of_isTypeChar htype hblank (z' ++ y)
  rw [← List.cons_append] at hgap hopen
  have hread := readParameters_parenthesis hl hb hgap
  rw [if_neg hopen] at hread
  rw [List.append_assoc] at haccepted ⊢
  rw [hread] at haccepted ⊢
  have htail : (readParameterTail (c :: z' ++ y)).1 ≠ none := by
    intro hnone
    rw [hnone] at haccepted
    exact haccepted rfl
  obtain ⟨q, qs, d, hshapes, hz⟩ := relaid_commas p' ps hrest htail
  rw [hz, List.append_assoc, List.cons_append] at htail ⊢
  have hlaid := (readParameterTail_laid q qs (d ++ y)).resolve_right fun hrefused => htail hrefused.2
  refine ⟨q :: qs, hshapes, ?_⟩
  rw [hlaid]
  rfl

/-- **Accepted lists** that differ in their layout are kept alike. -/
theorem readParameters_relaid (hs : (readParameters s).1 ≠ "") (ht : (readParameters t).1 ≠ "")
    (hcomments : commented false (s.take (readParameters s).2) = false)
    (hrecords : ¬ NamesRecord (s.take (readParameters s).2))
    (h : Relaid false none (s.take (readParameters s).2) (t.take (readParameters t).2)) :
    (readParameters s).1 = (readParameters t).1 := by
  obtain ⟨l, hl, hcases⟩ := exists_laidList hs hcomments
  have hsText := (List.take_append_drop (readParameters s).2 s).symm
  have htText := (List.take_append_drop (readParameters t).2 t).symm
  generalize s.drop (readParameters s).2 = y at hsText
  generalize t.drop (readParameters t).2 = u at htText
  rcases hcases with ⟨b, hb, hlist⟩ | ⟨p, ps, hlist⟩
  · -- There are no parameters.
    rw [hlist] at h hsText
    obtain ⟨l', z, hz, hl', -, hrest⟩ := h.blanks_cons hl rfl
    obtain ⟨b', v, rfl, hb', -, -⟩ := hrest.blanks_cons (s := []) (c := ')') hb rfl
    rw [hz] at htText
    have hleft := readParameters_parenthesis (y := ')' :: y) hl hb (gap_punctuation (by decide) _)
    have hright := readParameters_parenthesis (y := ')' :: (v ++ u)) hl' hb'
      (gap_punctuation (by decide) _)
    rw [List.head?_cons, if_pos rfl] at hleft hright
    simp only [List.append_assoc, List.cons_append, List.nil_append] at hsText htText
    rw [hsText, htText, hleft, hright]
  · rw [hlist] at h hsText hrecords
    obtain ⟨l', z, hz, hl', -, hrest⟩ := h.blanks_cons hl rfl
    rw [hz] at htText
    simp only [List.append_assoc, List.cons_append] at htText
    rw [htText] at ht
    obtain ⟨qs, hshapes, hread⟩ := kept_relaid p ps hl' hrest ht
    rw [hsText, List.append_assoc] at hs
    have hleft := (readParameters_laid (p :: ps) hl y).resolve_right fun hrefused => hs hrefused.2
    have hkept := kept_of_shapes (a := l ++ ['(']) (r := []) hshapes
      (by rw [List.getLast?_concat]; rfl) (by simpa [laidList] using hrecords)
    rw [hsText, List.append_assoc, hleft, htText, hread, laidKept, laidKept, hkept]

/-- **The signature** of an accepted list depends on its layout only, if it holds no line comment outside
of default values and no keyword of a class as a name before a mark. -/
theorem typesOnly_layout (hs : (readParameters s).1 ≠ "") (ht : (readParameters t).1 ≠ "")
    (hcomments : commented false (s.take (readParameters s).2) = false)
    (hrecords : ¬ NamesRecord (s.take (readParameters s).2))
    (h : layout false none false (s.take (readParameters s).2) =
      layout false none false (t.take (readParameters t).2)) :
    typesOnly (readParameters s).1 = typesOnly (readParameters t).1 := by
  rw [readParameters_relaid hs ht hcomments hrecords (relaid_of_layout h)]

end Relaid

/-- Blanks around a reference, a name and a default value. -/
theorem typesOnly_layout_foo :
    typesOnly (readParameters "( const Foo & a , List<Foo>b = 1)".toList).1 =
      typesOnly (readParameters "(const\tFoo&a,\nList<Foo> b =1 );".toList).1 := by
  apply typesOnly_layout
  · decide +kernel
  · decide +kernel
  · decide +kernel
  · intro h
    exact h.holds.elim (by decide +kernel) (by decide +kernel)
  · decide +kernel

/-- **Blanks inside the name of a type** count, as do those before a line comment, which is kept with the
type, and those between a keyword of a class and a mark.  Each list is given with what is kept of it and
with its signature. -/
theorem typesOnly_inside_names :
    (["(List< Foo > a)", "(List<Foo> a)", "(std ::string a)", "(std::string a)", "(Foo // x\n, Bar)",
        "(Foo// x\n, Bar)", "(Foo:: class &a)", "(Foo:: class&a)"].map fun s =>
          ((readParameters s.toList).1, typesOnly (readParameters s.toList).1)) =
      [("(List< Foo > a)", "( List< Foo > )"), ("(List<Foo> a)", "( List<Foo> )"),
        ("(std ::string a)", "( std ::string )"), ("(std::string a)", "( std::string )"),
        ("(Foo // x, Bar)", "( Foo // x, Bar) )"), ("(Foo// x, Bar)", "( Foo// x, Bar) )"),
        ("(Foo::& a)", " )"), ("(Foo:: class& a)", "( Foo:: class& )")] := by
  decide +kernel

end CppDoc.Syntax
