import CppDoc.Proofs.Syntax.Cleaning

/-!
# Types with other blanks

`Respaced s t` says that `t` is `s` with other blanks in the places where `s` has blanks.  A type that
is respaced is a type, and its words are the same.  In particular the written form of a type without
its mark is a type again, if the keywords of classes stand among the modifiers.

* `SpelledName.respaced` and `SpelledType.respaced`: names and types with other blanks;
* `respaced_joined_words`: single spaces are a case of it;
* `SpelledType.kept`: what is kept of a type is a type.
-/

namespace CppDoc.Syntax

open CppDoc.Text

/-- `t` is `s` with other blanks in the places of its blanks. -/
inductive Respaced : List Char → List Char → Prop
  | ends {b b' : List Char} (hb : b.all isBlank = true) (hb' : b'.all isBlank = true)
      (hsame : b = [] ↔ b' = []) : Respaced b b'
  | next {b b' s t : List Char} {c : Char} (hb : b.all isBlank = true)
      (hb' : b'.all isBlank = true) (hsame : b = [] ↔ b' = []) (hc : isBlank c = false)
      (h : Respaced s t) : Respaced (b ++ c :: s) (b' ++ c :: t)

section Respaced

variable {s t u v z w g : List Char} {c : Char}

/-- A text is checked for blanks character by character. -/
theorem no_blank_of_all (hw : w.all (!isBlank ·) = true) : ∀ c ∈ w, isBlank c = false := by
  simpa using hw

/-- A character that is no blank stays. -/
theorem Respaced.cons (hc : isBlank c = false) (h : Respaced s t) : Respaced (c :: s) (c :: t) :=
  @Respaced.next [] [] s t c rfl rfl Iff.rfl hc h

/-- What begins with no blank begins alike. -/
theorem Respaced.exists_cons (hc : isBlank c = false) (h : Respaced (c :: s) z) :
    ∃ t, z = c :: t ∧ Respaced s t := by
  generalize hs : c :: s = y at h
  cases h with
  | ends hb =>
      subst hs
      have hblank := List.all_eq_true.mp hb c List.mem_cons_self
      exact nomatch hc.symm.trans hblank
  | @next b b' s' t d hb hb' hsame hd h =>
      cases b with
      | nil =>
          obtain rfl := hsame.mp rfl
          obtain ⟨rfl, rfl⟩ := List.cons.inj hs
          exact ⟨t, rfl, h⟩
      | cons e b =>
          obtain ⟨rfl, -⟩ := List.cons.inj hs
          have hblank := List.all_eq_true.mp hb c List.mem_cons_self
          exact nomatch hc.symm.trans hblank

/-- Blanks are respaced as blanks. -/
theorem Respaced.of_blanks (hg : g.all isBlank = true) (h : Respaced g z) :
    z.all isBlank = true ∧ (g = [] ↔ z = []) := by
  cases h with
  | ends hb hb' hsame => exact ⟨hb', hsame⟩
  | @next b b' s t c hb hb' hsame hc h =>
      have hblank := List.all_eq_true.mp hg c (by simp)
      exact nomatch hc.symm.trans hblank

/-- Where a run of blanks is not cut, none begins behind blanks. -/
theorem head?_behind_blanks (hcut : u.getLast?.any isBlank = true → v.head?.any isBlank = false)
    (hu : u.all isBlank = true) (hne : u ≠ []) : v.head?.any isBlank = false := by
  apply hcut
  rw [List.getLast?_eq_some_getLast hne]
  exact List.all_eq_true.mp hu _ (List.getLast_mem hne)

/-- A text is respaced in two parts, unless they share a run of blanks. -/
theorem Respaced.split (h : Respaced (u ++ v) z)
    (hcut : u.getLast?.any isBlank = true → v.head?.any isBlank = false) :
    ∃ u' v', z = u' ++ v' ∧ Respaced u u' ∧ Respaced v v' := by
  have hnil : Respaced [] [] := .ends rfl rfl Iff.rfl
  generalize hs : u ++ v = y at h
  induction h generalizing u v with
  | @ends b b' hb hb' hsame =>
      subst hs
      rw [List.all_append, Bool.and_eq_true] at hb
      by_cases hu : u = []
      · subst hu
        exact ⟨[], b', rfl, hnil, .ends hb.2 hb' hsame⟩
      have hhead := head?_behind_blanks hcut hb.1 hu
      cases v with
      | nil =>
          rw [List.append_nil] at hsame
          exact ⟨b', [], (List.append_nil _).symm, .ends hb.1 hb' hsame, hnil⟩
      | cons e v => exact nomatch hhead.symm.trans (List.all_eq_true.mp hb.2 e List.mem_cons_self)
  | @next b b' s t c hb hb' hsame hc h ih =>
      have hwhole (hu : u = b) (hv : v = c :: s) :
          ∃ u' v', b' ++ c :: t = u' ++ v' ∧ Respaced u u' ∧ Respaced v v' := by
        subst hu hv
        exact ⟨b', c :: t, rfl, .ends hb hb' hsame, .cons hc h⟩
      rcases List.append_eq_append_iff.mp hs with ⟨a, hba, hv⟩ | ⟨a, hua, hrest⟩
      · -- The first part consists of blanks.
        by_cases hu : u = []
        · subst hu
          rw [List.nil_append] at hs
          exact ⟨[], b' ++ c :: t, rfl, hnil, hs ▸ .next hb hb' hsame hc h⟩
        rw [hba, List.all_append, Bool.and_eq_true] at hb
        cases a with
        | nil => exact hwhole (by simpa using hba.symm) hv
        | cons e a =>
            have hhead := head?_behind_blanks hcut hb.1 hu
            rw [hv] at hhead
            exact nomatch hhead.symm.trans (List.all_eq_true.mp hb.2 e List.mem_cons_self)
      · cases a with
        | nil => exact hwhole (by simpa using hua) hrest.symm
        | cons d a =>
            obtain ⟨rfl, hsplit⟩ := List.cons.inj hrest
            have hcut' : a.getLast?.any isBlank = true → v.head?.any isBlank = false := by
              intro hlast
              apply hcut
              have hne : a ≠ [] := by
                rintro rfl
                exact nomatch hlast
              rwa [hua, List.append_cons, getLast?_append_right hne]
            obtain ⟨u', v', rfl, hu, hv⟩ := ih hcut' hsplit.symm
            exact ⟨b' ++ c :: u', v', by simp, hua ▸ .next hb hb' hsame hc hu, hv⟩

/-- A text in front of what begins with no blank. -/
theorem Respaced.split_head (h : Respaced (u ++ v) z) (hv : v.head?.any (!isBlank ·) = true) :
    ∃ u' v', z = u' ++ v' ∧ Respaced u u' ∧ Respaced v v' := by
  refine h.split fun _ => ?_
  cases v with
  | nil => rfl
  | cons c rest => simpa using hv

/-- A text that ends in no blank. -/
theorem Respaced.split_last (h : Respaced (u ++ v) z) (hu : u.getLast?.any (!isBlank ·) = true) :
    ∃ u' v', z = u' ++ v' ∧ Respaced u u' ∧ Respaced v v' := by
  refine h.split fun hlast => ?_
  cases hc : u.getLast? with
  | none =>
      rw [hc] at hlast
      exact nomatch hlast
  | some c =>
      rw [hc] at hlast hu
      simp only [Option.any_some] at hlast hu
      rw [hlast] at hu
      exact nomatch hu

/-- A text without blanks stays as it is. -/
theorem Respaced.solid_append (hw : ∀ c ∈ w, isBlank c = false) (h : Respaced (w ++ v) z) :
    ∃ v', z = w ++ v' ∧ Respaced v v' := by
  induction w generalizing z with
  | nil => exact ⟨z, rfl, h⟩
  | cons c rest ih =>
      obtain ⟨t, rfl, ht⟩ := h.exists_cons (hw c List.mem_cons_self)
      obtain ⟨v', rfl, hv⟩ := ih (fun d hd => hw d (List.mem_cons_of_mem c hd)) ht
      exact ⟨v', rfl, hv⟩

/-- A text that does not end in a blank ends alike. -/
theorem Respaced.getLast?_eq (h : Respaced s z) (hs : s.getLast?.any (!isBlank ·) = true) :
    z.getLast? = s.getLast? := by
  rcases List.eq_nil_or_concat s with rfl | ⟨u, d, rfl⟩
  · exact nomatch hs
  rw [List.concat_eq_append, List.getLast?_concat] at hs ⊢
  have hd : isBlank d = false := by simpa using hs
  rw [List.concat_eq_append] at h
  obtain ⟨u', v, rfl, -, hv⟩ := h.split_head (v := [d]) (by simp [hd])
  obtain ⟨y, rfl, hy⟩ := hv.exists_cons hd
  rw [(hy.of_blanks rfl).2.mp rfl, List.getLast?_concat]

theorem Respaced.eq_of_solid (hw : ∀ c ∈ w, isBlank c = false) (h : Respaced w z) : z = w := by
  obtain ⟨v', rfl, hv⟩ := Respaced.solid_append (v := []) hw (by rwa [List.append_nil])
  rw [(hv.of_blanks rfl).2.mp rfl, List.append_nil]

/-- Blanks in front of what begins with none. -/
theorem Respaced.blanks_append (hg : g.all isBlank = true) (hv : v.head?.any (!isBlank ·) = true)
    (h : Respaced (g ++ v) z) :
    ∃ g' v', z = g' ++ v' ∧ g'.all isBlank = true ∧ (g = [] ↔ g' = []) ∧ Respaced v v' := by
  obtain ⟨g', v', rfl, hblanks, hrest⟩ := h.split_head hv
  obtain ⟨hg', hsame⟩ := hblanks.of_blanks hg
  exact ⟨g', v', rfl, hg', hsame, hrest⟩

/-- The characters at the front stay, as far as there are no blanks. -/
theorem Respaced.takeWhile_eq {p : Char → Bool} (hp : ∀ c, isBlank c = true → p c = false)
    (h : Respaced s t) : t.takeWhile p = s.takeWhile p := by
  have hstop {b x : List Char} (hb : b.all isBlank = true) (hne : b ≠ []) :
      (b ++ x).takeWhile p = [] := by
    obtain ⟨c, rest, rfl⟩ := List.exists_cons_of_ne_nil hne
    have hc := hp c (List.all_eq_true.mp hb c List.mem_cons_self)
    simp [hc]
  induction h with
  | @ends b b' hb hb' hsame =>
      by_cases hne : b = []
      · rw [hne, hsame.mp hne]
      · have hleft := hstop (x := []) hb hne
        have hright := hstop (x := []) hb' (mt hsame.mpr hne)
        rw [List.append_nil] at hleft hright
        rw [hleft, hright]
  | @next b b' s t c hb hb' hsame hc h ih =>
      by_cases hne : b = []
      · rw [hne, hsame.mp hne, List.nil_append, List.nil_append, List.takeWhile_cons,
          List.takeWhile_cons, ih]
      · rw [hstop hb hne, hstop hb' (mt hsame.mpr hne)]

/-- **The words** are the same. -/
theorem Respaced.words_eq (h : Respaced s t) : words t = words s := by
  have hblanks {b : List Char} (hb : b.all isBlank = true) : words b = [] := by
    have hnone := words_indent hb []
    rwa [List.append_nil] at hnone
  have hends {s t : List Char} (h : Respaced s t) : t.head?.all isSpace = s.head?.all isSpace := by
    have hspace {b x : List Char} (hb : b.all isBlank = true) (hne : b ≠ []) :
        (b ++ x).head?.all isSpace = true := by
      obtain ⟨c, rest, rfl⟩ := List.exists_cons_of_ne_nil hne
      exact isSpace_of_isBlank (List.all_eq_true.mp hb c List.mem_cons_self)
    cases h with
    | ends hb hb' hsame =>
        by_cases hne : s = []
        · rw [hne, hsame.mp hne]
        · have hleft := hspace (x := []) hb hne
          have hright := hspace (x := []) hb' (mt hsame.mpr hne)
          rw [List.append_nil] at hleft hright
          rw [hleft, hright]
    | @next b b' s t c hb hb' hsame =>
        by_cases hne : b = []
        · rw [hne, hsame.mp hne]
          rfl
        · rw [hspace hb hne, hspace hb' (mt hsame.mpr hne)]
  induction h with
  | ends hb hb' => rw [hblanks hb, hblanks hb']
  | @next b b' s t c hb hb' hsame hc h ih =>
      rw [words_indent hb, words_indent hb', words, words, hends h, ih]

end Respaced

/-! ## Names and types -/

section Grammar

variable {E : Prop} {s t l c q x w : List Char} {k : Shape}

theorem Word.no_blank (hw : Word E w) : ∀ c ∈ w, isBlank c = false :=
  fun c hc => isBlank_eq_false_of_isNameChar (List.all_eq_true.mp hw.chars c hc)

theorem Word.head?_no_blank (hw : Word E w) (x : List Char) :
    (w ++ x).head?.any (!isBlank ·) = true := by
  obtain ⟨c, rest, rfl⟩ := List.exists_cons_of_ne_nil hw.ne_nil
  simp [hw.no_blank c List.mem_cons_self]

theorem Lead.respaced (h : Lead l) (hr : Respaced l t) : Lead t := by
  cases h with
  | none =>
      rw [(hr.of_blanks rfl).2.mp rfl]
      exact .none
  | outermost hb =>
      obtain ⟨b', rfl, hblanks⟩ := Respaced.solid_append (w := [':', ':']) (no_blank_of_all rfl) hr
      exact .outermost (hblanks.of_blanks hb).1

theorem ChainMember.respaced (h : ChainMember E c) (hr : Respaced c t) : ChainMember E t := by
  have hword {b w t : List Char} (hb : b.all isBlank = true) (hw : Word E w)
      (hr : Respaced (b ++ w) t) : ∃ b', t = b' ++ w ∧ b'.all isBlank = true ∧ (b = [] ↔ b' = []) := by
    have hhead := hw.head?_no_blank []
    rw [List.append_nil] at hhead
    obtain ⟨b', w', rfl, hb', hsame, hrest⟩ := hr.blanks_append hb hhead
    exact ⟨b', by rw [hrest.eq_of_solid hw.no_blank], hb', hsame⟩
  cases h with
  | name hb hw hkey =>
      obtain ⟨b', rfl, hb', hsame⟩ := hword hb hw hr
      exact .name hb' hw fun hnil => hkey (hsame.mpr hnil)
  | destructor hb hw =>
      obtain ⟨t, rfl, hrest⟩ := hr.exists_cons (by decide)
      obtain ⟨b', rfl, hb', -⟩ := hword hb hw hrest
      exact .destructor hb' hw
  | tilde =>
      rw [hr.eq_of_solid (no_blank_of_all rfl)]
      exact .tilde

/-- No part of a name or type ends in a blank. -/
theorem any_no_blank {o : Option Char}
    (h : o = some '>' ∨ o = some '~' ∨ o.any isNameChar = true) : o.any (!isBlank ·) = true := by
  rcases h with rfl | rfl | h
  · rfl
  · rfl
  · cases o with
    | none => exact nomatch h
    | some c => simp [isBlank_eq_false_of_isNameChar (c := c) h]

theorem SpelledName.getLast?_no_blank (h : SpelledName E k q) :
    q.getLast?.any (!isBlank ·) = true :=
  any_no_blank (h.getLast?.imp And.right And.right)

theorem head?_no_blank (h : s.head?.any beginsType = true) : s.head?.any (!isBlank ·) = true := by
  cases s with
  | nil => exact nomatch h
  | cons c rest =>
      have hblank := (gap_cons_eq_zero_iff.mp (gap_eq_zero_of_beginsType h rest)).1
      simp [hblank]

theorem respaced_chain {cs : List (List Char)} (hcs : ∀ c ∈ cs, ChainMember E c)
    (hr : Respaced (chain cs) t) :
    ∃ cs', t = chain cs' ∧ (∀ c ∈ cs', ChainMember E c) ∧ (cs' = [] → cs = []) := by
  induction cs generalizing t with
  | nil => exact ⟨[], (hr.of_blanks rfl).2.mp rfl, nofun, fun _ => rfl⟩
  | cons c cs ih =>
      have hc := hcs c List.mem_cons_self
      rw [chain_cons_eq] at hr
      obtain ⟨y, rfl, hy⟩ := Respaced.solid_append (w := [':', ':']) (no_blank_of_all rfl) hr
      obtain ⟨c', z, rfl, hmember, hrest⟩ := hy.split_last (any_no_blank (.inr hc.getLast?))
      obtain ⟨cs', rfl, hcs', -⟩ := ih (fun d hd => hcs d (List.mem_cons_of_mem c hd)) hrest
      refine ⟨c' :: cs', by rw [chain_cons_eq]; rfl, fun d hd => ?_, fun h => nomatch h⟩
      rcases List.mem_cons.mp hd with rfl | hd
      · exact hc.respaced hmember
      · exact hcs' d hd

/-- **A name** with other blanks is a name of the same shape. -/
theorem SpelledName.respaced (h : SpelledName E k q) (hr : Respaced q t) : SpelledName E k t := by
  induction h generalizing t with
  | word hl hw =>
      have hhead := hw.head?_no_blank []
      rw [List.append_nil] at hhead
      obtain ⟨l', w', rfl, hlead, hword⟩ := hr.split_head hhead
      rw [hword.eq_of_solid hw.no_blank]
      exact .word (hl.respaced hlead) hw
  | @path l w g cs hl hw hg hne hcs =>
      obtain ⟨l', y, rfl, hlead, hy⟩ := hr.split_head (hw.head?_no_blank _)
      obtain ⟨z, rfl, hz⟩ := hy.solid_append hw.no_blank
      have hcolon : (chain cs).head?.any (!isBlank ·) = true := by
        obtain ⟨c, ds, rfl⟩ := List.exists_cons_of_ne_nil hne
        rw [chain_cons_eq]
        rfl
      obtain ⟨g', z', rfl, hg', -, hchain⟩ := hz.blanks_append hg hcolon
      obtain ⟨cs', rfl, hcs', hne'⟩ := respaced_chain hcs hchain
      exact .path (hl.respaced hlead) hw hg' (mt hne' hne) hcs'
  | @closed k i q g h a g' hq hk hg hh ha hg' hi ihq iha =>
      obtain ⟨q', y₁, rfl, hname, hy₁⟩ := hr.split_last hq.getLast?_no_blank
      obtain ⟨g₁, y₂, rfl, hg₁, -, hy₂⟩ := hy₁.blanks_append hg rfl
      obtain ⟨y₃, rfl, hy₃⟩ := hy₂.exists_cons (by decide)
      have hstart := head?_no_blank ha.beginsType
      have hhead : (a ++ (g' ++ ['>'])).head?.any (!isBlank ·) = true := by
        obtain ⟨c, rest, hc⟩ := List.exists_cons_of_ne_nil ha.ne_nil
        rw [hc] at hstart ⊢
        exact hstart
      obtain ⟨h₁, y₄, rfl, hh₁, -, hy₄⟩ := hy₃.blanks_append hh hhead
      obtain ⟨a', y₅, rfl, hargument, hy₅⟩ := hy₄.split_last ha.getLast?_no_blank
      obtain ⟨g₂, y₆, rfl, hg₂, hsame, hy₆⟩ := hy₅.blanks_append hg' rfl
      rw [hy₆.eq_of_solid (no_blank_of_all rfl)]
      exact .closed (ihq hname) hk hg₁ hh₁ (iha hargument) hg₂ fun hclosed => hsame.mp (hi hclosed)

theorem SpelledBody.respaced (h : SpelledBody E s) (hr : Respaced s t) : SpelledBody E t := by
  cases h with
  | name hq => exact .name (hq.respaced hr)
  | @member k q g b w hq hg hb hw hk =>
      obtain ⟨q', y₁, rfl, hname, hy₁⟩ := hr.split_last hq.getLast?_no_blank
      obtain ⟨g', y₂, rfl, hg', hsame, hy₂⟩ := hy₁.blanks_append hg rfl
      obtain ⟨y₃, rfl, hy₃⟩ := hy₂.solid_append (w := [':', ':']) (no_blank_of_all rfl)
      have hhead := hw.head?_no_blank []
      rw [List.append_nil] at hhead
      obtain ⟨b', y₄, rfl, hb', hsame', hy₄⟩ := hy₃.blanks_append hb hhead
      rw [hy₄.eq_of_solid hw.no_blank]
      refine .member (b := b') (hq.respaced hname) hg' hb' hw ?_
      rcases hk with hk | ⟨hk, hne⟩ | ⟨hnil, hkey⟩
      · exact .inl hk
      · exact .inr (.inl ⟨hk, mt hsame.mpr hne⟩)
      · exact .inr (.inr ⟨hsame'.mp hnil, hkey⟩)

theorem SpelledType.head?_no_blank (h : SpelledType E s) : s.head?.any (!isBlank ·) = true := by
  cases h with
  | body hs => exact CppDoc.Syntax.head?_no_blank hs.beginsType
  | @modifier m g s hm =>
      have hall : ∀ m ∈ typeModifiers, m.head?.any (!isBlank ·) = true := by decide
      have hhead := hall m hm
      cases m with
      | nil => exact nomatch hhead
      | cons c rest => exact hhead

/-- **A type** with other blanks is a type. -/
theorem SpelledType.respaced (h : SpelledType E s) (hr : Respaced s t) : SpelledType E t := by
  have hlower : ∀ c, isBlank c = true → c.isLower = false := by
    intro c hc
    cases hl : c.isLower with
    | false => rfl
    | true => exact nomatch hc.symm.trans (isBlank_eq_false_of_isNameChar (isNameChar_of_isLower hl))
  induction h generalizing t with
  | body hs hfree =>
      refine .body (hs.respaced hr) ?_
      rwa [Unmodified, hr.takeWhile_eq hlower]
  | @modifier m g s hm hg hs hnext ih =>
      have hall : ∀ m ∈ typeModifiers, m.all (!isBlank ·) = true := by decide
      obtain ⟨y, rfl, hy⟩ := hr.solid_append (no_blank_of_all (hall m hm))
      obtain ⟨g', s', rfl, hg', hsame, hrest⟩ := hy.blanks_append hg hs.head?_no_blank
      refine .modifier hm hg' (ih hrest) fun hnil => ?_
      have hno := hnext (hsame.mpr hnil)
      obtain ⟨c, rest, rfl⟩ := List.exists_cons_of_ne_nil hs.ne_nil
      obtain ⟨rest', rfl, -⟩ := hrest.exists_cons (by simpa using hs.head?_no_blank)
      exact hno

end Grammar

/-! ## Single spaces -/

section Kept

variable {E : Prop} {s t x w g : List Char} {ws : List (List Char)}

theorem Respaced.append_left (hw : ∀ c ∈ w, isBlank c = false) (h : Respaced s t) :
    Respaced (w ++ s) (w ++ t) := by
  induction w with
  | nil => exact h
  | cons c rest ih =>
      exact .cons (hw c List.mem_cons_self) (ih fun d hd => hw d (List.mem_cons_of_mem c hd))

/-- A run of blanks becomes a space. -/
theorem Respaced.space (hg : g.all isBlank = true) (hne : g ≠ [])
    (hs : s.head?.any (!isBlank ·) = true) (h : Respaced s t) : Respaced (g ++ s) (' ' :: t) := by
  cases s with
  | nil => exact nomatch hs
  | cons c rest =>
      have hc : isBlank c = false := by simpa using hs
      obtain ⟨t, rfl, ht⟩ := h.exists_cons hc
      exact @Respaced.next g [' '] _ _ _ hg rfl (by simp [hne]) hc ht

/-- A text is cut behind the first run of blanks. -/
theorem exists_blanks (s : List Char) :
    ∃ w g r, s = w ++ (g ++ r) ∧ (∀ c ∈ w, isBlank c = false) ∧ g.all isBlank = true ∧
      (g = [] → r = []) ∧ r.head?.any isBlank = false := by
  refine ⟨s.takeWhile (!isBlank ·), (s.dropWhile (!isBlank ·)).takeWhile isBlank,
    (s.dropWhile (!isBlank ·)).dropWhile isBlank, ?_, fun c hc => ?_, List.all_takeWhile, ?_,
    head?_dropWhile_not _⟩
  · rw [List.takeWhile_append_dropWhile, List.takeWhile_append_dropWhile]
  · simpa using List.all_eq_true.mp List.all_takeWhile c hc
  · intro hnil
    have hstop := head?_dropWhile_not (q := (!isBlank ·)) s
    cases hy : s.dropWhile (!isBlank ·) with
    | nil => rfl
    | cons c rest =>
        rw [hy] at hstop hnil
        have hblank : isBlank c = true := by simpa using hstop
        simp [hblank] at hnil

/-- A word in front of a gap is followed by a single space. -/
theorem joined_words_gap {w g r : List Char} (hw : Solid w) (hne : w ≠ [])
    (hg : g.all isBlank = true) (hgap : g ≠ []) (hr : r.head?.any (!isSpace ·) = true) :
    joined (words (w ++ (g ++ r))) = w ++ ' ' :: joined (words r) := by
  cases r with
  | nil => exact nomatch hr
  | cons c rest =>
      have hc : isSpace c = false := by simpa using hr
      obtain ⟨v, vs, hv⟩ := List.exists_cons_of_ne_nil
        (words_ne_nil (List.mem_cons_self (a := c) (l := rest)) hc)
      rw [words_append_gap hg hgap, words_eq_singleton hw hne, hv, List.singleton_append,
        joined_cons, behind_cons, joined_cons]

/-- **Single spaces** are other blanks, if there is no other white space. -/
theorem respaced_joined_words (hspace : ∀ c ∈ s, isSpace c = true → isBlank c = true)
    (hhead : s.head?.any (!isBlank ·) = true) (hlast : s.getLast?.any (!isBlank ·) = true) :
    Respaced s (joined (words s)) := by
  induction hlen : s.length using Nat.strongRecOn generalizing s with
  | ind n ih =>
      subst hlen
      obtain ⟨w, g, r, rfl, hw, hg, hgap, hstop⟩ := exists_blanks s
      have hne : w ≠ [] := by
        rintro rfl
        cases g with
        | nil =>
            rw [hgap rfl] at hhead
            exact nomatch hhead
        | cons c rest =>
            simp only [List.all_cons, Bool.and_eq_true] at hg
            simp [hg.1] at hhead
      have hsolid : Solid w := fun c hc => by
        cases hsp : isSpace c with
        | false => rfl
        | true =>
            have hblank := hspace c (List.mem_append_left _ hc) hsp
            exact nomatch (hw c hc).symm.trans hblank
      by_cases hr : r = []
      · -- The last word ends the text.
        subst hr
        have hnil : g = [] := by
          by_cases hnil : g = []
          · exact hnil
          rw [List.append_nil, getLast?_append_right hnil, List.getLast?_eq_some_getLast hnil] at hlast
          have hblank := List.all_eq_true.mp hg _ (List.getLast_mem hnil)
          simp [hblank] at hlast
        subst hnil
        rw [List.append_nil, List.append_nil, words_eq_singleton hsolid hne, joined,
          List.intercalate_singleton]
        have hend : Respaced [] [] := .ends rfl rfl Iff.rfl
        simpa using hend.append_left hw
      · have hnext : r.head?.any (!isBlank ·) = true := by
          cases r with
          | nil => exact absurd rfl hr
          | cons c rest => simpa using hstop
        have hshort : r.length < (w ++ (g ++ r)).length := by
          have := List.length_pos_iff.mpr hne
          simp only [List.length_append]
          omega
        have hrest := ih r.length hshort
          (fun c hc => hspace c (List.mem_append_right w (List.mem_append_right g hc))) hnext
          (by rwa [← List.append_assoc, getLast?_append_right hr] at hlast) rfl
        have hletter : r.head?.any (!isSpace ·) = true := by
          obtain ⟨c, rest, rfl⟩ := List.exists_cons_of_ne_nil hr
          cases hsp : isSpace c with
          | false => simp [hsp]
          | true =>
              have hblank := hspace c (by simp) hsp
              simp [hblank] at hnext
        have hwords := joined_words_gap hsolid hne hg (mt hgap hr) hletter
        rw [hwords]
        exact (hrest.space hg (mt hgap hr) hnext).append_left hw

/-! ## What is kept of a type -/

/-- The first character of a type. -/
theorem SpelledType.exists_head (h : SpelledType E x) :
    ∃ c y, x = c :: y ∧ isBlank c = false ∧ isTypeChar c = true := by
  have hhead := h.head?_no_blank
  obtain ⟨c, y, rfl⟩ := List.exists_cons_of_ne_nil h.ne_nil
  have hblank : isBlank c = false := by simpa using hhead
  exact ⟨c, y, rfl, hblank, (h.typeChars c List.mem_cons_self).resolve_right fun hc =>
    nomatch hblank.symm.trans hc⟩

theorem SpelledType.getLast?_no_blank (h : SpelledType E x) :
    x.getLast?.any (!isBlank ·) = true :=
  any_no_blank h.getLast?

/-- A type with single spaces is a type. -/
theorem SpelledType.simplified (h : SpelledType E x) : SpelledType E (joined (words x)) :=
  h.respaced (respaced_joined_words h.typeChars.isBlank h.head?_no_blank h.getLast?_no_blank)

/-- The first word stands at the front, and white space behind it. -/
theorem exists_behind_word (hs : s.head?.any (!isSpace ·) = true) (h : words s = w :: ws) :
    ∃ y, s = w ++ y ∧ y.head?.all isSpace = true ∧ words y = ws := by
  induction s generalizing w ws with
  | nil => exact nomatch hs
  | cons c rest ih =>
      have hc : ¬ isSpace c = true := by simpa using hs
      rw [words, if_neg hc] at h
      by_cases hrest : rest.head?.all isSpace = true
      · rw [if_pos hrest] at h
        obtain ⟨rfl, rfl⟩ := List.cons.inj h
        exact ⟨rest, rfl, hrest, rfl⟩
      · rw [if_neg hrest] at h
        cases rest with
        | nil => exact absurd rfl hrest
        | cons d tail =>
            have hd : isSpace d = false := by simpa using hrest
            obtain ⟨v, vs, hv⟩ := List.exists_cons_of_ne_nil
              (words_ne_nil (List.mem_cons_self (a := d) (l := tail)) hd)
            obtain ⟨y, hy, hspace, hwords⟩ := ih (by simp [hd]) hv
            rw [hv] at h
            obtain ⟨rfl, rfl⟩ := List.cons.inj h
            exact ⟨y, by rw [hy]; rfl, hspace, hwords⟩

/-- Behind a modifier that is the first word of a type, a type is left. -/
theorem SpelledType.behind_modifier (h : SpelledType E x) (hw : w ∈ typeModifiers)
    (hwords : words x = w :: ws) : ∃ s, SpelledType E s ∧ words s = ws := by
  have hlower : ∀ m ∈ typeModifiers, m.all Char.isLower = true := by decide
  have hrun {m y : List Char} (hm : m ∈ typeModifiers) (hy : y.head?.any Char.isLower = false) :
      (m ++ y).takeWhile Char.isLower = m := by
    rw [takeWhile_append_of_boundary fun _ => hy, takeWhile_eq_self (hlower m hm)]
  have hfirst := h.head?_no_blank
  have hstart : x.head?.any (!isSpace ·) = true := by
    cases x with
    | nil => exact nomatch hfirst
    | cons c rest =>
        cases hspace : isSpace c with
        | false => simp [hspace]
        | true =>
            have hblank := h.typeChars.isBlank c List.mem_cons_self hspace
            simp [hblank] at hfirst
  obtain ⟨y, rfl, hspace, hy⟩ := exists_behind_word hstart hwords
  have hyLower : y.head?.any Char.isLower = false := by
    cases y with
    | nil => rfl
    | cons c rest =>
        apply head?_not_isLower
        have hc : isSpace c = true := by simpa using hspace
        cases hname : isNameChar c with
        | false => exact hname
        | true => exact nomatch hc.symm.trans (isSpace_eq_false_of_isNameChar hname)
  generalize hx : w ++ y = x at h
  cases h with
  | body hs hfree =>
      refine absurd ?_ hfree
      rw [← hx, hrun hw hyLower]
      exact hw
  | @modifier m g s hm hg hs hnext =>
      have hbehind : (g ++ s).head?.any Char.isLower = false := by
        cases g with
        | nil => exact hnext rfl
        | cons c rest =>
            apply head?_not_isLower
            exact head?_blanks_append (b := [c]) (x := []) (by
              simpa using List.all_eq_true.mp hg c List.mem_cons_self) rfl
      have hsame : w = m := by rw [← hrun hw hyLower, hx, hrun hm hbehind]
      subst hsame
      refine ⟨s, hs, ?_⟩
      rw [← hy, List.append_cancel_left hx, words_indent hg]

/-- **What is kept** of a type is a type. -/
theorem SpelledType.kept (h : SpelledType E x) (ho : Orderly (words x)) :
    SpelledType E (joined (unkeyed (words x))) := by
  rcases ho.cases with hfree | ⟨I, k, J, hwords, hI, hfree⟩
  · rw [unkeyed_eq_self hfree]
    exact h.simplified
  rw [hwords]
  clear ho
  have hkey : k.text ∈ typeModifiers := by cases k <;> decide
  induction I generalizing x with
  | nil =>
      obtain ⟨s, hs, rfl⟩ := h.behind_modifier hkey hwords
      have hrest := unkeyed_eq_self hfree
      rw [List.nil_append, unkeyed] at hrest
      rw [List.nil_append, unkeyed, List.filter_cons_of_neg (by simp [isRecord_iff.mpr ⟨k, rfl⟩]),
        hrest]
      exact hs.simplified
  | cons i I ih =>
      obtain ⟨s, hs, hrest⟩ := h.behind_modifier (hI i List.mem_cons_self) hwords
      have htail := ih hs hrest (fun m hm => hI m (List.mem_cons_of_mem i hm)) fun w hw =>
        hfree w (List.mem_cons_of_mem i hw)
      have hi : isRecord i = false := hfree i List.mem_cons_self
      have hcons : unkeyed (i :: (I ++ k.text :: J)) = i :: unkeyed (I ++ k.text :: J) := by
        rw [unkeyed, List.filter_cons_of_pos (by simp [hi])]
        rfl
      have hspace (ws : List (List Char)) (hne : joined ws ≠ []) :
          joined (i :: ws) = i ++ ([' '] ++ joined ws) := by
        cases ws with
        | nil => exact absurd rfl hne
        | cons v vs =>
            rw [joined_cons, behind_cons, joined_cons]
            rfl
      rw [List.cons_append, hcons, hspace _ htail.ne_nil]
      exact .modifier (hI i List.mem_cons_self) rfl htail fun h => by cases h

end Kept

end CppDoc.Syntax
