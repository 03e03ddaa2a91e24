import CppDoc.Proofs.Syntax.Recognised
import CppDoc.Proofs.Syntax.WrittenType

/-!
# Reading a signature again

The signature of a parameter list consists of the written forms of its types, and each of them is a type
that is its own written form.  So the signature of a signature is the signature itself.  Three things
are kept with a type that do not read the same again: a line comment in it, the keyword of an operator
name with a parenthesis behind it, and keywords of classes that are no modifiers or are written twice.

* `typeHeads`: the texts at whose front a signature finds its types;
* `Regular`: a type without those three;
* `typesOnly_typesOnly`: the signature of a signature.
-/

namespace CppDoc.Syntax

open CppDoc.Text

/-! ## What is read -/

/-- The texts that begin with the types of a list: the text itself and what stands behind each comma,
up to the first place where no type stands. -/
def typeHeads (s : List Char) : List (List Char) :=
  let n := typeLength s
  if n = 0 then []
  else
    let rest :=
      match _h : after? ',' (s.drop n) with
      | some rest => typeHeads rest
      | none => []
    s :: rest
termination_by s.length
decreasing_by
  have := length_lt_of_after? _h
  simp only [List.length_drop] at this
  omega

/-- The words of the name of a type, its mark apart. -/
def nameWords (s : List Char) : List (List Char) :=
  words (s.filter fun c => c != '&' && c != '*')

/-- The type at the front of `u` holds no line comment and no operator name, and the keywords of
classes stand where they are dropped. -/
structure Regular (u : List Char) : Prop where
  comments : Uncommented u (typeLength u)
  operators : ¬ MeetsOperator u (typeLength u)
  orderly : Orderly (nameWords (u.take (typeLength u)))

/-- The written form of some type. -/
inductive KeptType (E : Prop) : List Char → Prop
  | written {x k : List Char} (hx : SpelledType E x) (ho : Orderly (words x))
      (hk : SpelledMark k) : KeptType E (writtenType x k)

section Kept

variable {E : Prop} {b s t u x k : List Char}

theorem typeHeads_eq (s : List Char) :
    typeHeads s =
      if typeLength s = 0 then []
      else s :: (((after? ',' (s.drop (typeLength s))).map typeHeads).getD []) := by
  rw [typeHeads]
  dsimp only
  split
  · rfl
  · split <;> rename_i h <;> simp [h]

/-- The types of a list, each at the front of its text. -/
theorem typeList_eq_map (s : List Char) :
    typeList s = (typeHeads s).map (fun u => cleanType (u.take (typeLength u))) ∧
      ∀ u ∈ typeHeads s, typeLength u ≠ 0 := by
  induction hlen : s.length using Nat.strongRecOn generalizing s with
  | ind n ih =>
      subst hlen
      rw [typeList_eq, typeHeads_eq]
      by_cases hn : typeLength s = 0
      · rw [if_pos hn, if_pos hn]
        exact ⟨rfl, nofun⟩
      rw [if_neg hn, if_neg hn]
      cases hrest : after? ',' (s.drop (typeLength s)) with
      | none => exact ⟨rfl, by simpa using hn⟩
      | some rest =>
          have hshort := length_lt_of_after? hrest
          rw [List.length_drop] at hshort
          obtain ⟨hmap, hall⟩ := ih rest.length (by omega) rest rfl
          exact ⟨congrArg _ hmap, List.forall_mem_cons.mpr ⟨hn, hall⟩⟩

/-- The mark is no part of the words of a name. -/
theorem nameWords_spelled {i : List Char} (hi : i.all isBlank = true) (hx : SpelledType E x)
    (hk : SpelledMark k) (hb : b.all isBlank = true) :
    nameWords (i ++ (x ++ (k ++ b))) = words x := by
  have hblanks {g : List Char} (hg : g.all isBlank = true) :
      g.filter (fun c => c != '&' && c != '*') = g := by
    rw [List.filter_eq_self]
    intro c hc
    have hblank := List.all_eq_true.mp hg c hc
    cases hmark : c != '&' && c != '*' with
    | true => rfl
    | false =>
        simp only [Bool.and_eq_false_iff, bne_eq_false_iff_eq] at hmark
        rcases hmark with rfl | rfl <;> exact nomatch hblank
  have hname : x.filter (fun c => c != '&' && c != '*') = x := by
    rw [List.filter_eq_self]
    intro c hc
    cases hmark : c != '&' && c != '*' with
    | true => rfl
    | false =>
        simp only [Bool.and_eq_false_iff, bne_eq_false_iff_eq] at hmark
        rcases hx.typeChars c hc with htype | hblank <;>
        · rcases hmark with rfl | rfl
          · exact absurd ‹_› (by decide)
          · exact absurd ‹_› (by decide)
  unfold nameWords
  rw [List.filter_append, List.filter_append, List.filter_append, hblanks hi, hname, hblanks hb,
    words_indent hi]
  cases hk with
  | none => exact words_append_blanks hb x
  | @mark g c hg hc =>
      have hmark : [c].filter (fun c => c != '&' && c != '*') = [] := by
        rcases hc with rfl | rfl <;> rfl
      rw [List.filter_append, hblanks hg, hmark, List.append_nil]
      exact words_append_blanks (by rw [List.all_append, hg, hb]; rfl) x

/-- **A regular type** is kept in its written form. -/
theorem Regular.kept (h : Regular u) (hne : typeLength u ≠ 0) :
    KeptType True (cleanType (u.take (typeLength u))) := by
  rcases typeLength_cases hne h.comments with hoperator | ⟨i, x, k, b, r, hread⟩
  · exact absurd hoperator h.operators
  have htake : u.take (typeLength u) = i ++ (x ++ (k ++ b)) := by
    have htext : u = (i ++ (x ++ (k ++ b))) ++ r := by simp [hread.text]
    have hlength : typeLength u = (i ++ (x ++ (k ++ b))).length := by simp [hread.length]
    rw [hlength, htext, List.take_left]
  have horderly := h.orderly
  rw [htake] at horderly ⊢
  rw [nameWords_spelled hread.indent hread.type hread.mark hread.blank] at horderly
  rw [cleanType_orderly hread.indent hread.type horderly hread.mark hread.blank]
  exact .written hread.type horderly hread.mark

/-- Other characters than those of names and marks are not kept. -/
theorem KeptType.not_mem {c : Char} (h : KeptType E t) (hc : isTypeChar c = false)
    (hblank : isBlank c = false) (hmark : c ≠ '&' ∧ c ≠ '*') : c ∉ t := by
  cases h with
  | @written x k hx ho hk =>
      intro hmem
      rcases List.mem_append.mp hmem with hmem | hmem
      · exact (hx.kept ho).typeChars.not_mem hc hblank hmem
      · cases hk with
        | none => exact nomatch hmem
        | mark hg hm =>
            rw [spaceless_mark hg hm] at hmem
            obtain rfl := List.mem_singleton.mp hmem
            rcases hm with rfl | rfl
            · exact hmark.1 rfl
            · exact hmark.2 rfl

/-! ## What is read again -/

theorem not_mem_separated {c : Char} {l : List (List Char)} (hc : c ≠ ',' ∧ c ≠ ' ')
    (hl : ∀ t ∈ l, c ∉ t) : c ∉ separated l := by
  induction l with
  | nil => exact nofun
  | cons t l ih =>
      have hrest := ih fun u hu => hl u (List.mem_cons_of_mem t hu)
      have ht := hl t List.mem_cons_self
      cases l with
      | nil => simpa [separated] using ht
      | cons u l =>
          rw [separated_cons]
          simp only [List.mem_append, List.mem_cons, not_or]
          exact ⟨ht, hc.1, hc.2, hrest⟩

/-- **The types of a signature** are read as they are written. -/
theorem typeList_separated {t : List Char} {ts : List (List Char)}
    (hts : ∀ u ∈ t :: ts, KeptType E u) (hb : b.all isBlank = true) :
    typeList (b ++ (separated (t :: ts) ++ " )".toList)) = t :: ts := by
  have hopen {c : List Char} {l : List (List Char)} (hl : ∀ u ∈ l, KeptType E u)
      (hc : c.all isBlank = true) : '(' ∉ c ++ (separated l ++ " )".toList) := by
    have hlist : '(' ∉ separated l :=
      not_mem_separated (by decide) fun u hu => (hl u hu).not_mem rfl rfl (by decide)
    have hblanks : '(' ∉ c := fun hmem => nomatch List.all_eq_true.mp hc '(' hmem
    simp only [List.mem_append, not_or]
    exact ⟨hblanks, hlist, by decide⟩
  have hhead := hopen hts hb
  induction ts generalizing t b with
  | nil =>
      cases hts t List.mem_cons_self with
      | @written x k hx ho hk =>
          have hentry := Entry.kept (b := [' ']) (y := [')']) hb hx ho hk
            (endsSpelled_of_fresh rfl rfl rfl)
          have htext : separated [writtenType x k] = writtenType x k := by simp [separated]
          rw [htext] at hhead ⊢
          exact hentry.typeList fun _ => hhead
  | cons u us ih =>
      have hus : ∀ v ∈ u :: us, KeptType E v := fun v hv => hts v (List.mem_cons_of_mem t hv)
      have hrest := ih hus (b := [' ']) rfl (hopen hus rfl)
      cases hts t List.mem_cons_self with
      | @written x k hx ho hk =>
          have hentry := Entry.kept (b := [])
            (y := ',' :: ' ' :: (separated (u :: us) ++ " )".toList)) hb hx ho hk
            (endsSpelled_of_fresh rfl rfl rfl)
          have htext : separated (writtenType x k :: u :: us) ++ " )".toList =
              writtenType x k ++ ([] ++ ',' :: ' ' :: (separated (u :: us) ++ " )".toList)) := by
            rw [separated_cons]
            simp
          rw [htext] at hhead ⊢
          rw [hentry.typeList fun _ => hhead, after?, if_pos rfl, Option.map_some,
            Option.getD_some]
          exact congrArg _ hrest

end Kept

/-- The signature of a list with types. -/
theorem typesOnly_of_types {s : String} (hs : s ≠ "()") {t : List Char} {ts : List (List Char)}
    (h : typeList (s.toList.drop 1) = t :: ts) :
    typesOnly s = String.ofList ('(' :: ' ' :: (separated (t :: ts) ++ " )".toList)) := by
  rw [typesOnly, if_neg hs, h]
  rfl

/-- **Reading again** changes nothing: the signature of a signature is the signature. -/
theorem typesOnly_typesOnly (s : String) (h : ∀ u ∈ typeHeads (s.toList.drop 1), Regular u) :
    typesOnly (typesOnly s) = typesOnly s := by
  obtain ⟨hmap, hheads⟩ := typeList_eq_map (s.toList.drop 1)
  have hkept : ∀ t ∈ typeList (s.toList.drop 1), KeptType True t := by
    rw [hmap]
    intro t ht
    obtain ⟨u, hu, rfl⟩ := List.mem_map.mp ht
    exact (h u hu).kept (hheads u hu)
  by_cases hempty : s = "()"
  · subst hempty
    rfl
  cases htypes : typeList (s.toList.drop 1) with
  | nil =>
      have hnone : typesOnly s = " )" := by
        rw [typesOnly, if_neg hempty, htypes]
      rw [hnone]
      decide +kernel
  | cons t ts =>
      rw [htypes] at hkept
      have hagain := typeList_separated (b := [' ']) hkept rfl
      have hsignature := typesOnly_of_types hempty htypes
      rw [hsignature]
      apply typesOnly_of_types
      · intro hclosed
        exact absurd (List.cons.inj (List.cons.inj (String.ofList_injective hclosed)).2).1 (by decide)
      · rw [String.toList_ofList, List.drop_succ_cons, List.drop_zero]
        exact hagain

private def fooParameters : String := "(const class Foo & a, List<Foo> b[])"

/-- The signature of a list with a reference, a template and two names. -/
theorem typesOnly_typesOnly_foo :
    typesOnly (typesOnly fooParameters) = typesOnly fooParameters := by
  have hheads : typeHeads (fooParameters.toList.drop 1) =
      ["const class Foo & a, List<Foo> b[])".toList, " List<Foo> b[])".toList] := by
    decide +kernel
  apply typesOnly_typesOnly
  rw [hheads]
  refine List.forall_mem_cons.mpr ⟨⟨?_, fun h => ?_, ?_⟩, List.forall_mem_singleton.mpr ⟨?_, fun h => ?_, ?_⟩⟩
  · unfold Uncommented
    decide +kernel
  · exact absurd h.opens (by decide +kernel)
  · exact ⟨["const".toList, "class".toList], ["Foo".toList], by decide +kernel, by decide, by decide,
      by decide⟩
  · unfold Uncommented
    decide +kernel
  · exact absurd h.opens (by decide +kernel)
  · exact ⟨[], ["List<Foo>".toList], by decide +kernel, nofun, by decide, by decide⟩

end CppDoc.Syntax
