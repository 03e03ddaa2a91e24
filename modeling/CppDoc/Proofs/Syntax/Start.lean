import CppDoc.Proofs.Syntax.Indent
import CppDoc.Proofs.Syntax.Written
import CppDoc.Registry.Hierarchy

/-!
# What a name begins with

A name that is read begins with a letter, an underscore, a colon, or the slash of a comment that
stands before it.  In particular something is left of it when its template arguments are cut off.

* `qualifiedName_cons`: the first character of a name;
* `baseName_readName`: a name that is not empty has a base name that is not empty.
-/

namespace CppDoc.Syntax

open CppDoc.Text

/-- There is a name if one begins behind the leading scope. -/
theorem qualifiedName_eq_zero_iff (s : List Char) :
    qualifiedName s = 0 ↔ simpleName (s.drop (leadingScope s)) = 0 := by
  rw [qualifiedName_eq]
  dsimp only
  split
  · rename_i hzero
    exact ⟨fun _ => hzero, fun _ => rfl⟩
  · rename_i hname
    refine ⟨fun hzero => ?_, fun hzero => absurd hzero hname⟩
    have hle := le_nameEnd s (leadingScope s + simpleName (s.drop (leadingScope s)) +
      gap (s.drop (leadingScope s + simpleName (s.drop (leadingScope s)))) +
      scopeChain (s.drop (leadingScope s + simpleName (s.drop (leadingScope s)) +
        gap (s.drop (leadingScope s + simpleName (s.drop (leadingScope s)))))))
    omega

/-- May a name, or a comment before it, begin with `c`? -/
def beginsName (c : Char) : Bool :=
  isNameStart c || c == ':' || c == '/'

theorem isSpace_eq_false_of_beginsName {c : Char} (h : beginsName c = true) :
    isSpace c = false := by
  simp only [beginsName, Bool.or_eq_true, beq_iff_eq] at h
  rcases h with (hstart | rfl) | rfl
  · exact isSpace_eq_false_of_isNameChar (isNameChar_of_isNameStart hstart)
  · decide
  · decide

/-- **The first character** of a name that does not begin with a blank. -/
theorem qualifiedName_cons {c : Char} {s : List Char} (hblank : isBlank c = false)
    (h : qualifiedName (c :: s) ≠ 0) : beginsName c = true := by
  refine Classical.byContradiction fun hno => h ?_
  simp only [beginsName, Bool.or_eq_true, beq_iff_eq, not_or, Bool.not_eq_true] at hno
  obtain ⟨⟨hstart, hcolon⟩, hslash⟩ := hno
  have hgap : gap (c :: s) = 0 := gap_cons_eq_zero_iff.mpr ⟨hblank, fun hc => absurd hc hslash⟩
  have hlead : leadingScope (c :: s) = 0 := by
    rw [leadingScope_of_not_scope, hgap]
    rw [hgap]
    rintro ⟨v, hv⟩
    exact hcolon (List.cons.inj hv).1.symm
  rw [qualifiedName_eq_zero_iff, hlead]
  apply simpleName_eq_zero
  rw [List.drop_zero, hgap]
  exact hstart

/-- The first character of a name behind the blanks before it. -/
theorem take_qualifiedName {s : List Char} (h : qualifiedName s ≠ 0) :
    ∃ blanks c rest, blanks.all isBlank = true ∧ beginsName c = true ∧
      s.take (qualifiedName s) = blanks ++ c :: rest := by
  have hblanks : (s.takeWhile isBlank).all isBlank = true := List.all_takeWhile
  have hsplit : s.takeWhile isBlank ++ s.dropWhile isBlank = s := List.takeWhile_append_dropWhile
  have hname : qualifiedName (s.dropWhile isBlank) ≠ 0 := by
    intro hzero
    apply h
    rw [qualifiedName_eq_zero_iff] at hzero ⊢
    rw [← hsplit, leadingScope_indent hblanks, List.drop_length_add_append]
    exact hzero
  cases hrest : s.dropWhile isBlank with
  | nil =>
      rw [hrest] at hname
      exact absurd ((qualifiedName_eq_zero_iff []).mpr (simpleName_eq_zero rfl)) hname
  | cons c rest =>
      have hc : isBlank c = false := by
        have hhead := List.head?_dropWhile_not isBlank s
        rw [hrest] at hhead
        simpa using hhead
      rw [hrest] at hname
      have hlength := qualifiedName_indent hblanks (c :: rest) hname
      rw [← hrest, hsplit] at hlength
      obtain ⟨n, hn⟩ := Nat.exists_eq_succ_of_ne_zero hname
      refine ⟨s.takeWhile isBlank, c, rest.take n, hblanks, qualifiedName_cons hc hname, ?_⟩
      calc s.take (qualifiedName s)
          = (s.takeWhile isBlank ++ c :: rest).take
              ((s.takeWhile isBlank).length + qualifiedName (c :: rest)) := by
            rw [← hrest, ← hlength, hsplit]
        _ = s.takeWhile isBlank ++ (c :: rest).take (qualifiedName (c :: rest)) :=
            List.take_length_add_append _
        _ = s.takeWhile isBlank ++ c :: rest.take n := by rw [hn, List.take_succ_cons]

/-- A name that is read and not empty begins in this way. -/
theorem readName_cons {s : List Char} (h : (readName s).1 ≠ "") :
    ∃ c rest, beginsName c = true ∧ (readName s).1.toList = c :: rest := by
  have hname : qualifiedName s ≠ 0 := by
    intro hzero
    apply h
    rw [readName, hzero]
    rfl
  obtain ⟨blanks, c, rest, hblanks, hc, htake⟩ := take_qualifiedName hname
  refine ⟨c, spaceless rest, hc, ?_⟩
  have hnone : spaceless blanks = [] := by
    apply List.filter_eq_nil_iff.mpr
    intro d hd
    have hspace := isSpace_of_isBlank (List.all_eq_true.mp hblanks d hd)
    simp [hspace]
  have hkept : spaceless (c :: rest) = c :: spaceless rest :=
    List.filter_cons_of_pos (by simp [isSpace_eq_false_of_beginsName hc])
  calc (readName s).1.toList
      = spaceless (blanks ++ c :: rest) := by rw [readName, htake, String.toList_ofList]
    _ = spaceless blanks ++ spaceless (c :: rest) := List.filter_append _ _
    _ = c :: spaceless rest := by rw [hnone, hkept, List.nil_append]

/-- A text that begins with anything but white space is not trimmed away. -/
theorem trim_cons_ne_nil {c : Char} {s : List Char} (hc : isSpace c = false) :
    trim (c :: s) ≠ [] := by
  have hleft : trimLeft (c :: s) = c :: s := by
    unfold trimLeft
    rw [List.dropWhile_cons_of_neg (by simp [hc])]
  unfold trim trimRight trimRightIf
  rw [hleft]
  intro hnil
  rw [List.reverse_eq_nil_iff] at hnil
  have hall : (c :: s).reverse.takeWhile isSpace = (c :: s).reverse := by
    have hsplit := List.takeWhile_append_dropWhile (p := isSpace) (l := (c :: s).reverse)
    rwa [hnil, List.append_nil] at hsplit
  have hspace := List.all_eq_true.mp (List.all_takeWhile (p := isSpace)) c
    (hall ▸ List.mem_reverse.mpr List.mem_cons_self)
  rw [hc] at hspace
  exact nomatch hspace

/-- **Base names.**  Without its template arguments, a name that has been read is still a name. -/
theorem baseName_readName {s : List Char} (h : (readName s).1 ≠ "") :
    baseName (readName s).1 ≠ "" := by
  obtain ⟨c, rest, hc, hname⟩ := readName_cons h
  have hopen : c ≠ '<' := by
    rintro rfl
    exact absurd hc (by decide)
  have hbase : (readName s).1.toList.takeWhile (· != '<') = c :: rest.takeWhile (· != '<') := by
    rw [hname, List.takeWhile_cons_of_pos (by simpa using hopen)]
  intro hempty
  unfold baseName at hempty
  rw [hbase] at hempty
  exact trim_cons_ne_nil (isSpace_eq_false_of_beginsName hc) (String.ofList_eq_empty_iff.mp hempty)

end CppDoc.Syntax
