import CppDoc.Event

/-!
# Cutting a text where another one occurs

A text in which another one is found consists of what stands before it, the text that was looked for,
and what stands behind it.  For qualified names this says that `ownerPart?` and `memberPart` are the
two sides of the last `::`.
-/

namespace CppDoc

open CppDoc.Text

namespace Text

/-- A text that begins with `pat`, cut behind it. -/
theorem eq_append_drop_of_isPrefixOf {pat s : List Char} (h : pat.isPrefixOf s = true) :
    s = pat ++ s.drop pat.length := by
  obtain ⟨rest, rfl⟩ := List.isPrefixOf_iff_prefix.mp h
  simp

/-- Where a text is found, its characters come next. -/
theorem drop_of_find? {pat s : List Char} {n : Nat} (h : find? pat s = some n) :
    s.drop n = pat ++ s.drop (n + pat.length) := by
  induction s generalizing n with
  | nil =>
      cases pat with
      | nil => simp
      | cons => simp [find?] at h
  | cons c rest ih =>
      rw [find?] at h
      split at h
      · rename_i hprefix
        obtain rfl := Option.some.inj h
        rw [Nat.zero_add]
        exact eq_append_drop_of_isPrefixOf hprefix
      · obtain ⟨m, hm, rfl⟩ := Option.map_eq_some_iff.mp h
        rw [Nat.add_right_comm]
        exact ih hm

/-- A text is cut by the first occurrence of `pat` in it. -/
theorem eq_of_find? {pat s : List Char} {n : Nat} (h : find? pat s = some n) :
    s = s.take n ++ pat ++ s.drop (n + pat.length) := by
  rw [List.append_assoc, ← drop_of_find? h, List.take_append_drop]

/-- A text is cut by the last occurrence of `pat` in it. -/
theorem eq_of_findLast? {pat s : List Char} {n : Nat} (h : findLast? pat s = some n) :
    s = s.take n ++ pat ++ s.drop (n + pat.length) := by
  induction s generalizing n with
  | nil =>
      cases pat with
      | nil => simp
      | cons => simp [findLast?] at h
  | cons c rest ih =>
      simp only [findLast?] at h
      split at h
      · rename_i m hm
        obtain rfl : m + 1 = n := Option.some.inj h
        have hrest := ih hm
        rw [show m + 1 + pat.length = (m + pat.length) + 1 by omega, List.take_succ_cons,
          List.drop_succ_cons, List.cons_append, List.cons_append, ← hrest]
      · split at h
        · rename_i hpat
          obtain rfl : 0 = n := Option.some.inj h
          simpa using eq_append_drop_of_isPrefixOf hpat
        · simp at h

/-- What begins with a character that `s` is without does not occur in `s`. -/
theorem findLast?_eq_none {pat s : List Char} {d : Char} (hpat : pat.head? = some d) (h : d ∉ s) :
    findLast? pat s = none := by
  obtain ⟨rest, rfl⟩ := List.head?_eq_some_iff.mp hpat
  induction s with
  | nil => rfl
  | cons c tail ih =>
      obtain ⟨hc, htail⟩ := not_or.mp (mt List.mem_cons.mpr h)
      simp [findLast?, ih htail, hc]

/-- The last `::` of a name stands before a member without colons. -/
theorem findLast?_member (a : List Char) {m : List Char} (hm : ':' ∉ m) :
    findLast? scopeSeparator (a ++ ':' :: ':' :: m) = some a.length := by
  induction a with
  | nil =>
      have hhead : m.head? ≠ some ':' := fun h => hm (List.mem_of_head? h)
      have hbehind : findLast? scopeSeparator (':' :: m) = none := by
        rw [findLast?, findLast?_eq_none rfl hm]
        cases m with
        | nil => rfl
        | cons c rest =>
            have hc : ':' ≠ c := fun h => hhead (by rw [h]; rfl)
            simpa [scopeSeparator] using hc
      rw [List.nil_append, findLast?, hbehind]
      rfl
  | cons c rest ih =>
      rw [List.cons_append, findLast?, ih]
      rfl

/-- What stands before the first occurrence of `pat`, if it occurs nowhere earlier. -/
theorem find?_append {pat s : List Char} (t : List Char)
    (hs : ∀ n < s.length, ¬ pat <+: s.drop n ++ pat ++ t) :
    find? pat (s ++ pat ++ t) = some s.length := by
  induction s with
  | nil =>
      cases pat with
      | nil => cases t <;> rfl
      | cons d rest => simp [find?]
  | cons c rest ih =>
      have hrest := ih fun n hn => hs (n + 1) (Nat.succ_lt_succ hn)
      have hno : ¬ pat.isPrefixOf (c :: (rest ++ pat ++ t)) = true := by
        rw [List.isPrefixOf_iff_prefix]
        exact hs 0 (Nat.succ_pos _)
      rw [List.cons_append, List.cons_append, find?, if_neg hno, hrest]
      rfl

end Text

/-- A qualified name with a member behind its last `::`. -/
theorem ownerPart?_member {a m : List Char} (ha : a ≠ []) (hm : ':' ∉ m) :
    ownerPart? (String.ofList (a ++ ':' :: ':' :: m)) = some (String.ofList a) := by
  obtain ⟨n, hn⟩ := Nat.exists_eq_succ_of_ne_zero (mt List.length_eq_zero_iff.mp ha)
  unfold ownerPart?
  rw [String.toList_ofList, findLast?_member a hm, hn]
  dsimp only
  rw [← Nat.succ_eq_add_one, ← hn, List.take_left]

/-- A qualified name is the name of its owner, `::`, and the name of the member. -/
theorem eq_of_ownerPart? {name owner : String} (h : ownerPart? name = some owner) :
    name = owner ++ "::" ++ memberPart name := by
  unfold ownerPart? at h
  split at h
  · rename_i n hn
    obtain rfl := Option.some.inj h
    have hcut := eq_of_findLast? hn
    apply String.ext
    simp only [memberPart, hn, String.toList_append, String.toList_ofList]
    exact hcut
  · simp at h

end CppDoc
