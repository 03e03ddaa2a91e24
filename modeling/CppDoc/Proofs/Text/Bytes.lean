import CppDoc.Text.Blank
import CppDoc.Text.Offset

/-!
# The bytes of a text

Offsets count bytes, texts are lists of characters.  `utf8` is the list of bytes that the offsets
count, and what a text says about its blanks and its line feeds can be said about its bytes as well:
the bytes of every character that is no blank are no blanks (`not_blank_of_mem`), also where an
offset points into the middle of a character.

* `byteAt?_eq`: the byte at an offset;
* `exists_split`: the character under an offset;
* `takeWhile_utf8`, `count_utf8`: blanks and line feeds.
-/

namespace CppDoc.Text

/-- The bytes of a text. -/
def utf8 (s : List Char) : List UInt8 :=
  s.flatMap String.utf8EncodeChar

/-- The byte that ends a line. -/
def lineFeed : UInt8 :=
  0x0A

/-- The byte of a space, a tab, a carriage return or a line feed. -/
def isBlankByte (b : UInt8) : Bool :=
  b == 0x20 || b == 0x09 || b == 0x0D || b == lineFeed

section Bytes

variable {c : Char} {b : UInt8} {s before after : List Char} {n : Nat}

@[simp]
theorem utf8_nil : utf8 [] = [] :=
  rfl

@[simp]
theorem utf8_cons : utf8 (c :: s) = String.utf8EncodeChar c ++ utf8 s :=
  rfl

theorem utf8_append : utf8 (before ++ after) = utf8 before ++ utf8 after :=
  List.flatMap_append

theorem length_utf8 (s : List Char) : (utf8 s).length = byteLength s := by
  induction s with
  | nil => rfl
  | cons c s ih => rw [utf8_cons, List.length_append, String.length_utf8EncodeChar, ih, byteLength]

/-- **The byte at an offset** is that of the list of bytes. -/
theorem byteAt?_eq (s : List Char) (n : Nat) : byteAt? s n = (utf8 s)[n]? := by
  induction s generalizing n with
  | nil => rfl
  | cons c s ih =>
      rw [byteAt?, utf8_cons, List.getElem?_append, String.length_utf8EncodeChar]
      split
      · rfl
      · exact ih _

/-! ## The bytes of one character -/

/-- A character is one byte below 128, or all its bytes lie above. -/
theorem encode_cases (c : Char) :
    (c.toNat < 128 ∧ String.utf8EncodeChar c = [UInt8.ofNat c.toNat]) ∨
      (128 ≤ c.toNat ∧ ∀ b ∈ String.utf8EncodeChar c, 128 ≤ b.toNat) := by
  by_cases hsmall : c.toNat ≤ 127
  · exact .inl ⟨by omega, if_pos hsmall⟩
  · refine .inr ⟨by omega, fun b hb => ?_⟩
    have hlarge : ¬ c.val.toNat ≤ 127 := hsmall
    simp only [String.utf8EncodeChar, if_neg hlarge] at hb
    split at hb
    · simp only [List.mem_cons, List.not_mem_nil, or_false] at hb
      rcases hb with rfl | rfl <;> simp only [UInt8.toNat_ofNat'] <;> omega
    · split at hb <;> simp only [List.mem_cons, List.not_mem_nil, or_false] at hb
      · rcases hb with rfl | rfl | rfl <;> simp only [UInt8.toNat_ofNat'] <;> omega
      · rcases hb with rfl | rfl | rfl | rfl <;> simp only [UInt8.toNat_ofNat'] <;> omega

theorem isBlank_iff : isBlank c = true ↔ c.toNat = 0x20 ∨ c.toNat = 0x09 ∨ c.toNat = 0x0D ∨
    c.toNat = 0x0A := by
  have hcode (d : Char) : (c == d) = true ↔ c.toNat = d.toNat := by
    rw [beq_iff_eq, Char.toNat_inj]
  simp only [isBlank, Bool.or_eq_true, hcode, or_assoc]
  rfl

theorem isBlankByte_iff : isBlankByte b = true ↔ b.toNat = 0x20 ∨ b.toNat = 0x09 ∨ b.toNat = 0x0D ∨
    b.toNat = 0x0A := by
  have hcode (d : UInt8) : (b == d) = true ↔ b.toNat = d.toNat := by
    rw [beq_iff_eq, UInt8.toNat_inj]
  simp only [isBlankByte, lineFeed, Bool.or_eq_true, hcode, or_assoc]
  rfl

/-- A blank is one byte, which is a blank. -/
theorem encode_of_isBlank (hc : isBlank c = true) :
    ∃ b, String.utf8EncodeChar c = [b] ∧ isBlankByte b = true := by
  have hcode := isBlank_iff.mp hc
  obtain ⟨hsmall, hbytes⟩ | ⟨hlarge, -⟩ := encode_cases c
  · refine ⟨_, hbytes, isBlankByte_iff.mpr ?_⟩
    rwa [UInt8.toNat_ofNat', Nat.mod_eq_of_lt (by omega)]
  · omega

/-- Where there is a blank byte, there is a blank. -/
theorem not_blank_of_mem (hc : isBlank c = false) (hb : b ∈ String.utf8EncodeChar c) :
    isBlankByte b = false := by
  have hcode := mt isBlank_iff.mpr (Bool.eq_false_iff.mp hc)
  rw [Bool.eq_false_iff, ne_eq, isBlankByte_iff]
  obtain ⟨hsmall, hbytes⟩ | ⟨-, hbytes⟩ := encode_cases c
  · obtain rfl : b = UInt8.ofNat c.toNat := List.mem_singleton.mp (hbytes ▸ hb)
    rwa [UInt8.toNat_ofNat', Nat.mod_eq_of_lt (by omega)]
  · have := hbytes b hb
    omega

/-- A character of several bytes is no blank. -/
theorem not_isBlank_of_size (hc : 1 < c.utf8Size) : isBlank c = false := by
  rw [Bool.eq_false_iff]
  intro hblank
  obtain ⟨b, hb, -⟩ := encode_of_isBlank hblank
  rw [← String.length_utf8EncodeChar, hb] at hc
  exact Nat.lt_irrefl 1 hc

/-- There is no line feed among the bytes of a character that is no blank. -/
theorem count_take_encode (hc : isBlank c = false) (k : Nat) :
    ((String.utf8EncodeChar c).take k).count lineFeed = 0 := by
  refine List.count_eq_zero.mpr fun hmem => ?_
  have hblank := not_blank_of_mem hc (List.mem_of_mem_take hmem)
  cases hblank

theorem count_encode (c : Char) :
    (String.utf8EncodeChar c).count lineFeed = if c = '\n' then 1 else 0 := by
  split
  · rename_i hc
    subst hc
    rfl
  · rename_i hc
    obtain ⟨hsmall, hbytes⟩ | ⟨-, hbytes⟩ := encode_cases c
    · rw [hbytes, List.count_eq_zero, List.mem_singleton]
      intro hfeed
      have hcode : c.toNat = 0x0A := by
        have := congrArg UInt8.toNat hfeed
        rw [UInt8.toNat_ofNat', Nat.mod_eq_of_lt (by omega)] at this
        exact this.symm
      exact hc (Char.toNat_inj.mp hcode)
    · refine List.count_eq_zero.mpr fun hmem => ?_
      have hlarge : 128 ≤ 0x0A := hbytes _ hmem
      omega

/-! ## The bytes of a text -/

/-- Line feeds can be counted among the bytes. -/
theorem count_utf8 (s : List Char) : (utf8 s).count lineFeed = s.count '\n' := by
  induction s with
  | nil => rfl
  | cons c s ih =>
      rw [utf8_cons, List.count_append, count_encode, ih, List.count_cons, Nat.add_comm]
      simp only [beq_iff_eq]

/-- The blanks at the head of a text are the blank bytes at its head. -/
theorem takeWhile_utf8 (s : List Char) :
    (utf8 s).takeWhile isBlankByte = utf8 (s.takeWhile isBlank) := by
  induction s with
  | nil => rfl
  | cons c s ih =>
      rw [utf8_cons]
      by_cases hc : isBlank c = true
      · obtain ⟨b, hbytes, hb⟩ := encode_of_isBlank hc
        rw [List.takeWhile_cons_of_pos hc, utf8_cons, hbytes, List.singleton_append,
          List.singleton_append, List.takeWhile_cons_of_pos hb, ih]
      · rw [Bool.not_eq_true] at hc
        rw [List.takeWhile_cons_of_neg (by simp [hc]), utf8_nil]
        cases hbytes : String.utf8EncodeChar c with
        | nil =>
            have hsize := congrArg List.length hbytes
            have hpos := Char.utf8Size_pos c
            rw [String.length_utf8EncodeChar, List.length_nil] at hsize
            omega
        | cons b bytes =>
            have hb := not_blank_of_mem hc (hbytes ▸ List.mem_cons_self)
            rw [List.cons_append, List.takeWhile_cons_of_neg (by simp [hb])]

/-- **The character under an offset** is the first one that ends behind it. -/
theorem exists_split (s : List Char) (n : Nat) :
    ∃ before after, s = before ++ after ∧ byteLength before ≤ n ∧
      ∀ c ∈ after.head?, n < byteLength before + c.utf8Size := by
  induction s generalizing n with
  | nil => exact ⟨[], [], rfl, Nat.zero_le n, by simp⟩
  | cons c s ih =>
      by_cases hn : n < c.utf8Size
      · refine ⟨[], c :: s, rfl, Nat.zero_le n, fun d hd => ?_⟩
        obtain rfl : c = d := Option.some.inj hd
        simpa [byteLength] using hn
      · obtain ⟨before, after, rfl, hle, hafter⟩ := ih (n - c.utf8Size)
        refine ⟨c :: before, after, rfl, ?_, fun d hd => ?_⟩
        · rw [byteLength]
          omega
        · have := hafter d hd
          rw [byteLength]
          omega

end Bytes

end CppDoc.Text
