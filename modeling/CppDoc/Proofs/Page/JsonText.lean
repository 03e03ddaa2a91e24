/-!
# JSON texts

What it means for a text to be a JSON text, and which value it stands for (RFC 8259).  A text is cut
into tokens, between which white space does not matter, and the tokens spell a value.

* `lex`: the tokens of a text; no others are allowed;
* `Tree`: the values, and `Tree.tokens` what spells them;
* `Denotes`: a text stands for a value, and `Denotes.unique` for no other;
* `Reads`: how a piece of a text is cut, whatever follows it, with `Reads.append` for two pieces.
-/

namespace CppDoc.Json

/-! ## Texts in quotes -/

/-- The value of a hexadecimal digit. -/
def hexValue? (c : Char) : Option Nat :=
  if '0' ≤ c ∧ c ≤ '9' then some (c.toNat - '0'.toNat)
  else if 'a' ≤ c ∧ c ≤ 'f' then some (c.toNat - 'a'.toNat + 10)
  else if 'A' ≤ c ∧ c ≤ 'F' then some (c.toNat - 'A'.toNat + 10)
  else none

/-- The number that hexadecimal digits spell. -/
def codeUnit? (digits : List Char) : Option Nat :=
  digits.foldlM (fun n d => (hexValue? d).map (16 * n + ·)) 0

/-- The character that stands behind a backslash for another one. -/
def escaped? : Char → Option Char
  | '"' => some '"'
  | '\\' => some '\\'
  | '/' => some '/'
  | 'b' => some '\x08'
  | 'f' => some '\x0c'
  | 'n' => some '\n'
  | 'r' => some '\r'
  | 't' => some '\t'
  | _ => none

/-- May a text in quotes hold the character as it is?  The quotation mark and the backslash are
excepted apart. -/
def isUnescaped (c : Char) : Bool :=
  0x20 ≤ c.toNat

/-- One more code before those that have been read. -/
def withCode (n : Nat) (read : Option (List Nat × List Char)) : Option (List Nat × List Char) :=
  read.map fun (codes, behind) => (n :: codes, behind)

/-- The codes of the characters up to the closing quotation mark, and the text behind that. -/
def readText : List Char → Option (List Nat × List Char)
  | [] => none
  | c :: rest =>
    if c = '"' then some ([], rest)
    else if c = '\\' then
      match rest with
      | 'u' :: h₃ :: h₂ :: h₁ :: h₀ :: behind =>
        match codeUnit? [h₃, h₂, h₁, h₀] with
        | some n => withCode n (readText behind)
        | none => none
      | e :: behind =>
        match escaped? e with
        | some d => withCode d.toNat (readText behind)
        | none => none
      | [] => none
    else if isUnescaped c then withCode c.toNat (readText rest)
    else none

/-- The closing quotation mark. -/
theorem readText_close (rest : List Char) : readText ('"' :: rest) = some ([], rest) := by
  rw [readText.eq_def]
  rfl

/-- A character that stands for itself, if it may. -/
theorem readText_plain {c : Char} (hquote : c ≠ '"') (hbackslash : c ≠ '\\') (rest : List Char) :
    readText (c :: rest) = if isUnescaped c then withCode c.toNat (readText rest) else none := by
  rw [readText.eq_def]
  simp only [if_neg hquote, if_neg hbackslash]

/-- Do the codes form a surrogate pair? -/
def isPair (high low : Nat) : Bool :=
  0xD800 ≤ high && high < 0xDC00 && 0xDC00 ≤ low && low < 0xE000

/-- The character of a code.  A single surrogate has none. -/
def scalar (n : Nat) : Char :=
  if n.isValidChar then Char.ofNat n else '\ufffd'

/-- The characters of codes, in which surrogate pairs are put together. -/
def scalars : List Nat → List Char
  | [] => []
  | [n] => [scalar n]
  | high :: low :: rest =>
    if isPair high low then
      scalar (0x10000 + (high - 0xD800) * 0x400 + (low - 0xDC00)) :: scalars rest
    else scalar high :: scalars (low :: rest)

/-! ## Words -/

/-- The names of values. -/
inductive Literal where
  | null
  | bool (b : Bool)
  deriving DecidableEq, Repr

/-- The value that a word names. -/
def Literal.ofWord? (w : List Char) : Option Literal :=
  if w = "null".toList then some .null
  else if w = "false".toList then some (.bool false)
  else if w = "true".toList then some (.bool true)
  else none

/-- An exponent, or nothing. -/
def isExponent : List Char → Bool
  | [] => true
  | e :: rest =>
    let digits := if rest.head? = some '+' ∨ rest.head? = some '-' then rest.tail else rest
    (e == 'e' || e == 'E') && !digits.isEmpty && digits.all Char.isDigit

/-- A fraction and an exponent, or one of them, or nothing. -/
def isFraction (w : List Char) : Bool :=
  if w.head? = some '.' then
    !(w.tail.takeWhile Char.isDigit).isEmpty && isExponent (w.tail.dropWhile Char.isDigit)
  else isExponent w

/-- The digits of an integer, without zeros before them. -/
def isInteger (digits : List Char) : Bool :=
  digits == ['0'] || digits.head?.any (· != '0')

/-- Does the word spell a number? -/
def isNumber (w : List Char) : Bool :=
  let w := if w.head? = some '-' then w.tail else w
  isInteger (w.takeWhile Char.isDigit) && isFraction (w.dropWhile Char.isDigit)

/-! ## Tokens -/

/-- A token of a JSON text.  Numbers are kept as they are written. -/
inductive Token where
  | mark (c : Char)
  | text (s : String)
  | number (written : String)
  | literal (l : Literal)
  deriving DecidableEq, Repr

/-- The white space between tokens. -/
def isFiller (c : Char) : Bool :=
  c == ' ' || c == '\t' || c == '\n' || c == '\r'

/-- The characters that structure a text. -/
def isMark (c : Char) : Bool :=
  c == '[' || c == ']' || c == '\x7b' || c == '\x7d' || c == ':' || c == ','

/-- Does the character end a word before it? -/
def endsWord (c : Char) : Bool :=
  isFiller c || isMark c || c == '"'

/-- The token that a word is. -/
def wordToken? (w : List Char) : Option Token :=
  match Literal.ofWord? w with
  | some l => some (.literal l)
  | none => if isNumber w then some (.number (String.ofList w)) else none

/-- What stands behind a text in quotes is shorter than what stands behind its opening mark. -/
theorem length_readText {s behind : List Char} {codes : List Nat}
    (h : readText s = some (codes, behind)) : behind.length < s.length := by
  have hcode {n : Nat} {read : Option (List Nat × List Char)} {codes : List Nat}
      (h : withCode n read = some (codes, behind)) : ∃ codes, read = some (codes, behind) := by
    obtain ⟨⟨codes, after⟩, hread, heq⟩ := Option.map_eq_some_iff.mp h
    cases heq
    exact ⟨codes, hread⟩
  fun_induction readText s generalizing codes with
  | case2 rest =>
      cases h
      exact Nat.lt_succ_self _
  | case3 h₃ h₂ h₁ h₀ rest n _ _ ih =>
      obtain ⟨codes, hread⟩ := hcode h
      have hlt := ih hread
      simp only [List.length_cons]
      omega
  | case5 e rest _ d _ _ ih =>
      obtain ⟨codes, hread⟩ := hcode h
      have hlt := ih hread
      simp only [List.length_cons]
      omega
  | case8 c rest _ _ _ ih =>
      obtain ⟨codes, hread⟩ := hcode h
      have hlt := ih hread
      simp only [List.length_cons]
      omega
  | case1 | case4 | case6 | case7 | case9 => cases h

/-- The tokens of a text. -/
def lex (s : List Char) : Option (List Token) :=
  match s with
  | [] => some []
  | c :: rest =>
    if isFiller c then lex rest
    else if isMark c then (lex rest).map (.mark c :: ·)
    else if c = '"' then
      match _h : readText rest with
      | some (codes, behind) => (lex behind).map (.text (String.ofList (scalars codes)) :: ·)
      | none => none
    else
      match wordToken? (c :: rest.takeWhile (!endsWord ·)) with
      | some t => (lex (rest.dropWhile (!endsWord ·))).map (t :: ·)
      | none => none
termination_by s.length
decreasing_by
  · simp
  · simp
  · have hlt := length_readText _h
    simp only [List.length_cons]
    omega
  · have hle := (List.dropWhile_sublist (l := rest) (!endsWord ·)).length_le
    simp only [List.length_cons]
    omega

/-! ## Values -/

/-- A JSON value.  The members of an object stand in the order in which they are written. -/
inductive Tree where
  | text (s : String)
  | number (written : String)
  | literal (l : Literal)
  | array (items : List Tree)
  | object (members : List (String × Tree))

mutual

/-- The tokens that spell a value. -/
def Tree.tokens : Tree → List Token
  | .text s => [.text s]
  | .number written => [.number written]
  | .literal l => [.literal l]
  | .array items => .mark '[' :: itemsBehind [] items
  | .object members => .mark '\x7b' :: membersBehind [] members

/-- The items of an array, with commas between them, and its end. -/
def itemsBehind (sep : List Token) : List Tree → List Token
  | [] => [.mark ']']
  | v :: vs => sep ++ (v.tokens ++ itemsBehind [.mark ','] vs)

/-- The members of an object, with commas between them, and its end. -/
def membersBehind (sep : List Token) : List (String × Tree) → List Token
  | [] => [.mark '\x7d']
  | (key, v) :: ms =>
    sep ++ (.text key :: .mark ':' :: (v.tokens ++ membersBehind [.mark ','] ms))

end

/-- The text stands for the value. -/
def Denotes (text : String) (v : Tree) : Prop :=
  lex text.toList = some v.tokens

/-- What may stand before an item or a member: a comma, or nothing before the first one. -/
def IsSeparator (sep : List Token) : Prop :=
  sep = [] ∨ sep = [.mark ',']

/-- An array that goes on does not end. -/
theorem itemsBehind_ne_end {sep : List Token} (hsep : IsSeparator sep) (v : Tree) (vs : List Tree)
    (rest rest' : List Token) : itemsBehind sep (v :: vs) ++ rest ≠ .mark ']' :: rest' := by
  have hfirst : v.tokens.head? ≠ some (.mark ']') ∧ v.tokens ≠ [] := by
    cases v <;> simp [Tree.tokens]
  obtain ⟨t, ts, htokens⟩ := List.exists_cons_of_ne_nil hfirst.2
  rw [itemsBehind]
  rcases hsep with rfl | rfl
  · rw [htokens] at hfirst ⊢
    exact fun h => hfirst.1 (congrArg List.head? h)
  · simp

/-- Nor does an object. -/
theorem membersBehind_ne_end {sep : List Token} (hsep : IsSeparator sep) (m : String × Tree)
    (ms : List (String × Tree)) (rest rest' : List Token) :
    membersBehind sep (m :: ms) ++ rest ≠ .mark '\x7d' :: rest' := by
  obtain ⟨key, v⟩ := m
  rw [membersBehind]
  rcases hsep with rfl | rfl <;> simp

mutual

/-- Tokens spell one value at most. -/
theorem Tree.tokens_inj : ∀ {v v' : Tree} {rest rest' : List Token},
    v.tokens ++ rest = v'.tokens ++ rest' → v = v' ∧ rest = rest'
  | .text s, v', rest, rest', h => by
      cases v' <;> simp_all [Tree.tokens]
  | .number w, v', rest, rest', h => by
      cases v' <;> simp_all [Tree.tokens]
  | .literal l, v', rest, rest', h => by
      cases v' <;> simp_all [Tree.tokens]
  | .array items, v', rest, rest', h => by
      cases v' with
      | array items' =>
          obtain ⟨hitems, hrest⟩ := itemsBehind_inj (.inl rfl : IsSeparator [])
            (by simpa [Tree.tokens] using h)
          exact ⟨congrArg Tree.array hitems, hrest⟩
      | _ => simp [Tree.tokens] at h
  | .object members, v', rest, rest', h => by
      cases v' with
      | object members' =>
          obtain ⟨hmembers, hrest⟩ := membersBehind_inj (.inl rfl : IsSeparator [])
            (by simpa [Tree.tokens] using h)
          exact ⟨congrArg Tree.object hmembers, hrest⟩
      | _ => simp [Tree.tokens] at h

/-- They spell the items of one array at most. -/
theorem itemsBehind_inj : ∀ {sep : List Token} {vs vs' : List Tree} {rest rest' : List Token},
    IsSeparator sep → itemsBehind sep vs ++ rest = itemsBehind sep vs' ++ rest' →
      vs = vs' ∧ rest = rest'
  | sep, [], [], rest, rest', hsep, h => by simpa [itemsBehind] using h
  | sep, [], v' :: vs', rest, rest', hsep, h => by
      rw [itemsBehind] at h
      exact absurd h.symm (itemsBehind_ne_end hsep v' vs' rest' _)
  | sep, v :: vs, [], rest, rest', hsep, h => by
      rw [itemsBehind.eq_1 sep] at h
      exact absurd h (itemsBehind_ne_end hsep v vs rest _)
  | sep, v :: vs, v' :: vs', rest, rest', hsep, h => by
      simp only [itemsBehind, List.append_assoc, List.append_cancel_left_eq] at h
      obtain ⟨rfl, hmore⟩ := Tree.tokens_inj (v := v) h
      obtain ⟨rfl, hrest⟩ := itemsBehind_inj (.inr rfl) hmore
      exact ⟨rfl, hrest⟩

/-- And the members of one object at most. -/
theorem membersBehind_inj : ∀ {sep : List Token} {ms ms' : List (String × Tree)}
    {rest rest' : List Token}, IsSeparator sep →
    membersBehind sep ms ++ rest = membersBehind sep ms' ++ rest' → ms = ms' ∧ rest = rest'
  | sep, [], [], rest, rest', hsep, h => by simpa [membersBehind] using h
  | sep, [], m' :: ms', rest, rest', hsep, h => by
      rw [membersBehind] at h
      exact absurd h.symm (membersBehind_ne_end hsep m' ms' rest' _)
  | sep, m :: ms, [], rest, rest', hsep, h => by
      rw [membersBehind.eq_1 sep] at h
      exact absurd h (membersBehind_ne_end hsep m ms rest _)
  | sep, (key, v) :: ms, (key', v') :: ms', rest, rest', hsep, h => by
      simp only [membersBehind, List.append_assoc, List.append_cancel_left_eq, List.cons_append,
        List.cons.injEq, Token.text.injEq, true_and] at h
      obtain ⟨rfl, h⟩ := h
      obtain ⟨rfl, hmore⟩ := Tree.tokens_inj (v := v) h
      obtain ⟨rfl, hrest⟩ := membersBehind_inj (.inr rfl) hmore
      exact ⟨rfl, hrest⟩

end

/-- **A text stands for one value at most.** -/
theorem Denotes.unique {text : String} {v v' : Tree} (h : Denotes text v) (h' : Denotes text v') :
    v = v' := by
  have htokens : v.tokens ++ [] = v'.tokens ++ [] :=
    congrArg (· ++ []) (Option.some.inj (h.symm.trans h'))
  exact (Tree.tokens_inj htokens).1

/-! ## Pieces of a text -/

/-- Before a text for which `P` holds, the piece `s` is cut into the tokens `ts` if `ok` holds, and the
whole is no JSON text otherwise. -/
def Reads (P : List Char → Prop) (s : List Char) (ok : Bool) (ts : List Token) : Prop :=
  ∀ rest, P rest → lex (s ++ rest) = if ok then (lex rest).map (ts ++ ·) else none

/-- Anything may follow. -/
def Anything (_ : List Char) : Prop := True

/-- A word before the text ends. -/
def EndsWord (rest : List Char) : Prop :=
  ∀ c, rest.head? = some c → endsWord c = true

section Reads

variable {P Q : List Char → Prop} {s s' : List Char} {ok ok' : Bool} {ts ts' : List Token}

/-- **Two pieces**, one behind the other. -/
theorem Reads.append (h : Reads P s ok ts) (h' : Reads Q s' ok' ts')
    (hfollows : ∀ rest, Q rest → P (s' ++ rest)) : Reads Q (s ++ s') (ok && ok') (ts ++ ts') := by
  intro rest hrest
  rw [List.append_assoc, h _ (hfollows rest hrest), h' rest hrest]
  cases ok with
  | false => rfl
  | true =>
      cases ok' with
      | false => rfl
      | true => simp [Function.comp_def, List.append_assoc]

/-- Nothing at all. -/
theorem reads_nil : Reads P [] true [] := by
  intro rest _
  simp

theorem Reads.anything (h : Reads Anything s ok ts) : Reads P s ok ts :=
  fun rest _ => h rest trivial

/-- White space. -/
theorem reads_filler (hs : s.all isFiller = true) : Reads P s true [] := by
  intro rest _
  simp only [if_true, List.nil_append, Option.map_id_fun', id_eq]
  induction s with
  | nil => rfl
  | cons c s ih =>
      obtain ⟨hc, hs⟩ := Bool.and_eq_true_iff.mp hs
      rw [List.cons_append, lex, if_pos hc, ih hs]

/-- A structural character. -/
theorem reads_mark {c : Char} (hc : isMark c = true) : Reads P [c] true [.mark c] := by
  intro rest _
  have hfiller : isFiller c = false := by
    simp only [isMark, Bool.or_eq_true, beq_iff_eq] at hc
    rcases hc with ((((rfl | rfl) | rfl) | rfl) | rfl) | rfl <;> rfl
  rw [List.singleton_append, lex, if_neg (by simp [hfiller]), if_pos hc]
  rfl

/-- A structural character with white space around it. -/
theorem reads_punctuation {before after : List Char} {c : Char} (hs : s = before ++ c :: after)
    (hbefore : before.all isFiller = true) (hc : isMark c = true)
    (hafter : after.all isFiller = true) : Reads P s true [.mark c] := by
  have hmark : Reads P (c :: after) true [.mark c] :=
    (reads_mark (P := Anything) hc).append (reads_filler hafter) fun _ _ => trivial
  rw [hs]
  exact (reads_filler (P := Anything) hbefore).append hmark fun _ _ => trivial

/-- A word. -/
theorem reads_word {w : List Char} (hne : w ≠ []) (hw : ∀ c ∈ w, endsWord c = false) {t : Token}
    (ht : wordToken? w = some t) : Reads EndsWord w true [t] := by
  intro rest hrest
  obtain ⟨c, tail, rfl⟩ := List.exists_cons_of_ne_nil hne
  have hc := hw c List.mem_cons_self
  simp only [endsWord, Bool.or_eq_false_iff, beq_eq_false_iff_ne] at hc
  have htail : ∀ e ∈ tail, (!endsWord e) = true :=
    fun e he => by rw [hw e (List.mem_cons_of_mem c he)]; rfl
  have htake : (tail ++ rest).takeWhile (!endsWord ·) = tail := by
    rw [List.takeWhile_append_of_pos htail]
    cases rest with
    | nil => exact List.append_nil tail
    | cons e rest => rw [List.takeWhile_cons_of_neg (by simp [hrest e rfl]), List.append_nil]
  have hdrop : (tail ++ rest).dropWhile (!endsWord ·) = rest := by
    rw [List.dropWhile_append_of_pos htail]
    cases rest with
    | nil => rfl
    | cons e rest => rw [List.dropWhile_cons_of_neg (by simp [hrest e rfl])]
  rw [List.cons_append, lex, if_neg (by simp [hc.1.1]), if_neg (by simp [hc.1.2]), if_neg hc.2, htake,
    hdrop, ht]
  rfl

/-- A text in quotes, the inside of which is read as `codes`, or not at all. -/
theorem reads_text {codes : List Nat}
    (h : ∀ rest, readText (s ++ rest) = if ok then some (codes, rest) else none) :
    Reads P ('"' :: s) ok [.text (String.ofList (scalars codes))] := by
  intro rest _
  rw [List.cons_append, lex, if_neg (by decide), if_neg (by decide), if_pos rfl]
  cases ok with
  | false =>
      have hread := h rest
      simp only [Bool.false_eq_true, if_false] at hread ⊢
      split
      · rename_i hsome
        rw [hread] at hsome
        cases hsome
      · rfl
  | true =>
      have hread := h rest
      simp only [if_true] at hread ⊢
      split
      · rename_i codes' behind hsome
        rw [hread] at hsome
        obtain ⟨rfl, rfl⟩ := Prod.mk.inj (Option.some.inj hsome)
        rfl
      · rename_i hnone
        rw [hread] at hnone
        cases hnone

end Reads

end CppDoc.Json
