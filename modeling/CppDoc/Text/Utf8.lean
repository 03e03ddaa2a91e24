/-!
# Reading UTF-8

`decode` reads a sequence of bytes as text and never fails: each longest run of bytes that could
have begun a character, but does not complete one, is read as one replacement character.
-/

namespace CppDoc.Text

/-- The character that stands for what cannot be read. -/
def replacement : Char :=
  '\uFFFD'

/-- Is `b` between `low` and `high`? -/
def within (low high : UInt8) (b : UInt8) : Bool :=
  low ≤ b && b ≤ high

/-- Does `b` continue a character? -/
def isTail (b : UInt8) : Bool :=
  within 0x80 0xBF b

/-- May `b` follow `lead`, the first of three bytes? -/
def secondOfThree (lead b : UInt8) : Bool :=
  if lead = 0xE0 then within 0xA0 0xBF b
  else if lead = 0xED then within 0x80 0x9F b
  else isTail b

/-- May `b` follow `lead`, the first of four bytes? -/
def secondOfFour (lead b : UInt8) : Bool :=
  if lead = 0xF0 then within 0x90 0xBF b
  else if lead = 0xF4 then within 0x80 0x8F b
  else isTail b

/-- The character made of `lead`, of which the bits above `cut` are marks, and six bits of each
further byte. -/
def assemble (lead : UInt8) (cut : Nat) (tail : List UInt8) : Char :=
  Char.ofNat (tail.foldl (fun n b => n * 64 + b.toNat % 64) (lead.toNat % cut))

/-- The text that `bytes` hold. -/
def decode : List UInt8 → List Char
  | [] => []
  | a :: rest =>
    if a < 0x80 then Char.ofNat a.toNat :: decode rest
    else if within 0xC2 0xDF a then
      match rest with
      | [] => [replacement]
      | b :: rest1 =>
        if isTail b then assemble a 32 [b] :: decode rest1 else replacement :: decode (b :: rest1)
    else if within 0xE0 0xEF a then
      match rest with
      | [] => [replacement]
      | b :: rest1 =>
        if secondOfThree a b then
          match rest1 with
          | [] => [replacement]
          | c :: rest2 =>
            if isTail c then assemble a 16 [b, c] :: decode rest2
            else replacement :: decode (c :: rest2)
        else replacement :: decode (b :: rest1)
    else if within 0xF0 0xF4 a then
      match rest with
      | [] => [replacement]
      | b :: rest1 =>
        if secondOfFour a b then
          match rest1 with
          | [] => [replacement]
          | c :: rest2 =>
            if isTail c then
              match rest2 with
              | [] => [replacement]
              | d :: rest3 =>
                if isTail d then assemble a 8 [b, c, d] :: decode rest3
                else replacement :: decode (d :: rest3)
            else replacement :: decode (c :: rest2)
        else replacement :: decode (b :: rest1)
    else replacement :: decode rest

end CppDoc.Text
