import CppDoc.Proofs.Markup.OffsetWords
import CppDoc.Proofs.Text.Search

/-!
# Scans

All that is done with a cursor while files and documentation are read.  Each scan is given twice: as a
step over characters, and as one over bytes that cuts the text between offsets and has no answer where a
cut would go through a character.  On a boundary both are the same.

* `Scan`, with `Scan.run` and `Scan.runAt?`: the scans;
* `runAt?_eq`: both give the same on a boundary;
* `after`: one scan after the other;
* `ScanReader`: a reader that a scan is made of.
-/

namespace CppDoc.Cursor

open CppDoc.Markup CppDoc.Syntax CppDoc.Text

/-- What is done with a cursor: moving over one character, behind a text or over one that comes next,
over a gap, or over what a reader recognises.  Asking for the line is a scan as well.  The last five are
those of the words of a documentation. -/
inductive Scan where
  | step
  | scanTo (pat : String)
  | textUntil (pat : String)
  | pass (pat : String)
  | skipGap
  | line
  | name
  | type
  | parameters
  | word
  | value
  | blanks
  | visible
  | number
  | block
  | code

/-- What a scan gives, and the cursor behind it. -/
def Scan.run (c : Cursor) : Scan → String × Cursor
  | .step => ("", c.step)
  | .scanTo pat => ("", (c.scanTo pat).2)
  | .textUntil pat => (String.ofList (c.textUntil pat).1, (c.textUntil pat).2)
  | .pass pat => ("", if c.lookingAt pat then c.skip pat.toList.length else c)
  | .skipGap => ("", c.skipGap)
  | .line => (toString c.line.1, c.line.2)
  | .name => c.read readName
  | .type => c.read readType
  | .parameters => c.read readParameters
  | .word => c.read Syntax.readWord
  | .value => c.read readValue
  | .blanks => c.read fun s => (String.ofList (s.takeWhile isBlank), (s.takeWhile isBlank).length)
  | .visible =>
    c.read fun s => (String.ofList (s.takeWhile (!isBlank ·)), (s.takeWhile (!isBlank ·)).length)
  | .number =>
    c.read fun s => ((rfcNumber? s).elim "" (toString ·.1), (rfcNumber? s).elim 0 Prod.snd)
  | .block => c.read takeBlock
  | .code => c.read takeCode

/-- What a scan gives, and the cursor behind it, by the bytes of the text. -/
def Scan.runAt? (c : Cursor) : Scan → Option (String × Cursor)
  | .step => some ("", c.step)
  | .scanTo pat => (c.cutAt? pat).map fun (_, _, c) => ("", c)
  | .textUntil pat => (c.cutAt? pat).map fun (_, t, c) => (String.ofList t, c)
  | .pass pat =>
    some ("", if beginsAt c.text c.pos pat.toList then c.moveTo (c.pos + byteLength pat.toList) else c)
  | .skipGap => some ("", c.skipGapAt)
  | .line => some (toString c.line.1, c.line.2)
  | .name => c.readNameAt?
  | .type => c.readTypeAt?.map fun (t, c) => (String.ofList t, c)
  | .parameters => c.readParametersAt?
  | .word => c.readWordAt?
  | .value => c.readValueAt?
  | .blanks =>
    let stop := c.stepWhile isBlank
    (cut? c.text c.pos stop.pos).map fun t => (String.ofList t, stop)
  | .visible =>
    let stop := c.stepWhile (!isBlank ·)
    (cut? c.text c.pos stop.pos).map fun t => (String.ofList t, stop)
  | .number => (numberAt? c).map fun (n, c) => (n.elim "" toString, c)
  | .block => takeBlockAt? c
  | .code => takeCodeAt? c

/-! ## One scan -/

section Scan

variable {c : Cursor}

/-- A text that comes next is passed. -/
theorem pass_eq (h : c.Stands) (pat : String) :
    (if beginsAt c.text c.pos pat.toList then c.moveTo (c.pos + byteLength pat.toList) else c) =
      if c.lookingAt pat then c.skip pat.toList.length else c := by
  have hlooking : c.lookingAt pat = true ↔ pat.toList <+: c.rest := List.isPrefixOf_iff_prefix
  by_cases hpat : pat.toList <+: c.rest
  · have hbegins : beginsAt c.text c.pos pat.toList = true := by
      by_cases hnil : pat.toList = []
      · have hpos := h.pos_add
        rw [hnil]
        exact decide_eq_true (by omega)
      · rwa [beginsAt_iff hnil, h.fromOffset_eq]
    have htake : c.rest.take pat.toList.length = pat.toList :=
      (List.prefix_iff_eq_take.mp hpat).symm
    have hoffset : c.pos + byteLength pat.toList = offsetBehind c.text c.pos pat.toList.length := by
      rw [offsetBehind, h.fromOffset_eq, htake]
    rw [if_pos hbegins, if_pos (hlooking.mpr hpat), hoffset, h.moveTo_eq]
  · have hnil : pat.toList ≠ [] := fun hnil => hpat (hnil ▸ List.nil_prefix)
    have hbegins : ¬ beginsAt c.text c.pos pat.toList = true := by
      rwa [beginsAt_iff hnil, h.fromOffset_eq]
    rw [if_neg hbegins, if_neg (mt hlooking.mp hpat)]

/-- A run of characters of a class is cut out. -/
theorem cut?_run (h : c.Stands) {p : Char → Bool}
    (hskip : c.stepWhile p = c.skip (c.rest.takeWhile p).length) :
    cut? c.text c.pos (c.stepWhile p).pos = some (c.rest.takeWhile p) := by
  rw [hskip, ← h.offsetBehind_eq, h.cut?_behind, take_length_takeWhile]

/-- **A scan** on a boundary: cutting between offsets gives what the characters give. -/
theorem runAt?_eq (h : c.Stands) (scan : Scan) : scan.runAt? c = some (scan.run c) := by
  cases scan with
  | step => rfl
  | scanTo pat =>
      rw [Scan.runAt?, h.cutAt?_eq]
      rfl
  | textUntil pat =>
      rw [Scan.runAt?, h.cutAt?_eq]
      rfl
  | pass pat => rw [Scan.runAt?, pass_eq h, Scan.run]
  | skipGap => rw [Scan.runAt?, h.skipGapAt_eq, Scan.run]
  | line => rfl
  | name => exact readNameAt?_eq h
  | type =>
      rw [Scan.runAt?, readTypeAt?_eq h]
      rfl
  | parameters => exact readParametersAt?_eq h
  | word => exact readWordAt?_eq h
  | value => exact readValueAt?_eq h
  | blanks =>
      have hskip := stepWhile_ascii ascii_isBlank h
      rw [Scan.runAt?, cut?_run h hskip, hskip]
      rfl
  | visible =>
      have hskip := stepWhile_not ascii_isBlank h
      rw [Scan.runAt?, cut?_run h hskip, hskip]
      rfl
  | number =>
      rw [Scan.runAt?, numberAt?_eq h, Scan.run, read]
      cases rfcNumber? c.rest <;> rfl
  | block => exact takeBlockAt?_eq h
  | code => exact takeCodeAt?_eq h

end Scan

/-- The cursor behind some scans. -/
def after (scans : List Scan) (c : Cursor) : Cursor :=
  scans.foldl (fun c scan => (scan.run c).2) c

/-- A reader that a scan is made of. -/
class ScanReader (reader : List Char → String × Nat) : Prop where
  scan : ∃ scan : Scan, ∀ c : Cursor, scan.run c = c.read reader

instance : ScanReader readName := ⟨.name, fun _ => rfl⟩

instance : ScanReader readType := ⟨.type, fun _ => rfl⟩

instance : ScanReader readParameters := ⟨.parameters, fun _ => rfl⟩

instance : ScanReader Syntax.readWord := ⟨.word, fun _ => rfl⟩

instance : ScanReader readValue := ⟨.value, fun _ => rfl⟩

end CppDoc.Cursor
