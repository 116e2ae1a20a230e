import XsdCatalog.Diagnostic

/-!
# Positions in a byte stream

Lines end at line feeds. Columns count the bytes that do not continue a UTF-8 character, so in
valid text they count characters. A byte order mark at the very start is no column. The tracker
remembers the place of the last `<` it has passed.
-/

namespace XsdCatalog.Fragment

structure Tracker where
  position : Position := .start
  lastTag : Position := ⟨0, 0⟩
  atStart : Bool := true
deriving DecidableEq, Repr

namespace Tracker

/-- The bytes of the byte order mark. -/
def byteOrderMark : List UInt8 := [0xEF, 0xBB, 0xBF]

/-- A byte that continues a UTF-8 character. -/
def isContinuation (b : UInt8) : Bool :=
  b &&& 0xC0 == 0x80

/-- Passes one byte. -/
def step (t : Tracker) (b : UInt8) : Tracker :=
  let p := t.position
  if b = 0x0A then { t with position := ⟨p.line + 1, 1⟩ }
  else if b = 0x3C then { t with position := ⟨p.line, p.column + 1⟩, lastTag := p }
  else if isContinuation b then t
  else { t with position := ⟨p.line, p.column + 1⟩ }

/-- Passes a run of bytes; of the first run that is not empty a leading byte order mark is left
out of account. -/
def consume (t : Tracker) (bytes : List UInt8) : Tracker :=
  if t.atStart && !bytes.isEmpty then
    let counted := if byteOrderMark.isPrefixOf bytes then bytes.drop 3 else bytes
    counted.foldl step { t with atStart := false }
  else bytes.foldl step t

end Tracker
end XsdCatalog.Fragment
