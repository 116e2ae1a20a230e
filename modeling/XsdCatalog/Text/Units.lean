/-!
# Size in UTF-16

A character outside the basic plane counts as two code units, every other one as one.
-/

namespace XsdCatalog.Text

/-- Code units of one character. -/
def charUnits (c : Char) : Nat :=
  if c.toNat < 0x10000 then 1 else 2

/-- Code units of a text. -/
def units (s : String) : Nat :=
  s.toList.foldl (fun n c => n + charUnits c) 0

end XsdCatalog.Text
