/-!
# Decimal numerals

A numeral is an optional plus sign and one or more ASCII digits; leading zeros are allowed. Its
value is decided in the natural numbers, so a bound cannot be missed by wrapping around.
-/

namespace XsdCatalog.Text

/-- The value of a row of decimal digits. -/
def digitsValue (cs : List Char) : Nat :=
  cs.foldl (fun n c => 10 * n + (c.toNat - '0'.toNat)) 0

/-- One or more ASCII digits, read as a number. -/
def digits? (cs : List Char) : Option Nat :=
  if !cs.isEmpty && cs.all Char.isDigit then some (digitsValue cs) else none

/-- A numeral of a number below `bound`. -/
def numeralBelow? (bound : Nat) (s : String) : Option Nat :=
  let cs := s.toList
  let digits := if cs.head? = some '+' then cs.tail else cs
  (digits? digits).filter (· < bound)

/-- A numeral that fits 32 bits. -/
def numeral32? (s : String) : Option Nat :=
  numeralBelow? 4294967296 s

end XsdCatalog.Text
