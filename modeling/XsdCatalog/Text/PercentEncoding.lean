/-!
# Percent encoding

A percent sign and two digits stand for one byte. The two digits may also be a plus sign and one
digit. A percent sign before anything else stands for itself.
-/

namespace XsdCatalog.Text

/-- The value of an ASCII hexadecimal digit of either case. -/
def hexDigit? (b : UInt8) : Option UInt8 :=
  if 0x30 ≤ b ∧ b ≤ 0x39 then some (b - 0x30)
  else if 0x41 ≤ b ∧ b ≤ 0x46 then some (b - 0x41 + 10)
  else if 0x61 ≤ b ∧ b ≤ 0x66 then some (b - 0x61 + 10)
  else none

/-- The byte that two bytes behind a percent sign denote. -/
def hexPair? (a b : UInt8) : Option UInt8 :=
  if a = 0x2B then hexDigit? b
  else do
    let high ← hexDigit? a
    let low ← hexDigit? b
    return high * 16 + low

/-- Replaces every escape by its byte, from left to right. -/
def percentDecode : List UInt8 → List UInt8
  | [] => []
  | [a] => [a]
  | [a, b] => [a, b]
  | p :: a :: b :: rest =>
    if p = 0x25 then
      match hexPair? a b with
      | some byte => byte :: percentDecode rest
      | none => p :: percentDecode (a :: b :: rest)
    else p :: percentDecode (a :: b :: rest)

end XsdCatalog.Text
