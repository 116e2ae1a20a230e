/-!
# Line ends

A line may end in a carriage return, a line feed or both in this order. Texts handed out use the
line feed alone. The two replacements are made one after the other over the whole text; `unixLines`
says the same in a single pass.
-/

namespace XsdCatalog.Text

/-- Every pair of carriage return and line feed becomes a line feed. `done` holds the characters
already passed, last one first. -/
def joinPairsOnto (done : List Char) : List Char → List Char
  | [] => done.reverse
  | [c] => (c :: done).reverse
  | c :: d :: cs =>
    if c = '\r' ∧ d = '\n' then joinPairsOnto ('\n' :: done) cs
    else joinPairsOnto (c :: done) (d :: cs)

/-- Every carriage return becomes a line feed. -/
def replaceReturns (cs : List Char) : List Char :=
  cs.map fun c => if c = '\r' then '\n' else c

/-- A text in which every line ends in a line feed alone. -/
def normalizeLineEnds (s : String) : String :=
  if s.toList.contains '\r' then String.ofList (replaceReturns (joinPairsOnto [] s.toList)) else s

/-- Line ends normalised in one pass from left to right. -/
def unixLines : List Char → List Char
  | [] => []
  | '\r' :: '\n' :: cs => '\n' :: unixLines cs
  | c :: cs => (if c = '\r' then '\n' else c) :: unixLines cs

end XsdCatalog.Text
