import XsdCatalog.Markup.Token

/-!
# References and entities

Texts and attribute values are cut into characters and references. A reference names a character by
its number, one of the five characters with a name of their own, or an entity of the document.
-/

namespace XsdCatalog.Markup

/-- A character as it stands, a character referred to, or an entity referred to. -/
inductive Piece
  | plain (c : Char)
  | reference (c : Char)
  | entity (name : List Char)

/-- An entity that the document declares, with its text where it is declared. -/
structure Entity where
  name : List Char
  value : Cursor

/-- The value of a digit in a base of at most 16. -/
def digitValue? (base : Nat) (c : Char) : Option Nat :=
  let n := c.toNat
  let value :=
    if 0x30 ≤ n ∧ n ≤ 0x39 then n - 0x30
    else if 0x41 ≤ n ∧ n ≤ 0x46 then n - 0x41 + 10
    else if 0x61 ≤ n ∧ n ≤ 0x66 then n - 0x61 + 10
    else base
  if value < base then some value else none

/-- The character with a number; the replacement character where there is none. -/
def charOfNumber (n : Nat) : Char :=
  if n.isValidChar then Char.ofNat n else '\ufffd'

/-- The character that digits refer to. The number fits 32 bits and the character is allowed. -/
def numbered? (base : Nat) (digits : List Char) : Option Char :=
  let n := digits.foldl (fun n c => base * n + (digitValue? base c).getD 0) 0
  let c := charOfNumber n
  if !digits.isEmpty && n < 4294967296 && isAllowed c then some c else none

/-- The reference that a name between `&` and `;` is. -/
def named (name : List Char) : Piece :=
  match String.ofList name with
  | "quot" => .reference '"'
  | "amp" => .reference '&'
  | "apos" => .reference '\''
  | "lt" => .reference '<'
  | "gt" => .reference '>'
  | _ => .entity name

/-- The reference at the start of what follows an `&`, and what follows it. -/
def reference? (cs : List Char) : Option (Piece × List Char) :=
  let digits (base : Nat) (cs : List Char) : Option (Piece × List Char) :=
    let isDigit := fun c => (digitValue? base c).isSome
    match numbered? base (cs.takeWhile isDigit), cs.dropWhile isDigit with
    | some c, ';' :: rest => some (.reference c, rest)
    | _, _ => none
  match cs with
  | '#' :: 'x' :: rest => digits 16 rest
  | '#' :: rest => digits 10 rest
  | first :: _ =>
    match cs.dropWhile isNameChar with
    | ';' :: rest => if isNameStart first then some (named (cs.takeWhile isNameChar), rest) else none
    | _ => none
  | [] => none

theorem reference?_length {cs rest : List Char} {p : Piece} (h : reference? cs = some (p, rest)) :
    rest.length < cs.length := by
  have digits {base : Nat} {ds : List Char} {c : Char}
      (h : ds.dropWhile (fun c => (digitValue? base c).isSome) = c :: rest) :
      rest.length < ds.length := by
    have := (List.dropWhile_suffix (fun c => (digitValue? base c).isSome) (l := ds)).length_le
    rw [h, List.length_cons] at this
    omega
  unfold reference? at h
  simp only at h
  split at h
  · split at h
    · next hd =>
      cases h
      have := digits hd
      simp only [List.length_cons]
      omega
    · cases h
  · split at h
    · next hd =>
      cases h
      have := digits hd
      simp only [List.length_cons]
      omega
    · cases h
  · next first tail _ _ =>
    split at h
    · next hd =>
      split at h
      · cases h
        have := (List.dropWhile_suffix isNameChar (l := first :: tail)).length_le
        rw [hd, List.length_cons] at this
        omega
      · cases h
    · cases h
  · cases h

/-- The pieces of a text; none if an `&` begins no reference. `done` are the pieces read so far,
last one first. -/
def piecesFrom (done : List Piece) (cs : List Char) : Option (List Piece) :=
  match cs with
  | [] => some done.reverse
  | c :: rest =>
    if c = '&' then
      match _h : reference? rest with
      | some (p, rest) => piecesFrom (p :: done) rest
      | none => none
    else piecesFrom (.plain c :: done) rest
termination_by cs.length
decreasing_by
  · have := reference?_length _h
    simp only [List.length_cons]
    omega
  · simp

/-- The pieces of a text; none if an `&` begins no reference. -/
def pieces? (cs : List Char) : Option (List Piece) :=
  piecesFrom [] cs

end XsdCatalog.Markup
