import XsdCatalog.Text.Split

/-!
# Pieces of a byte stream

A source document is cut into texts, tags, comments, character data, instructions and document
types without looking at names or at the character encoding. A piece keeps the bytes between its
marks, so the pieces read so far spell the input back (`next_source`).
-/

namespace XsdCatalog.Fragment

abbrev Bytes := List UInt8

/-- The bytes of an ASCII text. -/
def ascii (s : String) : Bytes :=
  s.toList.map Char.toUInt8

/-- Space, tab, carriage return and line feed. -/
def isSpace (b : UInt8) : Bool :=
  b == 0x20 || b == 0x09 || b == 0x0D || b == 0x0A

inductive Piece
  | text (body : Bytes)
  | start (body : Bytes)
  | empty (body : Bytes)
  | stop (body : Bytes)
  | comment (body : Bytes)
  | cdata (body : Bytes)
  | instruction (body : Bytes)
  | doctype (body : Bytes)
deriving DecidableEq, Repr

namespace Piece

/-- The bytes that a piece was read from. -/
def source : Piece → Bytes
  | text body => body
  | start body => 0x3C :: body ++ [0x3E]
  | empty body => 0x3C :: body ++ [0x2F, 0x3E]
  | stop body => 0x3C :: 0x2F :: body ++ [0x3E]
  | comment body => ascii "<!--" ++ body ++ ascii "-->"
  | cdata body => ascii "<![CDATA[" ++ body ++ ascii "]]>"
  | instruction body => 0x3C :: 0x3F :: body ++ ascii "?>"
  | doctype body => 0x3C :: 0x21 :: body ++ [0x3E]

/-- The name in a start tag: its bytes up to the first space. -/
def tagName (body : Bytes) : Bytes :=
  body.takeWhile (!isSpace ·)

/-- The name in an end tag: its bytes without spaces at the end, unless there is nothing else. -/
def stopName (body : Bytes) : Bytes :=
  if body.all isSpace then body else (body.reverse.dropWhile isSpace).reverse

/-- The bytes that a piece is written with. Only end tags lose something, their spaces at the end;
a document type gets its keyword in capitals and one space behind it. -/
def written : Piece → Bytes
  | stop body => 0x3C :: 0x2F :: stopName body ++ [0x3E]
  | doctype body => ascii "<!DOCTYPE " ++ (body.drop 7).dropWhile isSpace ++ [0x3E]
  | piece => piece.source

/-- The body of a tag and what follows its `>`, the first one outside quotes. `quote` is the quote
that is open, `seen` the body read so far, last byte first. -/
def splitTag (quote : Option UInt8) (seen : Bytes) : Bytes → Option (Bytes × Bytes)
  | [] => none
  | b :: rest =>
    match quote with
    | some q => splitTag (if b = q then none else quote) (b :: seen) rest
    | none =>
      if b = 0x3E then some (seen.reverse, rest)
      else splitTag (if b = 0x22 ∨ b = 0x27 then some b else none) (b :: seen) rest

/-- What stands before the first `>` with no `<` left open before it, and what follows. -/
def splitBalanced (depth : Nat) (seen : Bytes) : Bytes → Option (Bytes × Bytes)
  | [] => none
  | b :: rest =>
    if b = 0x3E then
      match depth with
      | 0 => some (seen.reverse, rest)
      | outer + 1 => splitBalanced outer (b :: seen) rest
    else splitBalanced (if b = 0x3C then depth + 1 else depth) (b :: seen) rest

/-- An ASCII letter as a capital. -/
def upper (b : UInt8) : UInt8 :=
  if 0x61 ≤ b ∧ b ≤ 0x7A then b - 0x20 else b

/-- A document type begins with its keyword in any letter case and says something behind it. -/
def isDoctype (body : Bytes) : Bool :=
  (body.take 7).map upper == ascii "DOCTYPE" && !(body.drop 7).all isSpace

/-- A start tag, or an empty tag if its body ends in a slash. -/
def ofTagBody (body : Bytes) : Piece :=
  if body.getLast? = some 0x2F then empty body.dropLast else start body

/-- The piece behind `<` and the rest of the input; none where no piece ends. -/
def markup? (bytes : Bytes) : Option (Piece × Bytes) :=
  match bytes with
  | 0x2F :: rest => (splitTag none [] rest).map fun (body, rest) => (stop body, rest)
  | 0x3F :: rest =>
    if rest.head? = some 0x3E then none
    else (Text.splitFirst? (ascii "?>") rest).map fun (body, rest) => (instruction body, rest)
  | 0x21 :: rest =>
    if (ascii "--").isPrefixOf rest then
      (Text.splitFirst? (ascii "-->") (rest.drop 2)).map fun (body, rest) => (comment body, rest)
    else if (ascii "[CDATA[").isPrefixOf rest then
      (Text.splitFirst? (ascii "]]>") (rest.drop 7)).map fun (body, rest) => (cdata body, rest)
    else
      (splitBalanced 0 [] rest).bind fun (body, rest) =>
        if isDoctype body then some (doctype body, rest) else none
  | rest => (splitTag none [] rest).map fun (body, rest) => (ofTagBody body, rest)

/-- The first piece of a non-empty input and the rest. -/
def next? (b : UInt8) (bytes : Bytes) : Option (Piece × Bytes) :=
  if b = 0x3C then markup? bytes
  else some (text (b :: bytes.takeWhile (· != 0x3C)), bytes.dropWhile (· != 0x3C))

private theorem splitTag_eq_some {quote : Option UInt8} {seen bytes body rest : Bytes}
    (h : splitTag quote seen bytes = some (body, rest)) :
    body ++ 0x3E :: rest = seen.reverse ++ bytes := by
  induction bytes generalizing quote seen with
  | nil => simp [splitTag] at h
  | cons b bytes ih =>
    unfold splitTag at h
    split at h
    · simpa using ih h
    · split at h
      · next hb =>
        obtain ⟨rfl, rfl⟩ := Prod.mk.inj (Option.some.inj h)
        rw [hb]
      · simpa using ih h

theorem splitBalanced_eq_some {depth : Nat} {seen bytes body rest : Bytes}
    (h : splitBalanced depth seen bytes = some (body, rest)) :
    body ++ 0x3E :: rest = seen.reverse ++ bytes := by
  induction bytes generalizing depth seen with
  | nil => simp [splitBalanced] at h
  | cons b bytes ih =>
    unfold splitBalanced at h
    split at h
    · next hb =>
      split at h
      · obtain ⟨rfl, rfl⟩ := Prod.mk.inj (Option.some.inj h)
        rw [hb]
      · simpa using ih h
    · simpa using ih h

theorem source_ofTagBody (body : Bytes) : (ofTagBody body).source = 0x3C :: body ++ [0x3E] := by
  unfold ofTagBody
  split
  · next h =>
    obtain ⟨front, rfl⟩ := List.getLast?_eq_some_iff.1 h
    simp [source]
  · rfl

theorem markup?_source {bytes rest : Bytes} {piece : Piece}
    (h : markup? bytes = some (piece, rest)) : piece.source ++ rest = 0x3C :: bytes := by
  unfold markup? at h
  split at h
  · obtain ⟨⟨body, rest'⟩, hs, he⟩ := Option.map_eq_some_iff.1 h
    obtain ⟨rfl, rfl⟩ := Prod.mk.inj he
    simpa [source] using splitTag_eq_some hs
  · split at h
    · cases h
    · obtain ⟨⟨body, rest'⟩, hs, he⟩ := Option.map_eq_some_iff.1 h
      obtain ⟨rfl, rfl⟩ := Prod.mk.inj he
      simp [source, ← Text.splitFirst?_eq_some hs]
  · split at h
    · next hp =>
      obtain ⟨⟨body, rest'⟩, hs, he⟩ := Option.map_eq_some_iff.1 h
      obtain ⟨rfl, rfl⟩ := Prod.mk.inj he
      obtain ⟨tail, rfl⟩ := List.isPrefixOf_iff_prefix.1 hp
      have hs' := Text.splitFirst?_eq_some hs
      simp only [source]
      rw [show (ascii "--" ++ tail).drop 2 = tail from rfl] at hs'
      rw [← hs']
      simp [ascii]
      decide
    · split at h
      · next hp =>
        obtain ⟨⟨body, rest'⟩, hs, he⟩ := Option.map_eq_some_iff.1 h
        obtain ⟨rfl, rfl⟩ := Prod.mk.inj he
        obtain ⟨tail, rfl⟩ := List.isPrefixOf_iff_prefix.1 hp
        have hs' := Text.splitFirst?_eq_some hs
        simp only [source]
        rw [show (ascii "[CDATA[" ++ tail).drop 7 = tail from rfl] at hs'
        rw [← hs']
        simp [ascii]
        decide
      · obtain ⟨⟨body, rest'⟩, hs, he⟩ := Option.bind_eq_some_iff.1 h
        simp only at he
        split at he
        · obtain ⟨rfl, rfl⟩ := Prod.mk.inj (Option.some.inj he)
          simpa [source] using splitBalanced_eq_some hs
        · cases he
  · obtain ⟨⟨body, rest'⟩, hs, he⟩ := Option.map_eq_some_iff.1 h
    obtain ⟨rfl, rfl⟩ := Prod.mk.inj he
    rw [source_ofTagBody]
    simpa using splitTag_eq_some hs

/-- A piece and the rest behind it spell the input. -/
theorem next?_source {b : UInt8} {bytes rest : Bytes} {piece : Piece}
    (h : next? b bytes = some (piece, rest)) : piece.source ++ rest = b :: bytes := by
  unfold next? at h
  split at h
  · next hb => rw [markup?_source h, hb]
  · obtain ⟨rfl, rfl⟩ := Prod.mk.inj (Option.some.inj h)
    simp [source]

private theorem ofTagBody_ne_text (body other : Bytes) : ofTagBody body ≠ text other := by
  unfold ofTagBody
  split <;> simp

theorem markup?_ne_text {bytes body rest : Bytes} : markup? bytes ≠ some (text body, rest) := by
  intro h
  unfold markup? at h
  split at h
  · simp at h
  · split at h <;> simp at h
  · split at h
    · simp at h
    · split at h
      · simp at h
      · obtain ⟨⟨body', rest'⟩, _, he⟩ := Option.bind_eq_some_iff.1 h
        simp only at he
        split at he <;> simp at he
  · obtain ⟨⟨body', rest'⟩, _, he⟩ := Option.map_eq_some_iff.1 h
    exact ofTagBody_ne_text _ _ (Prod.mk.inj he).1

/-- Every piece takes at least one byte. -/
theorem next?_length {b : UInt8} {bytes rest : Bytes} {piece : Piece}
    (h : next? b bytes = some (piece, rest)) : rest.length ≤ bytes.length := by
  have hs := congrArg List.length (next?_source h)
  have hp : 1 ≤ piece.source.length := by
    unfold next? at h
    split at h
    · cases piece with
      | text body => exact absurd h markup?_ne_text
      | _ => simp [source, ascii]
    · obtain ⟨rfl, rfl⟩ := Prod.mk.inj (Option.some.inj h)
      simp [source]
  simp only [List.length_append, List.length_cons] at hs
  omega

/-- All pieces of an input in order, and whether the last one ended where the input did. -/
def scan : Bytes → List Piece × Bool
  | [] => ([], true)
  | b :: bytes =>
    match h : next? b bytes with
    | none => ([], false)
    | some (piece, rest) =>
      have := next?_length h
      let (pieces, whole) := scan rest
      (piece :: pieces, whole)
termination_by bytes => bytes.length
decreasing_by simp; omega

end Piece
end XsdCatalog.Fragment
