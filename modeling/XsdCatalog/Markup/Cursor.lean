import XsdCatalog.Diagnostic
import XsdCatalog.Markup.Character
import XsdCatalog.Text.Split

/-!
# Cursors

A cursor is what is left of a text, together with the position of its first character. Each
operation leaves a cursor that is not longer than before.
-/

namespace XsdCatalog.Markup

structure Cursor where
  rest : List Char
  position : Position := .start
deriving Inhabited

namespace Cursor

def length (c : Cursor) : Nat :=
  c.rest.length

/-- The cursor behind `taken`, which is what its text begins with. -/
def behind (c : Cursor) (taken rest : List Char) : Cursor :=
  ⟨rest, c.position.after taken⟩

/-- The characters up to the first one without the property, and the cursor there. -/
def takeWhile (c : Cursor) (p : Char → Bool) : List Char × Cursor :=
  let taken := c.rest.takeWhile p
  (taken, c.behind taken (c.rest.dropWhile p))

def skipSpaces (c : Cursor) : Cursor :=
  (c.takeWhile isSpace).2

def startsWith (c : Cursor) (word : List Char) : Bool :=
  word.isPrefixOf c.rest

/-- The cursor behind a word, if the text begins with it. -/
def eat? (c : Cursor) (word : List Char) : Option Cursor :=
  if c.startsWith word then some (c.behind word (c.rest.drop word.length)) else none

/-- The characters before the first marker, and the cursor behind it. -/
def before? (c : Cursor) (marker : List Char) : Option (List Char × Cursor) :=
  (Text.splitFirst? marker c.rest).map fun (taken, rest) =>
    (taken, c.behind (taken ++ marker) rest)

/-- The cursor behind one or more spaces. -/
def spaces? (c : Cursor) : Option Cursor :=
  match c.rest with
  | x :: _ => if isSpace x then some c.skipSpaces else none
  | [] => none

theorem takeWhile_length (c : Cursor) (p : Char → Bool) : (c.takeWhile p).2.length ≤ c.length :=
  (List.dropWhile_suffix p).length_le

theorem skipSpaces_length (c : Cursor) : c.skipSpaces.length ≤ c.length :=
  takeWhile_length c isSpace

theorem eat?_length {c d : Cursor} {word : List Char} (h : c.eat? word = some d) :
    d.length + word.length ≤ c.length := by
  unfold eat? startsWith at h
  split at h
  · next hp =>
    obtain rfl := Option.some.inj h
    have := (List.isPrefixOf_iff_prefix.1 hp).length_le
    simp only [behind, length, List.length_drop]
    omega
  · cases h

theorem before?_length {c d : Cursor} {marker taken : List Char}
    (h : c.before? marker = some (taken, d)) :
    d.length + marker.length + taken.length ≤ c.length := by
  obtain ⟨⟨t, r⟩, hs, he⟩ := Option.map_eq_some_iff.1 h
  obtain ⟨rfl, rfl⟩ := Prod.mk.inj he
  have := congrArg List.length (Text.splitFirst?_eq_some hs)
  simp only [List.length_append] at this
  simp only [behind, length]
  omega

theorem spaces?_length {c d : Cursor} (h : c.spaces? = some d) : d.length ≤ c.length := by
  unfold spaces? at h
  split at h
  · split at h
    · obtain rfl := Option.some.inj h
      exact skipSpaces_length c
    · cases h
  · cases h

end Cursor

end XsdCatalog.Markup
