import XsdCatalog.Markup.Reference

/-!
# Expansion of entities

Tokens become events, in which no reference is left. The text of an entity is read like content
where it stands in a text, and as characters where it stands in an attribute value. Entities nest
ten deep at most, and one reference outside of entities leads to at most 255 references inside.

The text of an entity need not be balanced. It may open elements and leave them open, and it is read
up to the first end tag of an element that it did not open.
-/

namespace XsdCatalog.Markup

/-- What a document says in the order in which it says it. An empty tag is a start and a stop, and
`cut` is a start tag that the text it stands in does not end. -/
inductive Event
  | start (position : Position) (name : TagName) (attributes : List (TagName × String))
  | cut (name : TagName) (attributes : List (TagName × String))
  | stop (name : TagName)
  | text (chars : List Char)
  | comment (chars : List Char)
  | instruction (target body : List Char)

/-- How deep entities may nest. -/
def maxDepth : Nat := 10

/-- How many references inside entities one reference outside may lead to. -/
def maxNested : Nat := 255

def entity? (entities : List Entity) (name : List Char) : Option Entity :=
  entities.find? (·.name == name)

/-- Counts a reference to an entity; only those inside entities are limited. -/
def countReference (nested : Bool) (count : Nat) : Option Nat :=
  if nested then if count < maxNested then some (count + 1) else none else some 0

/-- Tabs and line ends in attribute values become spaces. -/
def attributeChar (c : Char) : Char :=
  if c = '\n' ∨ c = '\r' ∨ c = '\t' then ' ' else c

/-- The value that pieces spell. `enter` gives the value of an entity and the new count of
references, `done` is the value so far, last character first. -/
def attributeFrom (nested : Bool) (enter : List Char → Nat → Option (List Char × Nat))
    (done : List Char) : List Piece → Nat → Option (List Char × Nat)
  | [], count => some (done.reverse, count)
  | .plain c :: rest, count =>
    match c, rest with
    | '\r', .plain '\n' :: _ => attributeFrom nested enter done rest count
    | _, _ => attributeFrom nested enter (attributeChar c :: done) rest count
  | .reference c :: rest, count =>
    if nested then
      if c = '<' then none else attributeFrom nested enter (attributeChar c :: done) rest count
    else attributeFrom nested enter (c :: done) rest count
  | .entity name :: rest, count => do
    let count ← countReference nested count
    let (value, count) ← enter name count
    attributeFrom nested enter (value.reverse ++ done) rest count

/-- The value that a text spells as an attribute value. `depth` tells how many more entities may be
entered, `count` how many references inside entities were met. -/
def attributeValue (entities : List Entity) : Nat → Bool → List Char → Nat →
    Option (List Char × Nat)
  | 0, nested, raw, count => do
    attributeFrom nested (fun _ _ => none) [] (← pieces? raw) count
  | depth + 1, nested, raw, count => do
    let enter (name : List Char) (count : Nat) : Option (List Char × Nat) := do
      attributeValue entities depth true (← entity? entities name).value.rest count
    attributeFrom nested enter [] (← pieces? raw) count

/-- The attributes of a tag with their values spelt out. -/
def expandAttributes (entities : List Entity) (depth : Nat) (nested : Bool) :
    List RawAttribute → Nat → Option (List (TagName × String) × Nat)
  | [], count => some ([], count)
  | a :: as, count => do
    let (value, count) ← attributeValue entities depth nested a.value count
    let (rest, count) ← expandAttributes entities depth nested as count
    return ((a.name, String.ofList value) :: rest, count)

/-- Adds a character to a text, last character first. A carriage return becomes a line feed, and a
line feed behind it is dropped. -/
def pushChar (text : List Char) (c : Char) (last : Bool) : List Char :=
  match text with
  | '\r' :: before =>
    if last && c == '\r' then '\n' :: '\n' :: before
    else if c != '\n' then c :: '\n' :: before
    else '\n' :: before
  | _ => if last && c == '\r' then '\n' :: text else c :: text

/-- Runs of characters and the entities between them. -/
inductive Segment
  | chars (cs : List Char)
  | entity (name : List Char)

def Segment.ofReversed (text : List Char) : List Segment :=
  if text.isEmpty then [] else [.chars text.reverse]

/-- The segments of a text with its line ends normalised. Outside of entities a character that is
referred to stays as it is, and so does the one right behind it. -/
def segments (nested : Bool) (text : List Char) (verbatim : Bool) : List Piece → List Segment
  | [] => Segment.ofReversed text
  | .plain c :: rest =>
    if verbatim then segments nested (c :: text) false rest
    else segments nested (pushChar text c rest.isEmpty) false rest
  | .reference c :: rest =>
    if nested then segments nested (pushChar text c rest.isEmpty) verbatim rest
    else segments nested (c :: text) true rest
  | .entity name :: rest =>
    Segment.ofReversed text ++ .entity name :: segments nested [] false rest

/-- The segments of a raw text. -/
def segments? (nested : Bool) (raw : List Char) : Option (List Segment) :=
  if raw.any fun c => c == '&' || c == '\r' then (pieces? raw).map (segments nested [] false)
  else some (Segment.ofReversed raw.reverse)

/-- Character data with its line ends normalised. -/
def cdataText (raw : List Char) : List Char :=
  if raw.contains '\r' then
    match segments true [] false (raw.map .plain) with
    | [.chars cs] => cs
    | _ => []
  else raw

/-- The first tag among tokens, if there is one, is a start tag. -/
def startsFirst : List Token → Bool
  | [] => true
  | .start _ _ _ _ :: _ => true
  | .stop _ :: _ => false
  | _ :: rest => startsFirst rest

/-- The events of a start tag. -/
def tagEvents (position : Position) (name : TagName) (attributes : List (TagName × String)) :
    TagEnd → List Event
  | .opened => [.start position name attributes]
  | .closed => [.start position name attributes, .stop name]
  | .missing => [.cut name attributes]

/-- Adds the events of segments to the events so far, last one first. -/
def pushSegments (nested : Bool) (enter : List Char → Nat → Option (List Event × Nat))
    (done : List Event) : List Segment → Nat → Option (List Event × Nat)
  | [], count => some (done, count)
  | .chars cs :: rest, count => pushSegments nested enter (.text cs :: done) rest count
  | .entity name :: rest, count => do
    let count ← countReference nested count
    let (events, count) ← enter name count
    pushSegments nested enter (events.reverse ++ done) rest count

/-- The events of tokens. `done` are the events so far, last one first. -/
def eventsFrom (entities : List Entity) (depth : Nat) (nested : Bool)
    (enter : List Char → Nat → Option (List Event × Nat)) (done : List Event) :
    List Token → Nat → Option (List Event × Nat)
  | [], count => some (done.reverse, count)
  | token :: rest, count =>
    match token with
    | .start position name raw ending => do
      let (attributes, count) ← expandAttributes entities depth nested raw count
      let done := (tagEvents position name attributes ending).reverse ++ done
      eventsFrom entities depth nested enter done rest count
    | .stop name => eventsFrom entities depth nested enter (.stop name :: done) rest count
    | .text raw => do
      let (done, count) ← pushSegments nested enter done (← segments? nested raw) count
      eventsFrom entities depth nested enter done rest count
    | .cdata raw =>
      eventsFrom entities depth nested enter (.text (cdataText raw) :: done) rest count
    | .comment cs => eventsFrom entities depth nested enter (.comment cs :: done) rest count
    | .instruction target body =>
      eventsFrom entities depth nested enter (.instruction target body :: done) rest count

/-- The events of tokens with entities spelt out. `depth` tells how many more entities may be
entered, `count` how many references inside entities were met. -/
def expand (entities : List Entity) : Nat → Bool → List Token → Nat → Option (List Event × Nat)
  | 0, nested, tokens, count => eventsFrom entities 0 nested (fun _ _ => none) [] tokens count
  | depth + 1, nested, tokens, count =>
    let enter (name : List Char) (count : Nat) : Option (List Event × Nat) := do
      let (tokens, _) ← (← entity? entities name).value.content?
      if startsFirst tokens then expand entities depth true tokens count else none
    eventsFrom entities (depth + 1) nested enter [] tokens count

end XsdCatalog.Markup
