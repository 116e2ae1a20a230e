import XsdCatalog.Error
import XsdCatalog.Fragment.Declaration
import XsdCatalog.Fragment.Tracker
import XsdCatalog.Text.LineEnding
import XsdCatalog.Text.Utf8

/-!
# Fragments

The fragment at a position is the element whose start tag was complete when the last `<` read
stood there. It is handed out as it is written, with the namespace declarations it inherits and
with normalised line ends. Reading stops where the element ends.
-/

namespace XsdCatalog.Fragment

/-- A piece together with the place of the last `<` read when it was complete. -/
structure Event where
  piece : Piece
  place : Position

/-- How the events of a document end. -/
inductive Ending
  | whole
  | malformed
deriving DecidableEq

/-- The pieces with their places, up to the first end tag that closes nothing or another element
than the innermost. `names` are the names of the open elements, innermost first. -/
def events (tracker : Tracker) (names : List Bytes) (ending : Ending) :
    List Piece → List Event × Ending
  | [] => ([], ending)
  | piece :: rest =>
    let tracker := tracker.consume piece.source
    let go (names : List Bytes) : List Event × Ending :=
      let (es, ending) := events tracker names ending rest
      (⟨piece, tracker.lastTag⟩ :: es, ending)
    match piece with
    | .start body => go (Piece.tagName body :: names)
    | .stop body =>
      match names with
      | name :: outer => if Piece.stopName body = name then go outer else ([], .malformed)
      | [] => ([], .malformed)
    | _ => go names

/-- The events of a document; a leading byte order mark is no part of it. -/
def eventsOf (bytes : Bytes) : List Event × Ending :=
  let (mark, body) :=
    if Tracker.byteOrderMark.isPrefixOf bytes then (bytes.take 3, bytes.drop 3) else ([], bytes)
  let (pieces, whole) := Piece.scan body
  events (Tracker.consume {} mark) [] (if whole then .whole else .malformed) pieces

/-- The pieces up to the end tag that closes `depth` elements; none if it is missing. -/
def subtree? (depth : Nat) : List Event → Option (List Piece)
  | [] => none
  | ⟨piece, _⟩ :: rest =>
    match piece with
    | .start _ => (subtree? (depth + 1) rest).map (piece :: ·)
    | .stop _ => if depth ≤ 1 then some [piece] else (subtree? (depth - 1) rest).map (piece :: ·)
    | _ => (subtree? depth rest).map (piece :: ·)

/-- What the search for a position comes to. -/
inductive Found
  /-- The pieces of the element. -/
  | pieces (ps : List Piece)
  /-- The element is not closed before the events end. -/
  | unclosed
  /-- No start tag is at the position. -/
  | nothing

/-- Looks for the tag at a position. `scopes` are the declarations of the open elements, innermost
first. -/
def seek (target : Position) (scopes : List (List Declaration)) : List Event → Found
  | [] => .nothing
  | ⟨piece, place⟩ :: rest =>
    match piece with
    | .start body =>
      if place = target then
        match subtree? 1 rest with
        | some ps => .pieces (.start (Declaration.withInherited scopes.reverse body) :: ps)
        | none => .unclosed
      else seek target (Declaration.ofTag body :: scopes) rest
    | .empty body =>
      if place = target then
        .pieces [.empty (Declaration.withInherited scopes.reverse body)]
      else seek target scopes rest
    | .stop _ => seek target scopes.tail rest
    | _ => seek target scopes rest

/-- The reason given where markup ends or contradicts itself. -/
def malformedMarkup : String := "malformed markup"

/-- The reason given where an element is still open at the end. -/
def unexpectedEnd : String := "unexpected end of document inside fragment"

/-- The text that pieces are written with. -/
def render (ps : List Piece) : Except Error String :=
  match Text.ofBytes? (ps.flatMap Piece.written) with
  | some text => .ok (Text.normalizeLineEnds text)
  | none => .error (.markup malformedMarkup)

/-- The element whose start tag is at a line and column of a document. -/
def extract (document : String) (line column : Nat) (bytes : Bytes) : Except Error String :=
  if line = 0 ∨ column = 0 then .error .missingPosition
  else
    let (es, ending) := eventsOf bytes
    match seek ⟨line, column⟩ [] es, ending with
    | .pieces ps, _ => render ps
    | .unclosed, .whole => .error (.markup unexpectedEnd)
    | .nothing, .whole => .error (.fragmentNotFound document line column)
    | _, .malformed => .error (.markup malformedMarkup)

end XsdCatalog.Fragment
