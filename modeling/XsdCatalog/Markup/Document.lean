import XsdCatalog.Markup.Prolog
import XsdCatalog.Markup.Tree

/-!
# Documents

A document is a prolog and one root element. Around the root stand spaces, comments and
instructions only.
-/

namespace XsdCatalog.Markup

/-- The root element of a document. -/
structure Document where
  root : Tag
  children : List Node

/-- The root among the nodes of a document. -/
def rootOf? : List Node → Option Document
  | [] => none
  | .element tag children :: _ => some ⟨tag, children⟩
  | _ :: rest => rootOf? rest

/-- Reads a document; none if it is not well formed. -/
def Document.read? (text : String) : Option Document := do
  let (entities, c) ← Cursor.prolog? ⟨text.toList, .start⟩
  let (tokens, c) ← c.element?
  let c ← c.skipMisc?
  if c.rest.isEmpty then
    let (events, _) ← expand entities maxDepth false tokens 0
    rootOf? (← Node.ofEvents? events)
  else none

end XsdCatalog.Markup
