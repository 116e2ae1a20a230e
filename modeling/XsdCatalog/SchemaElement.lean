import XsdCatalog.Markup.Tree

/-!
# Elements of the schema vocabulary

What a schema says is in its elements from the schema namespace. All other elements are left out
with everything in them, and so are comments, instructions and texts; only documentation keeps its
text.
-/

namespace XsdCatalog

/-- An element from the schema namespace with its children from there. -/
structure SchemaElement where
  tag : Markup.Tag
  /-- The text in a documentation element; empty for all others. -/
  text : String
  children : List SchemaElement

namespace SchemaElement

mutual

/-- The texts in a node, in their order. -/
def textsOf : Markup.Node → List String
  | .element _ children => textsOfAll children
  | .text s => [s]
  | .comment _ => []
  | .instruction _ _ => []

/-- The texts in a row of nodes, in their order. -/
def textsOfAll : List Markup.Node → List String
  | [] => []
  | n :: ns => textsOf n ++ textsOfAll ns

end

/-- The text that an element keeps. -/
def keptText (tag : Markup.Tag) (children : List Markup.Node) : String :=
  if tag.localName = "documentation" then String.join (textsOfAll children) else ""

mutual

/-- The element that a node is, if it is from the schema namespace. -/
def ofNode? : Markup.Node → Option SchemaElement
  | .element tag children =>
    if tag.space = some schemaSpace then some ⟨tag, keptText tag children, ofNodes children⟩
    else none
  | .text _ => none
  | .comment _ => none
  | .instruction _ _ => none

/-- The elements from the schema namespace among nodes. -/
def ofNodes : List Markup.Node → List SchemaElement
  | [] => []
  | n :: ns => (ofNode? n).toList ++ ofNodes ns

end

/-- The local name, which tells what kind of component an element is. -/
def kind (e : SchemaElement) : String :=
  e.tag.localName

def attribute? (e : SchemaElement) (name : String) : Option String :=
  e.tag.attribute? name

/-- The texts of the documentation elements in the annotations of an element. -/
def documentation (e : SchemaElement) : List String :=
  (e.children.filter (·.kind == "annotation")).flatMap fun a =>
    (a.children.filter (·.kind == "documentation")).map (·.text)

end SchemaElement

end XsdCatalog
