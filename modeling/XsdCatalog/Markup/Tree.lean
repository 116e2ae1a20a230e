import XsdCatalog.Markup.Expansion
import XsdCatalog.QName

/-!
# Element trees

Events become a tree of elements, texts, comments and instructions. Qualifiers are replaced by
the namespaces that they are bound to, and each element keeps the bindings in force at it. Tags
must match, no attribute may stand twice, and the names `xml` and `xmlns` keep their meaning.
-/

namespace XsdCatalog.Markup

/-- The namespace that nothing may be bound to. -/
def xmlnsSpace : String := "http://www.w3.org/2000/xmlns/"

/-- A qualifier and the namespace that it is bound to; the empty one is for unqualified names. -/
structure Binding where
  qualifier : String
  space : String
deriving DecidableEq, Repr

/-- An attribute by its expanded name. -/
structure Attribute where
  space : Option String
  localName : String
  value : String
deriving DecidableEq, Repr

/-- What the start tag of an element says. -/
structure Tag where
  position : Position
  space : Option String
  localName : String
  attributes : List Attribute
  /-- The bindings in force, those of the element itself first. -/
  bindings : List Binding
deriving DecidableEq, Repr

inductive Node
  | element (tag : Tag) (children : List Node)
  | text (content : String)
  | comment (content : String)
  | instruction (target content : String)
deriving Repr

namespace Tag

/-- The value of an attribute that has no namespace. -/
def attribute? (tag : Tag) (name : String) : Option String :=
  (tag.attributes.find? fun a => a.space.isNone && a.localName == name).map (·.value)

/-- The namespace that a qualifier is bound to. -/
def lookup? (bindings : List Binding) (qualifier : String) : Option String :=
  (bindings.find? (·.qualifier == qualifier)).map (·.space)

/-- The bindings that the attributes of a tag declare, and the attributes left. An attribute with
the local name `xmlns` binds unqualified names; of two of these the first one counts. -/
def declare (own : List Binding) :
    List (TagName × String) → Option (List Binding × List (TagName × String))
  | [] => some (own, [])
  | (name, value) :: rest =>
    if name.qualifier = "xmlns" then
      if value = xmlnsSpace then none
      else if name.localName = "xml" then if value = xmlSpace then declare own rest else none
      else if value = xmlSpace || own.any (·.qualifier == name.localName) then none
      else declare (own ++ [⟨name.localName, value⟩]) rest
    else if name.localName = "xmlns" then
      if value = xmlSpace || value = xmlnsSpace then none
      else declare (own ++ [⟨"", value⟩]) rest
    else (declare own rest).map fun (own, others) => (own, (name, value) :: others)

/-- The bindings in force inside an element that declares some of its own. -/
def inForce (own outer : List Binding) : List Binding :=
  own ++ outer.filter fun b => !own.any (·.qualifier == b.qualifier)

/-- An attribute with its namespace; one without qualifier has none. -/
def resolveAttribute (bindings : List Binding) (name : TagName) (value : String) :
    Option Attribute :=
  if name.qualifier = "" then some ⟨none, name.localName, value⟩
  else if name.qualifier = "xml" then some ⟨some xmlSpace, name.localName, value⟩
  else (lookup? bindings name.qualifier).map fun space => ⟨some space, name.localName, value⟩

/-- The attributes with their namespaces, each with another expanded name. `done` are those before,
last one first. -/
def resolveAttributes (bindings : List Binding) (done : List Attribute) :
    List (TagName × String) → Option (List Attribute)
  | [] => some done.reverse
  | (name, value) :: rest => do
    let a ← resolveAttribute bindings name value
    if done.any fun b => b.space == a.space && b.localName == a.localName then none
    else resolveAttributes bindings (a :: done) rest

/-- What the attributes of a tag inside elements with the bindings `outer` say: the bindings in
force, and the attributes that declare none. -/
def scope? (outer : List Binding) (attributes : List (TagName × String)) :
    Option (List Binding × List Attribute) := do
  let (own, others) ← declare [] attributes
  let bindings := inForce own outer
  return (bindings, ← resolveAttributes bindings [] others)

/-- A start tag seen from inside elements with the bindings `outer`. -/
def make? (outer : List Binding) (position : Position) (name : TagName)
    (attributes : List (TagName × String)) : Option Tag :=
  if name.qualifier = "xmlns" then none
  else do
    let (bindings, attributes) ← scope? outer attributes
    let space ← if name.qualifier = "" then some (lookup? bindings "")
      else (lookup? bindings name.qualifier).map some
    return ⟨position, space, name.localName, attributes, bindings⟩

end Tag

/-- An element whose end tag was not met yet. Its children stand last one first. -/
structure OpenElement where
  name : TagName
  tag : Tag
  children : List Node

/-- The open elements, innermost first, the nodes outside of every element, last one first, and the
attributes of tags without an end, which belong to the next tag. -/
structure Builder where
  opened : List OpenElement := []
  nodes : List Node := []
  pending : List (TagName × String) := []

namespace Builder

/-- Adds a node behind others; texts next to each other are one text. -/
def addNode (nodes : List Node) (node : Node) : List Node :=
  match node, nodes with
  | .text s, .text before :: rest => .text (before ++ s) :: rest
  | .text "", _ => nodes
  | _, _ => node :: nodes

def add (b : Builder) (node : Node) : Builder :=
  match b.opened with
  | [] => { b with nodes := addNode b.nodes node }
  | e :: outer => { b with opened := { e with children := addNode e.children node } :: outer }

def step (b : Builder) : Event → Option Builder
  | .start position name attributes => do
    let outer := match b.opened with
      | [] => []
      | e :: _ => e.tag.bindings
    let tag ← Tag.make? outer position name (b.pending ++ attributes)
    return { b with opened := ⟨name, tag, []⟩ :: b.opened, pending := [] }
  | .cut name attributes =>
    let pending := b.pending ++ attributes
    if name.qualifier = "xmlns" ∨ (Tag.declare [] pending).isNone then none
    else some { b with pending }
  | .stop name =>
    match b.opened with
    | [] => none
    | e :: outer =>
      if e.name = name ∧ (Tag.scope? e.tag.bindings b.pending).isSome then
        some ({ b with opened := outer, pending := [] }.add (.element e.tag e.children.reverse))
      else none
  | .text cs => some (b.add (.text (String.ofList cs)))
  | .comment cs => some (b.add (.comment (String.ofList cs)))
  | .instruction target body =>
    some (b.add (.instruction (String.ofList target) (String.ofList body)))

def run (b : Builder) : List Event → Option Builder
  | [] => some b
  | e :: rest => do (← b.step e).run rest

end Builder

/-- The nodes that events say; every element is closed. -/
def Node.ofEvents? (events : List Event) : Option (List Node) := do
  let b ← Builder.run {} events
  if b.opened.isEmpty then some b.nodes.reverse else none

end XsdCatalog.Markup
