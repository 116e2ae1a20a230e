import XsdCatalog.Noted
import XsdCatalog.SchemaElement
import XsdCatalog.Written.Schema

/-!
# Reading declarations

Schema elements become declarations. A construct that cannot be read is left out and noted; every
declaration gets the place of its start tag. Names in attribute values are expanded with the
bindings in force at the element that carries the attribute.
-/

namespace XsdCatalog.Written

/-- What the root of a schema says about all its declarations. -/
structure Context where
  document : Option String
  targetSpace : String
  elementsQualified : Bool
  attributesQualified : Bool

namespace Context

def location (ctx : Context) (e : SchemaElement) : Location :=
  ⟨ctx.document, e.tag.position⟩

def warning (ctx : Context) (e : SchemaElement) (message : String) : Diagnostic :=
  .warning message (some (ctx.location e))

def error (ctx : Context) (e : SchemaElement) (message : String) : Diagnostic :=
  .error message (some (ctx.location e))

/-- Expands a name written in an attribute of an element. An unbound qualifier is an error and
leaves a name without namespace; unqualified names are in the default namespace. -/
def resolve (ctx : Context) (e : SchemaElement) (text : String) : Noted QName :=
  let text := Text.trim text
  let bindings := e.tag.bindings
  match Text.cut? ':' text with
  | some (qualifier, localName) =>
    if qualifier = "xml" then pure ((QName.inSpace xmlSpace localName).withQualifier qualifier)
    else
      match if qualifier = "" then none else Markup.Tag.lookup? bindings qualifier with
      | some space => pure ((QName.inSpace space localName).withQualifier qualifier)
      | none => do
        Noted.note (ctx.error e ("Unknown prefix '" ++ qualifier ++ "' in '" ++ text ++ "'"))
        return (QName.unbound localName).withQualifier qualifier
  | none => pure (QName.inSpace ((Markup.Tag.lookup? bindings "").getD "") text)

/-- The name in an attribute of an element, if the attribute is there. -/
def resolveAttribute (ctx : Context) (e : SchemaElement) (name : String) :
    Noted (Option QName) :=
  match e.attribute? name with
  | some text => some <$> ctx.resolve e text
  | none => pure none

def resolveAll (ctx : Context) (e : SchemaElement) : List String → Noted (List QName)
  | [] => pure []
  | text :: rest => do
    let name ← ctx.resolve e text
    let names ← ctx.resolveAll e rest
    return name :: names

/-- The name of a local declaration. It is in the target namespace if its form is qualified. -/
def localName (ctx : Context) (e : SchemaElement) (qualified : Bool) : Option QName :=
  (e.attribute? "name").map fun name =>
    let inTarget := match e.attribute? "form" with
      | some "qualified" => true
      | some "unqualified" => false
      | _ => qualified
    QName.inSpace (if inTarget then ctx.targetSpace else "") name

end Context

/-- An attribute that says yes. -/
def isTrue (e : SchemaElement) (name : String) : Bool :=
  match (e.attribute? name).map Text.trim with
  | some "true" => true
  | some "1" => true
  | _ => false

def readFacet (ctx : Context) (e : SchemaElement) : Facet where
  kind := e.kind
  value := e.attribute? "value"
  fixed := isTrue e "fixed"
  source := ctx.location e

/-- The facets of a restriction: all its children except annotations and anonymous types. -/
def readFacets (ctx : Context) (children : List SchemaElement) : List Facet :=
  (children.filter fun e => e.kind != "annotation" && e.kind != "simpleType").map (readFacet ctx)

mutual

def readSimpleType (ctx : Context) (name : Option QName) : SchemaElement → Noted SimpleType
  | ⟨tag, text, children⟩ => do
    let e : SchemaElement := ⟨tag, text, children⟩
    let variety ← readVariety ctx .unstated children
    return { name, documentation := e.documentation, source := ctx.location e, variety }

/-- The last restriction, list or union among children. All of them are read. -/
def readVariety (ctx : Context) (before : Variety SimpleType) :
    List SchemaElement → Noted (Variety SimpleType)
  | [] => pure before
  | ⟨tag, text, children⟩ :: rest =>
    let e : SchemaElement := ⟨tag, text, children⟩
    match e.kind with
    | "restriction" => do
      let base ← ctx.resolveAttribute e "base"
      readVariety ctx (.restriction base (readFacets ctx children)) rest
    | "list" => do
      let item ← ctx.resolveAttribute e "itemType"
      let anonymous ← readFirstSimple ctx children
      readVariety ctx (.list item anonymous) rest
    | "union" => do
      let members ← ctx.resolveAll e (Text.words ((e.attribute? "memberTypes").getD ""))
      let anonymous ← readSimpleTypes ctx children
      readVariety ctx (.union members anonymous) rest
    | _ => readVariety ctx before rest

/-- The first anonymous simple type among children. -/
def readFirstSimple (ctx : Context) : List SchemaElement → Noted (Option SimpleType)
  | [] => pure none
  | e :: rest =>
    if e.kind = "simpleType" then some <$> readSimpleType ctx none e
    else readFirstSimple ctx rest

/-- All anonymous simple types among children. -/
def readSimpleTypes (ctx : Context) : List SchemaElement → Noted (List SimpleType)
  | [] => pure []
  | e :: rest =>
    if e.kind = "simpleType" then do
      let t ← readSimpleType ctx none e
      let ts ← readSimpleTypes ctx rest
      return t :: ts
    else readSimpleTypes ctx rest

end

/-- The usage that an attribute states; a wrong word is noted and means optional. -/
def readUsage (ctx : Context) (e : SchemaElement) : Noted AttributeUsage :=
  match e.attribute? "use" with
  | none => pure .optional
  | some word =>
    match AttributeUsage.ofWord? word with
    | some usage => pure usage
    | none => do
      Noted.note (ctx.warning e ("Invalid use value '" ++ word ++ "', using optional"))
      return .optional

def readAttribute (ctx : Context) (name : Option QName) (e : SchemaElement) : Noted Attribute := do
  let usage ← readUsage ctx e
  let reference ← ctx.resolveAttribute e "ref"
  let typeName ← ctx.resolveAttribute e "type"
  let anonymous ← readFirstSimple ctx e.children
  return {
    name := name.or (ctx.localName e ctx.attributesQualified)
    reference, typeName, anonymous, usage
    defaultValue := e.attribute? "default"
    fixedValue := e.attribute? "fixed"
    documentation := e.documentation
    source := ctx.location e }

/-- A wildcard; a wrong word for its strictness is noted and left out. -/
def readWildcard (ctx : Context) (e : SchemaElement) : Noted Wildcard := do
  let word := e.attribute? "processContents"
  let process := word.bind ProcessContents.ofWord?
  Noted.noteIf (word.isSome && process.isNone)
    (ctx.warning e ("Invalid processContents value: " ++ word.getD ""))
  return { constraint := e.attribute? "namespace", process, source := ctx.location e }

/-- Adds what a child contributes to a list of attributes. Of several wildcards the last counts. -/
def readAttributeItem (ctx : Context) (list : AttributeList) (e : SchemaElement) :
    Noted AttributeList :=
  match e.kind with
  | "attribute" => do
    let a ← readAttribute ctx none e
    return { list with items := list.items ++ [.attribute a] }
  | "attributeGroup" => do
    match ← ctx.resolveAttribute e "ref" with
    | some name => return { list with items := list.items ++ [.group name] }
    | none =>
      Noted.note (ctx.warning e "xs:attributeGroup without ref ignored")
      return list
  | "anyAttribute" => do
    let w ← readWildcard ctx e
    return { list with wildcard := some w }
  | _ => pure list

def readAttributeItems (ctx : Context) (list : AttributeList) :
    List SchemaElement → Noted AttributeList
  | [] => pure list
  | e :: rest => do
    let list ← readAttributeItem ctx list e
    readAttributeItems ctx list rest

def readAttributeGroup (ctx : Context) (name : QName) (e : SchemaElement) :
    Noted AttributeGroup := do
  let attributes ← readAttributeItems ctx {} e.children
  return { name, attributes, documentation := e.documentation, source := ctx.location e }

/-- An element declaration, given how its anonymous type is read. -/
def elementOf (ctx : Context) (globalName : Option QName) (e : SchemaElement)
    (readType : Noted (Option (TypeDefinition Particle))) : Noted (Element Particle) := do
  let name := globalName.or (ctx.localName e ctx.elementsQualified)
  let reference ← ctx.resolveAttribute e "ref"
  Noted.noteIf (name.isNone && reference.isNone)
    (ctx.warning e "xs:element without name or ref")
  let typeName ← ctx.resolveAttribute e "type"
  let anonymous ← readType
  let substitutionHead ← ctx.resolveAttribute e "substitutionGroup"
  return {
    name, reference, typeName, anonymous, substitutionHead
    isAbstract := isTrue e "abstract"
    nillable := isTrue e "nillable"
    defaultValue := e.attribute? "default"
    fixedValue := e.attribute? "fixed"
    documentation := e.documentation
    source := ctx.location e }

/-- What the children of a complex type have said so far. -/
structure ComplexBody where
  mixed : Bool
  derived : Option (ComplexContent Particle) := none
  particle : Option Particle := none
  attributes : AttributeList := {}

/-- A complex type, given what its children say. -/
def complexTypeOf (ctx : Context) (name : Option QName) (e : SchemaElement)
    (body : ComplexBody) : ComplexType Particle where
  name
  documentation := e.documentation
  source := ctx.location e
  isAbstract := isTrue e "abstract"
  mixed := body.mixed
  content := body.derived.getD (.direct body.particle body.attributes)

/-- A particle with a term, given its element. -/
def particleOf (ctx : Context) (e : SchemaElement) (term : Term Particle) : Particle where
  min := e.attribute? "minOccurs"
  max := e.attribute? "maxOccurs"
  term
  source := ctx.location e

/-- A model group or a reference to a named one. -/
def isModel (kind : String) : Bool :=
  kind == "sequence" || kind == "choice" || kind == "all" || kind == "group"

/-- Something that belongs to a list of attributes. -/
def isAttributeItem (kind : String) : Bool :=
  kind == "attribute" || kind == "attributeGroup" || kind == "anyAttribute"

mutual

/-- The first anonymous type among children. -/
def readFirstType (ctx : Context) :
    List SchemaElement → Noted (Option (TypeDefinition Particle))
  | [] => pure none
  | ⟨tag, text, children⟩ :: rest =>
    let e : SchemaElement := ⟨tag, text, children⟩
    if e.kind = "simpleType" then do
      let t ← readSimpleType ctx none e
      return some (.simple t)
    else if e.kind = "complexType" then do
      let body ← readComplexBody ctx { mixed := isTrue e "mixed" } children
      return some (.complex (complexTypeOf ctx none e body))
    else readFirstType ctx rest

/-- What the children of a complex type say. A later particle or derivation takes the place of an
earlier one, also when it cannot be read. -/
def readComplexBody (ctx : Context) (body : ComplexBody) :
    List SchemaElement → Noted ComplexBody
  | [] => pure body
  | ⟨tag, text, children⟩ :: rest =>
    let e : SchemaElement := ⟨tag, text, children⟩
    if e.kind = "simpleContent" then do
      let d ← readDerivation ctx e false children
      readComplexBody ctx { body with derived := d.map .simple } rest
    else if e.kind = "complexContent" then do
      let d ← readDerivation ctx e true children
      readComplexBody ctx
        { body with mixed := body.mixed || isTrue e "mixed", derived := d.map .complex } rest
    else if isModel e.kind then do
      let particle ← readParticle ctx e
      readComplexBody ctx { body with particle } rest
    else if isAttributeItem e.kind then do
      let attributes ← readAttributeItem ctx body.attributes e
      readComplexBody ctx { body with attributes } rest
    else readComplexBody ctx body rest

/-- The first extension or restriction among the children of `owner`; it is noted if there is
none. -/
def readDerivation (ctx : Context) (owner : SchemaElement) (withParticle : Bool) :
    List SchemaElement → Noted (Option (Derivation Particle))
  | [] => do
    Noted.note (ctx.warning owner ("xs:" ++ owner.kind ++ " without extension or restriction"))
    return none
  | ⟨tag, text, children⟩ :: rest =>
    let e : SchemaElement := ⟨tag, text, children⟩
    if e.kind = "extension" ∨ e.kind = "restriction" then do
      let method := if e.kind = "extension" then DerivationMethod.byExtension else .byRestriction
      let base ← ctx.resolveAttribute e "base"
      let d ← readDerived ctx withParticle { method, base } children
      return some d
    else readDerivation ctx owner withParticle rest

/-- What the children of an extension or restriction say. -/
def readDerived (ctx : Context) (withParticle : Bool) (d : Derivation Particle) :
    List SchemaElement → Noted (Derivation Particle)
  | [] => pure d
  | e :: rest =>
    if withParticle && isModel e.kind then do
      let particle ← readParticle ctx e
      readDerived ctx withParticle { d with particle } rest
    else if isAttributeItem e.kind then do
      let attributes ← readAttributeItem ctx d.attributes e
      readDerived ctx withParticle { d with attributes } rest
    else readDerived ctx withParticle d rest

/-- The particle that an element is, if it is one. -/
def readParticle (ctx : Context) : SchemaElement → Noted (Option Particle)
  | ⟨tag, text, children⟩ =>
    let e : SchemaElement := ⟨tag, text, children⟩
    match e.kind with
    | "element" => do
      let d ← elementOf ctx none e (readFirstType ctx children)
      return some (particleOf ctx e (.element d))
    | "any" => do
      let w ← readWildcard ctx e
      return some (particleOf ctx e (.wildcard w))
    | "group" => do
      match ← ctx.resolveAttribute e "ref" with
      | some name => return some (particleOf ctx e (.group name))
      | none =>
        Noted.note (ctx.warning e "xs:group without ref ignored")
        return none
    | "sequence" => do
      let ps ← readParticles ctx children
      return some (particleOf ctx e (.model .sequence ps))
    | "choice" => do
      let ps ← readParticles ctx children
      return some (particleOf ctx e (.model .choice ps))
    | "all" => do
      let ps ← readParticles ctx children
      return some (particleOf ctx e (.model .all ps))
    | _ => pure none

/-- The particles among children. -/
def readParticles (ctx : Context) : List SchemaElement → Noted (List Particle)
  | [] => pure []
  | e :: rest => do
    let p ← readParticle ctx e
    let ps ← readParticles ctx rest
    return p.toList ++ ps

end

def readElement (ctx : Context) (name : Option QName) (e : SchemaElement) :
    Noted (Element Particle) :=
  elementOf ctx name e (readFirstType ctx e.children)

def readComplexType (ctx : Context) (name : Option QName) (e : SchemaElement) :
    Noted (ComplexType Particle) :=
  complexTypeOf ctx name e <$> readComplexBody ctx { mixed := isTrue e "mixed" } e.children

/-- The first model group among children. -/
def readFirstModel (ctx : Context) : List SchemaElement → Noted (Option Particle)
  | [] => pure none
  | e :: rest =>
    if e.kind = "sequence" ∨ e.kind = "choice" ∨ e.kind = "all" then readParticle ctx e
    else readFirstModel ctx rest

def readGroup (ctx : Context) (name : QName) (e : SchemaElement) : Noted Group := do
  let particle ← readFirstModel ctx e.children
  return { name, particle, documentation := e.documentation, source := ctx.location e }

/-- A kind of global component. -/
def isGlobal (kind : String) : Bool :=
  kind == "element" || kind == "simpleType" || kind == "complexType" || kind == "attribute"
    || kind == "group" || kind == "attributeGroup"

/-- A global component with its name. -/
def readNamed (ctx : Context) (name : QName) (e : SchemaElement) : Noted Item :=
  match e.kind with
  | "element" => .element <$> readElement ctx (some name) e
  | "simpleType" => .simpleType <$> readSimpleType ctx (some name) e
  | "complexType" => .complexType <$> readComplexType ctx (some name) e
  | "attribute" => .attribute <$> readAttribute ctx (some name) e
  | "group" => .group <$> readGroup ctx name e
  | _ => .attributeGroup <$> readAttributeGroup ctx name e

/-- The item that an element at the top of a schema or in a redefinition is. What gives none is
noted, except annotations and notations. -/
def readItem (ctx : Context) (e : SchemaElement) : Noted (Option Item) :=
  if e.kind = "annotation" ∨ e.kind = "notation" then pure none
  else if isGlobal e.kind then
    match e.attribute? "name" with
    | some name => some <$> readNamed ctx (QName.inSpace ctx.targetSpace name) e
    | none => do
      Noted.note (ctx.error e ("Global xs:" ++ e.kind ++ " missing name"))
      return none
  else do
    Noted.note (ctx.warning e ("Unsupported top-level xs:" ++ e.kind ++ " ignored"))
    return none

def readItems (ctx : Context) : List SchemaElement → Noted (List Item)
  | [] => pure []
  | e :: rest => do
    let item ← readItem ctx e
    let items ← readItems ctx rest
    return item.toList ++ items

/-- The reference to another document that a child of the root is. -/
def reference? (e : SchemaElement) : Option Reference :=
  match e.kind with
  | "include" => some (.inclusion (e.attribute? "schemaLocation"))
  | "import" => some (.importing (e.attribute? "namespace") (e.attribute? "schemaLocation"))
  | "redefine" => some (.redefinition (e.attribute? "schemaLocation"))
  | _ => none

/-- The elements that may be items: the children of the root that are no references, and those of
its redefinitions. -/
def candidates (children : List SchemaElement) : List SchemaElement :=
  children.flatMap fun e =>
    match reference? e with
    | some (.redefinition _) => e.children
    | some _ => []
    | none => [e]

def contextOf (document : Option String) (root : SchemaElement) : Context where
  document
  targetSpace := (root.attribute? "targetNamespace").getD ""
  elementsQualified := root.attribute? "elementFormDefault" == some "qualified"
  attributesQualified := root.attribute? "attributeFormDefault" == some "qualified"

/-- The schema that a root element says. -/
def readSchema (document : Option String) (root : SchemaElement) : Schema :=
  let ctx := contextOf document root
  let items := readItems ctx (candidates root.children)
  { document
    targetSpace := some ctx.targetSpace |>.filter (· != "")
    version := root.attribute? "version"
    bindings := root.tag.bindings.map fun b => (b.qualifier, b.space)
    references := root.children.filterMap reference?
    items := items.value
    diagnostics := items.notes }

end XsdCatalog.Written
