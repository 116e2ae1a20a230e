import XsdCatalog.Catalog.Basic

/-!
# Loading

Written schemas become a catalog. Loading always succeeds: problems are diagnostics of the catalog.
First come those of the schemas themselves, then a warning for each declaration that replaces an
earlier one, then what was noted where declarations were interpreted.

Components are taken up in passes. The first pass interprets the named model groups of all schemas
and gives each attribute group its place, still without attributes. The second pass goes through
the types and attributes of each schema, fills the places of its attribute groups, and ends with
its elements. Attribute groups are filed by their places, which are looked up at the end.
-/

namespace XsdCatalog

/-- The kinds of components that have registries. -/
inductive ComponentKind
  | element
  | complexType
  | simpleType
  | attribute
  | group
  | attributeGroup
deriving DecidableEq, Repr

namespace ComponentKind

def words : ComponentKind → String
  | element => "element"
  | complexType => "complex type"
  | simpleType => "simple type"
  | .attribute => "attribute"
  | group => "group"
  | attributeGroup => "attribute group"

end ComponentKind

/-- A named declaration that takes a place in a registry. -/
structure Registration where
  kind : ComponentKind
  name : QName
  source : Option Location

namespace Registration

def duplicate (r : Registration) : Diagnostic :=
  .warning ("duplicate global " ++ r.kind.words ++ " " ++ r.name.display
    ++ ": later declaration replaces the earlier one") r.source

end Registration

namespace Written

namespace Item

def groupRegistration? : Item → Option Registration
  | group g => some ⟨.group, g.name, g.source⟩
  | attributeGroup g => some ⟨.attributeGroup, g.name, g.source⟩
  | _ => none

def typeRegistration? : Item → Option Registration
  | simpleType t => t.name.map (⟨.simpleType, ·, t.source⟩)
  | complexType t => t.name.map (⟨.complexType, ·, t.source⟩)
  | .attribute a => a.name.map (⟨.attribute, ·, a.source⟩)
  | _ => none

def elementRegistration? : Item → Option Registration
  | element e => e.name.map (⟨.element, ·, e.source⟩)
  | _ => none

end Item

/-- An attribute group that is not filled yet. -/
def AttributeGroup.unfilled (g : AttributeGroup) : XsdCatalog.AttributeGroup where
  name := g.name
  wildcard := g.attributes.wildcard.map Wildcard.interpret
  documentation := Documentation.join g.documentation
  source := g.source

end Written

/-- The components of one kind: a list for each document, and the registry of those with names. -/
structure Shelf (α : Type) where
  lists : List (List α) := []
  registry : Registry (Entry α) := {}

/-- Puts a component behind the others of its document and files it under its name. -/
def Shelf.put {α : Type} (document : Nat) (name : Option QName) (shelf : Shelf α) (a : α) :
    Shelf α :=
  let slot := (shelf.lists[document]?.getD []).length
  { lists := shelf.lists.modify document (· ++ [a])
    registry := match name with
      | some n => shelf.registry.insert n.key { document, slot, component := a }
      | none => shelf.registry }

structure Catalog.LoadOptions where
  /-- Warn where a declaration replaces an earlier one. -/
  reportDuplicates : Bool := true

/-- What is taken up so far. Warnings and notes stand last one first. -/
structure Builder where
  elements : Shelf Element := {}
  complexTypes : Shelf (ComplexType Particle) := {}
  simpleTypes : Shelf SimpleType := {}
  attributes : Shelf Attribute := {}
  groups : Shelf Group := {}
  attributeGroups : List (List AttributeGroup) := []
  /-- The document and the slot of each attribute group. -/
  places : Registry (Nat × Nat) := {}
  warnings : List Diagnostic := []
  notes : List Diagnostic := []

namespace Builder

open Catalog (LoadOptions)

/-- The builder of a catalog with a number of documents. -/
def start (documents : Nat) : Builder :=
  let lists {α : Type} : List (List α) := List.replicate documents []
  { elements := { lists }, complexTypes := { lists }, simpleTypes := { lists }
    attributes := { lists }, groups := { lists }, attributeGroups := lists }

/-- A component of this kind is filed under this key. -/
def holds (b : Builder) (kind : ComponentKind) (key : String) : Bool :=
  match kind with
  | .element => b.elements.registry.contains key
  | .complexType => b.complexTypes.registry.contains key
  | .simpleType => b.simpleTypes.registry.contains key
  | .attribute => b.attributes.registry.contains key
  | .group => b.groups.registry.contains key
  | .attributeGroup => b.places.contains key

/-- The warnings with another one if a registration replaces an earlier one. -/
def warned (b : Builder) (options : LoadOptions) (r : Option Registration) : List Diagnostic :=
  match r with
  | some r =>
    if b.holds r.kind r.name.key && options.reportDuplicates then r.duplicate :: b.warnings
    else b.warnings
  | none => b.warnings

section Steps

variable (scope : AttributeScope) (options : LoadOptions) (document : Nat)

/-- Takes up a group, or gives an attribute group its place. -/
def addGroup (b : Builder) (item : Written.Item) : Builder :=
  let warnings := b.warned options item.groupRegistration?
  match item with
  | .group g =>
    let content := g.interpret scope
    { b with
      groups := b.groups.put document (some g.name) content.value
      warnings
      notes := content.notes.reverse ++ b.notes }
  | .attributeGroup g =>
    let slot := (b.attributeGroups[document]?.getD []).length
    { b with
      attributeGroups := b.attributeGroups.modify document (· ++ [g.unfilled])
      places := b.places.insert g.name.key (document, slot)
      warnings }
  | _ => b

/-- Takes up a type or an attribute. -/
def addType (b : Builder) (item : Written.Item) : Builder :=
  let warnings := b.warned options item.typeRegistration?
  match item with
  | .simpleType t =>
    let type := t.interpret
    { b with
      simpleTypes := b.simpleTypes.put document t.name type.value
      warnings
      notes := type.notes.reverse ++ b.notes }
  | .complexType t =>
    let type := t.interpret scope
    { b with
      complexTypes := b.complexTypes.put document t.name type.value
      warnings
      notes := type.notes.reverse ++ b.notes }
  | .attribute a =>
    match a.name with
    | some name =>
      let declared := a.interpretAs name
      { b with
        attributes := b.attributes.put document (some name) declared.value
        warnings
        notes := declared.notes.reverse ++ b.notes }
    | none => b
  | _ => b

/-- Fills the place of an attribute group. -/
def fillGroup (b : Builder) (place : Written.AttributeGroup × Nat) : Builder :=
  let uses := place.1.expand scope
  { b with
    attributeGroups := b.attributeGroups.modify document fun groups =>
      groups.modify place.2 fun g => { g with attributes := uses.value }
    notes := uses.notes.reverse ++ b.notes }

/-- Takes up an element. -/
def addElement (b : Builder) (item : Written.Item) : Builder :=
  let warnings := b.warned options item.elementRegistration?
  match item with
  | .element e =>
    match e.name with
    | some name =>
      let declared := e.interpretAs scope name
      { b with
        elements := b.elements.put document (some name) declared.value
        warnings
        notes := declared.notes.reverse ++ b.notes }
    | none => b
  | _ => b

end Steps

/-- The first pass over a schema. -/
def addGroups (scope : AttributeScope) (options : LoadOptions) (b : Builder)
    (s : Written.Schema × Nat) : Builder :=
  s.1.items.foldl (addGroup scope options s.2) b

/-- The second pass over a schema. -/
def addOthers (scope : AttributeScope) (options : LoadOptions) (b : Builder)
    (s : Written.Schema × Nat) : Builder :=
  let b := s.1.items.foldl (addType scope options s.2) b
  let b := s.1.attributeGroups.zipIdx.foldl (fillGroup scope s.2) b
  s.1.items.foldl (addElement scope options s.2) b

/-- Both passes over all schemas. -/
def addSchemas (scope : AttributeScope) (options : LoadOptions) (schemas : List Written.Schema) :
    Builder :=
  let b := schemas.zipIdx.foldl (addGroups scope options) (start schemas.length)
  schemas.zipIdx.foldl (addOthers scope options) b

/-- The document of a schema with what is taken up for it. -/
def document (b : Builder) (s : Written.Schema × Nat) : Document :=
  { Document.header s.1 with
    elements := b.elements.lists[s.2]?.getD []
    complexTypes := b.complexTypes.lists[s.2]?.getD []
    simpleTypes := b.simpleTypes.lists[s.2]?.getD []
    attributes := b.attributes.lists[s.2]?.getD []
    groups := b.groups.lists[s.2]?.getD []
    attributeGroups := b.attributeGroups[s.2]?.getD [] }

/-- The attribute group at a place among documents. -/
def atPlace (documents : List Document) (place : Nat × Nat) : Option (Entry AttributeGroup) := do
  let d ← documents[place.1]?
  let component ← d.attributeGroups[place.2]?
  return { document := place.1, slot := place.2, component }

/-- The catalog of the schemas that are taken up. -/
def finish (b : Builder) (schemas : List Written.Schema) : Catalog :=
  let documents := schemas.zipIdx.map b.document
  { documents
    elements := b.elements.registry
    complexTypes := b.complexTypes.registry
    simpleTypes := b.simpleTypes.registry
    attributes := b.attributes.registry
    groups := b.groups.registry
    attributeGroups :=
      ⟨b.places.entries.filterMap fun p => (atPlace documents p.2).map (p.1, ·)⟩
    diagnostics := schemas.flatMap (·.diagnostics) ++ b.warnings.reverse ++ b.notes.reverse }

end Builder

/-- The catalog of written schemas. -/
def Catalog.load (schemas : List Written.Schema) (options : Catalog.LoadOptions := {}) : Catalog :=
  (Builder.addSchemas (.ofSchemas schemas) options schemas).finish schemas

end XsdCatalog
