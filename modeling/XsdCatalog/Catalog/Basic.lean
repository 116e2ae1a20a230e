import XsdCatalog.Catalog.Document

/-!
# Catalogs

A catalog is a row of documents and six registries over all of them. A registry entry is a
component of a document together with its place there.
-/

namespace XsdCatalog

/-- A component and where it stands: which document, and which place in its list there. -/
structure Entry (α : Type) where
  document : Nat
  slot : Nat
  component : α

namespace Entry

variable {α : Type}

/-- Entries are compared by their components, wherever they stand. -/
instance [BEq α] : BEq (Entry α) :=
  ⟨fun e e' => e.component == e'.component⟩

end Entry

structure Catalog where
  documents : List Document := []
  elements : Registry (Entry Element) := {}
  complexTypes : Registry (Entry (ComplexType Particle)) := {}
  simpleTypes : Registry (Entry SimpleType) := {}
  attributes : Registry (Entry Attribute) := {}
  groups : Registry (Entry Group) := {}
  attributeGroups : Registry (Entry AttributeGroup) := {}
  diagnostics : List Diagnostic := []
deriving BEq

namespace Catalog

def hasErrors (c : Catalog) : Bool :=
  c.diagnostics.any (·.severity == .error)

def element? (c : Catalog) (name : QName) : Option Element :=
  (c.elements.get? name.key).map (·.component)

def complexType? (c : Catalog) (name : QName) : Option (ComplexType Particle) :=
  (c.complexTypes.get? name.key).map (·.component)

def simpleType? (c : Catalog) (name : QName) : Option SimpleType :=
  (c.simpleTypes.get? name.key).map (·.component)

def attribute? (c : Catalog) (name : QName) : Option Attribute :=
  (c.attributes.get? name.key).map (·.component)

def group? (c : Catalog) (name : QName) : Option Group :=
  (c.groups.get? name.key).map (·.component)

def attributeGroup? (c : Catalog) (name : QName) : Option AttributeGroup :=
  (c.attributeGroups.get? name.key).map (·.component)

/-- What the name of a type stands for. -/
inductive ResolvedType
  | complex (t : ComplexType Particle)
  | simple (t : SimpleType)
  | builtin (name : QName)
  | unresolved (name : QName)
deriving BEq

namespace ResolvedType

def isResolved : ResolvedType → Bool
  | unresolved _ => false
  | _ => true

end ResolvedType

/-- A complex type goes before a simple one, and both go before a built-in type. -/
def resolveType (c : Catalog) (name : QName) : ResolvedType :=
  match c.complexType? name with
  | some t => .complex t
  | none =>
    match c.simpleType? name with
    | some t => .simple t
    | none => if name.isBuiltin then .builtin name else .unresolved name

/-- What the name of a component of one kind stands for. -/
inductive Resolution (α : Type)
  | found (component : α)
  | unresolved (name : QName)
deriving BEq

namespace Resolution

variable {α : Type}

def isResolved : Resolution α → Bool
  | found _ => true
  | unresolved _ => false

/-- The resolution of a name that was looked up. -/
def ofOption (name : QName) : Option α → Resolution α
  | some component => found component
  | none => unresolved name

end Resolution

def resolveElement (c : Catalog) (name : QName) : Resolution Element :=
  .ofOption name (c.element? name)

def resolveGroup (c : Catalog) (name : QName) : Resolution Group :=
  .ofOption name (c.group? name)

/-- The attributes that the name of an attribute group stands for; an unknown name has none. -/
def expandAttributeGroup (c : Catalog) (name : QName) : List AttributeUse :=
  let finished : Registry AttributeGroup :=
    ⟨c.attributeGroups.entries.map fun p => (p.1, p.2.component)⟩
  (AttributeScope.expandName { finished } [] name).value.uses

end Catalog

end XsdCatalog
