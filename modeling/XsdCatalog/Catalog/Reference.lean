import XsdCatalog.Catalog.Basic

/-!
# References

Components refer to each other by names. The references of a component stand in the order of its
parts, those of a type that stands inside it included. A catalog reports the references that it has
no target for, each once.
-/

namespace XsdCatalog

/-- What a reference refers to. -/
inductive ReferenceKind
  | element
  | type
  | attribute
  | group
deriving DecidableEq, Repr

namespace ReferenceKind

def word : ReferenceKind → String
  | element => "element"
  | type => "type"
  | .attribute => "attribute"
  | group => "group"

end ReferenceKind

structure Reference where
  kind : ReferenceKind
  name : QName

namespace Reference

def key (r : Reference) : ReferenceKind × String :=
  (r.kind, r.name.key)

/-- The reference to a type, if there is one. -/
def types (name : Option QName) : List Reference :=
  name.toList.map (⟨.type, ·⟩)

end Reference

namespace SimpleType

mutual

def references : SimpleType → List Reference
  | ⟨_, _, _, variety⟩ => referencesOfVariety variety

def referencesOfVariety : Variety SimpleType → List Reference
  | .builtin => []
  | .restriction base _ => Reference.types base
  | .list item none => Reference.types item
  | .list item (some t) => Reference.types item ++ references t
  | .union members anonymous => members.map (⟨.type, ·⟩) ++ referencesOfAll anonymous

def referencesOfAll : List SimpleType → List Reference
  | [] => []
  | t :: ts => references t ++ referencesOfAll ts

end

end SimpleType

namespace Attribute

def references (a : Attribute) : List Reference :=
  match a.type with
  | some (.named name) => [⟨.type, name⟩]
  | some (.anonymous t) => t.references
  | none => []

end Attribute

namespace AttributeUse

def references (u : AttributeUse) : List Reference :=
  match u.target with
  | .reference name => [⟨.attribute, name⟩]
  | .declared a => a.references

end AttributeUse

mutual

def Particle.references : Particle → List Reference
  | ⟨term, _, _⟩ => Term.references term

def Term.references : Term Particle → List Reference
  | .element (.reference name _ _) => [⟨.element, name⟩]
  | .element (.declared ⟨_, type, _, _, _, _⟩) => TypeDefinition.referencesOfType type
  | .wildcard _ => []
  | .group name => [⟨.group, name⟩]
  | .model ⟨_, particles⟩ => Particle.referencesOfAll particles

def Particle.referencesOfAll : List Particle → List Reference
  | [] => []
  | p :: ps => Particle.references p ++ Particle.referencesOfAll ps

def TypeDefinition.referencesOfType :
    Option (TypeRef (TypeDefinition Particle)) → List Reference
  | none => []
  | some (.named name) => [⟨.type, name⟩]
  | some (.anonymous (.simple t)) => t.references
  | some (.anonymous (.complex t)) => ComplexType.references t

def ComplexType.references : ComplexType Particle → List Reference
  | ⟨_, _, _, _, _, base, _, none, attributes, _⟩ =>
    Reference.types base ++ attributes.flatMap (·.references)
  | ⟨_, _, _, _, _, base, _, some content, attributes, _⟩ =>
    Reference.types base ++ Particle.references content ++ attributes.flatMap (·.references)

end

namespace Element

def references (e : Element) : List Reference :=
  TypeDefinition.referencesOfType e.type ++ e.substitutionHead.toList.map (⟨.element, ·⟩)

end Element

namespace Document

/-- All references of a document, kind of component after kind. -/
def references (d : Document) : List Reference :=
  d.elements.flatMap (·.references)
    ++ d.complexTypes.flatMap (·.references)
    ++ d.simpleTypes.flatMap (·.references)
    ++ d.attributes.flatMap (·.references)
    ++ d.groups.flatMap (fun g => Particle.referencesOfAll g.content.particles)
    ++ d.attributeGroups.flatMap fun g => g.attributes.flatMap (·.references)

end Document

namespace Catalog

/-- The catalog has a target for a reference. Attributes of the namespace `xml` need none. -/
def resolves (c : Catalog) (r : Reference) : Bool :=
  match r.kind with
  | .element => c.elements.contains r.name.key
  | .type => (c.resolveType r.name).isResolved
  | .attribute => r.name.spaceText == xmlSpace || c.attributes.contains r.name.key
  | .group => c.groups.contains r.name.key

/-- The references without a target, of those with one kind and key the first only. -/
def unresolvedAmong (c : Catalog) (seen : List (ReferenceKind × String)) :
    List Reference → List Reference
  | [] => []
  | r :: rest =>
    if c.resolves r || seen.contains r.key then c.unresolvedAmong seen rest
    else r :: c.unresolvedAmong (r.key :: seen) rest

/-- All references that the catalog has no target for. -/
def unresolved (c : Catalog) : List Reference :=
  c.unresolvedAmong [] (c.documents.flatMap (·.references))

end Catalog

end XsdCatalog
