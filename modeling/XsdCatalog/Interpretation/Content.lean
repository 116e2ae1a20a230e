import XsdCatalog.Component.Declaration
import XsdCatalog.Interpretation.AttributeGroup
import XsdCatalog.Text.Numeral

/-!
# What content models, complex types and elements mean

Bounds of occurrence are read as numbers; one that is none counts as 1, and that is noted. A model
group without particles is no content. References to elements and groups stay references.
-/

namespace XsdCatalog.Written

namespace Particle

/-- The number that a bound is, or 1 where it is none. -/
def interpretBound (bound text : String) (source : Option Location) : Noted Nat :=
  match Text.numeral32? text with
  | some n => pure n
  | none => do
    Noted.note (.warning ("invalid " ++ bound ++ " '" ++ text ++ "', using 1") source)
    return 1

def interpretMin (source : Option Location) : Option String → Noted Nat
  | none => pure 1
  | some text => interpretBound "minOccurs" (Text.trim text) source

def interpretMax (source : Option Location) : Option String → Noted (Option Nat)
  | none => pure (some 1)
  | some text =>
    let text := Text.trim text
    if text.toList.map Char.toLower = "unbounded".toList then pure none
    else some <$> interpretBound "maxOccurs" text source

/-- How often a particle may occur, read from the two words. -/
def interpretOccurs (min max : Option String) (source : Option Location) : Noted Occurs := do
  let min ← interpretMin source min
  let max ← interpretMax source max
  return { min, max }

/-- The particle is a model group without particles. -/
def isEmptyModel (p : Particle) : Bool :=
  match p.term with
  | .model _ children => children.isEmpty
  | _ => false

end Particle

namespace AttributeList

/-- The attributes of a complex type and its wildcard. -/
def interpret (scope : AttributeScope) (l : AttributeList) :
    Noted (List AttributeUse × Option XsdCatalog.Wildcard) := do
  let expansion ← scope.expand [] l.items
  return (expansion.uses, l.wildcard.map Wildcard.interpret)

end AttributeList

namespace ComplexContent

variable {π : Type}

def base : ComplexContent π → Option QName
  | direct _ _ => none
  | simple d => d.base
  | complex d => d.base

def method? : ComplexContent π → Option DerivationMethod
  | direct _ _ => none
  | simple d => some d.method
  | complex d => some d.method

def attributes : ComplexContent π → AttributeList
  | direct _ attributes => attributes
  | simple d => d.attributes
  | complex d => d.attributes

end ComplexContent

mutual

/-- The particle with its bounds read and its term interpreted, in this order. -/
def Particle.interpret (scope : AttributeScope) : Particle → Noted XsdCatalog.Particle
  | ⟨min, max, term, source⟩ => do
    let occurs ← Particle.interpretOccurs min max source
    let term ← Term.interpret scope term
    return { term, occurs, source }

def Term.interpret (scope : AttributeScope) :
    Term Particle → Noted (XsdCatalog.Term XsdCatalog.Particle)
  | .element e => .element <$> Element.interpretUse scope e
  | .wildcard w => pure (.wildcard w.interpret)
  | .group name => pure (.group name)
  | .model kind children => do
    let particles ← Particle.interpretAll scope children
    return .model { kind, particles }

def Particle.interpretAll (scope : AttributeScope) :
    List Particle → Noted (List XsdCatalog.Particle)
  | [] => pure []
  | p :: ps => do
    let particle ← Particle.interpret scope p
    let particles ← Particle.interpretAll scope ps
    return particle :: particles

/-- The content that a particle is. -/
def Particle.interpretContent (scope : AttributeScope) :
    Option Particle → Noted (Option XsdCatalog.Particle)
  | none => pure none
  | some p => if p.isEmptyModel then pure none else some <$> Particle.interpret scope p

/-- The content of a complex type. Simple content has no particle. -/
def ComplexContent.interpretContent (scope : AttributeScope) :
    ComplexContent Particle → Noted (Option XsdCatalog.Particle)
  | .direct particle _ => Particle.interpretContent scope particle
  | .simple _ => pure none
  | .complex ⟨_, _, particle, _⟩ => Particle.interpretContent scope particle

def ComplexType.interpret (scope : AttributeScope) :
    ComplexType Particle → Noted (XsdCatalog.ComplexType XsdCatalog.Particle)
  | ⟨name, documentation, source, isAbstract, mixed, written⟩ => do
    let content ← ComplexContent.interpretContent scope written
    let (attributes, wildcard) ← written.attributes.interpret scope
    return {
      name
      documentation := Documentation.join documentation
      source
      isAbstract
      mixed
      base := written.base
      derivation := written.method?
      content
      attributes
      wildcard }

def TypeDefinition.interpret (scope : AttributeScope) :
    TypeDefinition Particle → Noted (XsdCatalog.TypeDefinition XsdCatalog.Particle)
  | .simple t => .simple <$> t.interpret
  | .complex t => .complex <$> ComplexType.interpret scope t

/-- The type of an element. A named type goes before one that stands inside it. -/
def Element.interpretType (scope : AttributeScope) (typeName : Option QName) :
    Option (TypeDefinition Particle) →
      Noted (Option (TypeRef (XsdCatalog.TypeDefinition XsdCatalog.Particle)))
  | none => pure (typeName.map .named)
  | some t =>
    match typeName with
    | some name => pure (some (.named name))
    | none => do
      let type ← TypeDefinition.interpret scope t
      return some (.anonymous type)

/-- An element in a content model. A reference goes before a name. -/
def Element.interpretUse (scope : AttributeScope) :
    Element Particle → Noted (ElementUse XsdCatalog.Particle)
  | ⟨name, reference, typeName, anonymous, isAbstract, nillable, defaultValue, fixedValue, _, _, _⟩ =>
    match reference with
    | some target => pure (.reference target nillable isAbstract)
    | none => do
      let type ← Element.interpretType scope typeName anonymous
      return .declared {
        name := (name.map (·.localName)).getD ""
        type
        nillable
        isAbstract
        defaultValue
        fixedValue }

end

namespace Element

/-- The global declaration of an element with this name. -/
def interpretAs (scope : AttributeScope) (e : Element Particle) (name : QName) :
    Noted XsdCatalog.Element := do
  let type ← interpretType scope e.typeName e.anonymous
  return {
    name
    type
    isAbstract := e.isAbstract
    nillable := e.nillable
    defaultValue := e.defaultValue
    fixedValue := e.fixedValue
    documentation := Documentation.join e.documentation
    source := e.source
    substitutionHead := e.substitutionHead }

end Element

namespace Group

/-- The model group that a named group holds. One without a model group is an empty sequence, and
how often the model group may occur does not count. -/
def interpretContent (scope : AttributeScope) (g : Group) :
    Noted (ModelGroup XsdCatalog.Particle) :=
  match g.particle with
  | some ⟨_, _, .model kind children, _⟩ => do
    let particles ← Particle.interpretAll scope children
    return { kind, particles }
  | _ => pure { kind := .sequence, particles := [] }

def interpret (scope : AttributeScope) (g : Group) : Noted XsdCatalog.Group := do
  let content ← g.interpretContent scope
  return {
    name := g.name
    content
    documentation := Documentation.join g.documentation
    source := g.source }

end Group

end XsdCatalog.Written
