import XsdCatalog.Diagnostic
import XsdCatalog.QName
import XsdCatalog.Vocabulary

/-!
# Schemas as written

The declarations of one schema document as they stand there. Names are expanded, but nothing is
looked up, and numbers and kinds of facets are still words. The parts of a content model refer to
particles by a parameter, so that the recursion is closed in one place, at `Particle`.
-/

namespace XsdCatalog.Written

structure Facet where
  kind : String
  value : Option String := none
  fixed : Bool := false
  source : Option Location := none
deriving Repr

/-- What a simple type is made from. -/
inductive Variety (τ : Type)
  | unstated
  | restriction (base : Option QName) (facets : List Facet)
  | list (item : Option QName) (anonymous : Option τ)
  | union (members : List QName) (anonymous : List τ)
deriving Repr

structure SimpleType where
  name : Option QName := none
  documentation : List String := []
  source : Option Location := none
  variety : Variety SimpleType := .unstated
deriving Repr

structure Wildcard where
  constraint : Option String := none
  process : Option ProcessContents := none
  source : Option Location := none
deriving Repr

structure Attribute where
  name : Option QName := none
  reference : Option QName := none
  typeName : Option QName := none
  anonymous : Option SimpleType := none
  usage : AttributeUsage := .optional
  defaultValue : Option String := none
  fixedValue : Option String := none
  documentation : List String := []
  source : Option Location := none
deriving Repr

inductive AttributeItem
  | attribute (a : Attribute)
  | group (name : QName)
deriving Repr

structure AttributeList where
  items : List AttributeItem := []
  wildcard : Option Wildcard := none
deriving Repr

structure AttributeGroup where
  name : QName
  attributes : AttributeList := {}
  documentation : List String := []
  source : Option Location := none
deriving Repr

/-- The extension or restriction of a base type. -/
structure Derivation (π : Type) where
  method : DerivationMethod
  base : Option QName := none
  particle : Option π := none
  attributes : AttributeList := {}
deriving Repr

inductive ComplexContent (π : Type)
  | direct (particle : Option π) (attributes : AttributeList)
  | simple (derivation : Derivation π)
  | complex (derivation : Derivation π)
deriving Repr

structure ComplexType (π : Type) where
  name : Option QName := none
  documentation : List String := []
  source : Option Location := none
  isAbstract : Bool := false
  mixed : Bool := false
  content : ComplexContent π := .direct none {}
deriving Repr

inductive TypeDefinition (π : Type)
  | simple (t : SimpleType)
  | complex (t : ComplexType π)
deriving Repr

structure Element (π : Type) where
  name : Option QName := none
  reference : Option QName := none
  typeName : Option QName := none
  anonymous : Option (TypeDefinition π) := none
  isAbstract : Bool := false
  nillable : Bool := false
  defaultValue : Option String := none
  fixedValue : Option String := none
  substitutionHead : Option QName := none
  documentation : List String := []
  source : Option Location := none
deriving Repr

inductive Term (π : Type)
  | element (e : Element π)
  | wildcard (w : Wildcard)
  | group (name : QName)
  | model (kind : Compositor) (children : List π)
deriving Repr

/-- A term and how often it may occur, in words. -/
structure Particle where
  min : Option String := none
  max : Option String := none
  term : Term Particle
  source : Option Location := none
deriving Repr

structure Group where
  name : QName
  particle : Option Particle := none
  documentation : List String := []
  source : Option Location := none
deriving Repr

/-- A declaration at the top of a schema. -/
inductive Item
  | simpleType (t : SimpleType)
  | complexType (t : ComplexType Particle)
  | attribute (a : Attribute)
  | element (e : Element Particle)
  | group (g : Group)
  | attributeGroup (g : AttributeGroup)
deriving Repr

/-- A reference to another schema document. -/
inductive Reference
  | inclusion (location : Option String)
  | importing (space location : Option String)
  | redefinition (location : Option String)
deriving Repr

namespace Reference

def location? : Reference → Option String
  | inclusion location => location
  | importing _ location => location
  | redefinition location => location

def isRedefinition : Reference → Bool
  | redefinition _ => true
  | _ => false

end Reference

structure Schema where
  document : Option String := none
  targetSpace : Option String := none
  version : Option String := none
  /-- The bindings at the root; the empty qualifier is for unqualified names. -/
  bindings : List (String × String) := []
  references : List Reference := []
  items : List Item := []
  diagnostics : List Diagnostic := []
deriving Repr

namespace Schema

def elements (s : Schema) : List (Element Particle) :=
  s.items.filterMap fun
    | .element e => some e
    | _ => none

def complexTypes (s : Schema) : List (ComplexType Particle) :=
  s.items.filterMap fun
    | .complexType t => some t
    | _ => none

def simpleTypes (s : Schema) : List SimpleType :=
  s.items.filterMap fun
    | .simpleType t => some t
    | _ => none

def attributes (s : Schema) : List Attribute :=
  s.items.filterMap fun
    | .attribute a => some a
    | _ => none

def groups (s : Schema) : List Group :=
  s.items.filterMap fun
    | .group g => some g
    | _ => none

def attributeGroups (s : Schema) : List AttributeGroup :=
  s.items.filterMap fun
    | .attributeGroup g => some g
    | _ => none

end Schema

end XsdCatalog.Written
