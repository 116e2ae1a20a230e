import XsdCatalog.Interpretation.Content

/-!
# The documents of a catalog

A document lists what the declarations of one written schema mean, each kind in the order of the
declarations. Attributes and elements need a name; types without one are listed all the same.
-/

namespace XsdCatalog

/-- The import of another namespace. -/
structure Import where
  space : Option String := none
  location : Option String := none
deriving DecidableEq

structure Document where
  name : Option String := none
  targetSpace : Option String := none
  version : Option String := none
  /-- The namespaces of qualifiers; the empty qualifier is for unqualified names. -/
  bindings : Registry String := {}
  /-- The places of included and redefined documents. -/
  inclusions : List String := []
  imports : List Import := []
  elements : List Element := []
  complexTypes : List (ComplexType Particle) := []
  simpleTypes : List SimpleType := []
  attributes : List Attribute := []
  groups : List Group := []
  attributeGroups : List AttributeGroup := []
deriving BEq

namespace Written.Reference

/-- The place of an included or redefined document. -/
def inclusion? : Reference → Option String
  | inclusion location => location
  | redefinition location => location
  | importing _ _ => none

def import? : Reference → Option Import
  | importing space location => some { space, location }
  | _ => none

end Written.Reference

namespace Written.Attribute

/-- The global declaration of an attribute, if it has a name. -/
def interpretGlobal (a : Attribute) : Noted (Option XsdCatalog.Attribute) :=
  match a.name with
  | some name => some <$> a.interpretAs name
  | none => pure none

end Written.Attribute

namespace Written.Element

/-- The global declaration of an element, if it has a name. -/
def interpretGlobal (scope : AttributeScope) (e : Element Particle) :
    Noted (Option XsdCatalog.Element) :=
  match e.name with
  | some name => some <$> e.interpretAs scope name
  | none => pure none

end Written.Element

namespace Document

/-- What a written schema says about itself; nothing is listed yet. -/
def header (s : Written.Schema) : Document where
  name := s.document
  targetSpace := s.targetSpace
  version := s.version
  bindings := .ofList s.bindings
  inclusions := s.references.filterMap (·.inclusion?)
  imports := s.references.filterMap (·.import?)

end Document

end XsdCatalog
