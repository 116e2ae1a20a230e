import XsdCatalog.Component.SimpleType

/-!
# Attributes and wildcards
-/

namespace XsdCatalog

/-- Admits content of any name from the namespaces of its constraint. -/
structure Wildcard where
  constraint : String := "##any"
  process : ProcessContents := .strict
deriving DecidableEq

/-- The declaration of an attribute. -/
structure Attribute where
  name : QName
  type : Option (TypeRef SimpleType) := none
  defaultValue : Option String := none
  fixedValue : Option String := none
  documentation : Option String := none
  source : Option Location := none
deriving BEq

/-- The attribute that a use is about. -/
inductive AttributeTarget
  | reference (name : QName)
  | declared (a : Attribute)
deriving BEq

namespace AttributeTarget

def name : AttributeTarget → QName
  | reference name => name
  | declared a => a.name

end AttributeTarget

/-- An attribute and how it may be used. -/
structure AttributeUse where
  usage : AttributeUsage := .optional
  target : AttributeTarget
deriving BEq

namespace AttributeUse

def name (u : AttributeUse) : QName :=
  u.target.name

def isRequired (u : AttributeUse) : Bool :=
  u.usage == .required

end AttributeUse

/-- A named list of attributes. The groups that it refers to are expanded. -/
structure AttributeGroup where
  name : QName
  attributes : List AttributeUse := []
  wildcard : Option Wildcard := none
  documentation : Option String := none
  source : Option Location := none
deriving BEq

end XsdCatalog
