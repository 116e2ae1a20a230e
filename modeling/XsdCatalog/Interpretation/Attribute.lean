import XsdCatalog.Component.Attribute
import XsdCatalog.Interpretation.SimpleType

/-!
# What attributes and wildcards mean
-/

namespace XsdCatalog.Written

namespace Wildcard

/-- A wildcard admits any namespace and is strict unless it says something else. -/
def interpret (w : Wildcard) : XsdCatalog.Wildcard where
  constraint := ((w.constraint.map Text.trim).filter (· != "")).getD "##any"
  process := w.process.getD .strict

end Wildcard

namespace Attribute

/-- The type of an attribute. A named type goes before one that stands inside it. -/
def interpretType (a : Attribute) : Noted (Option (TypeRef XsdCatalog.SimpleType)) :=
  match a.typeName, a.anonymous with
  | some name, _ => pure (some (.named name))
  | none, some t => do
    let type ← t.interpret
    return some (.anonymous type)
  | none, none => pure none

/-- The declaration of an attribute with this name. -/
def interpretAs (a : Attribute) (name : QName) : Noted XsdCatalog.Attribute := do
  let type ← a.interpretType
  return {
    name
    type
    defaultValue := a.defaultValue
    fixedValue := a.fixedValue
    documentation := Documentation.join a.documentation
    source := a.source }

/-- The use of an attribute that is referred to or declared in place. -/
def interpretUse (a : Attribute) : Noted AttributeUse :=
  match a.reference with
  | some name => pure ⟨a.usage, .reference name⟩
  | none => do
    let declared ← a.interpretAs (a.name.getD (.unbound ""))
    return ⟨a.usage, .declared declared⟩

end Attribute

end XsdCatalog.Written
