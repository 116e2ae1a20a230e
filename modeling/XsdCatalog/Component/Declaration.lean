import XsdCatalog.Component.Content

/-!
# Global elements and model groups
-/

namespace XsdCatalog

/-- The global declaration of an element. -/
structure Element where
  name : QName
  type : Option (TypeRef (TypeDefinition Particle)) := none
  isAbstract : Bool := false
  nillable : Bool := false
  defaultValue : Option String := none
  fixedValue : Option String := none
  documentation : Option String := none
  source : Option Location := none
  substitutionHead : Option QName := none
deriving BEq

namespace Element

/-- The type that stands inside the declaration. -/
def anonymousType? (e : Element) : Option (TypeDefinition Particle) :=
  match e.type with
  | some (.anonymous t) => some t
  | _ => none

end Element

/-- A named model group. -/
structure Group where
  name : QName
  content : ModelGroup Particle
  documentation : Option String := none
  source : Option Location := none
deriving BEq

end XsdCatalog
