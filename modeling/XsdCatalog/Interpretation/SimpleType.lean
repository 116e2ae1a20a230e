import XsdCatalog.Component.SimpleType
import XsdCatalog.Documentation
import XsdCatalog.Noted
import XsdCatalog.Written.Schema

/-!
# What simple types mean

A written simple type becomes a simple type of the same shape. A facet of an unknown kind counts as
a pattern, and that is noted.
-/

namespace XsdCatalog.Written

namespace Facet

def interpret (f : Facet) : Noted XsdCatalog.Facet :=
  let value := f.value.getD ""
  match FacetKind.ofElementName? (Text.trim f.kind) with
  | some kind => pure (.make kind value f.fixed)
  | none => do
    Noted.note (.warning ("unknown facet '" ++ f.kind ++ "', mapped as pattern") f.source)
    return .make .pattern value false

def interpretAll : List Facet → Noted (List XsdCatalog.Facet)
  | [] => pure []
  | f :: fs => do
    let facet ← f.interpret
    let facets ← interpretAll fs
    return facet :: facets

end Facet

namespace SimpleType

mutual

def interpret : SimpleType → Noted XsdCatalog.SimpleType
  | ⟨name, documentation, source, written⟩ => do
    let variety ← interpretVariety written
    return { name, documentation := Documentation.join documentation, source, variety }

def interpretVariety : Variety SimpleType → Noted (XsdCatalog.Variety XsdCatalog.SimpleType)
  | .unstated => pure .builtin
  | .restriction base facets => .restriction base <$> Facet.interpretAll facets
  | .list item none => pure (.list item none)
  | .list item (some t) => do
    let anonymous ← interpret t
    return .list item (some anonymous)
  | .union members anonymous => .union members <$> interpretAll anonymous

def interpretAll : List SimpleType → Noted (List XsdCatalog.SimpleType)
  | [] => pure []
  | t :: ts => do
    let type ← interpret t
    let types ← interpretAll ts
    return type :: types

end

end SimpleType

end XsdCatalog.Written
