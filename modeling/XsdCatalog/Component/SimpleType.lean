import XsdCatalog.Diagnostic
import XsdCatalog.QName
import XsdCatalog.Vocabulary

/-!
# Facets and simple types

A simple type restricts another one by facets, lists values of one, or joins several. The types it
is made from are named or stand inside it. Comparing components compares their names without
qualifiers.
-/

namespace XsdCatalog

/-- A constraining facet. Only some kinds can be fixed. -/
structure Facet where
  kind : FacetKind
  value : String
  fixed : Bool := false
  kind_of_fixed : fixed = true → kind.supportsFixed = true := by simp
deriving DecidableEq

namespace Facet

/-- A facet that is fixed if it should be and its kind allows it. -/
def make (kind : FacetKind) (value : String) (fixed : Bool) : Facet where
  kind := kind
  value := value
  fixed := fixed && kind.supportsFixed
  kind_of_fixed := by simp

end Facet

/-- A type given by its name, or a type that stands where it is used. -/
inductive TypeRef (τ : Type)
  | named (name : QName)
  | anonymous (type : τ)
deriving BEq

/-- What a simple type is made from. -/
inductive Variety (τ : Type)
  | builtin
  | restriction (base : Option QName) (facets : List Facet)
  | list (item : Option QName) (anonymous : Option τ)
  | union (members : List QName) (anonymous : List τ)

/-- A simple type; it is anonymous if it has no name. -/
structure SimpleType where
  name : Option QName := none
  documentation : Option String := none
  source : Option Location := none
  variety : Variety SimpleType := .builtin

namespace SimpleType

mutual

def same : SimpleType → SimpleType → Bool
  | ⟨name, documentation, source, variety⟩, ⟨name', documentation', source', variety'⟩ =>
    name == name' && documentation == documentation' && source == source'
      && sameVariety variety variety'

def sameVariety : Variety SimpleType → Variety SimpleType → Bool
  | .builtin, .builtin => true
  | .restriction base facets, .restriction base' facets' => base == base' && facets == facets'
  | .list item none, .list item' none => item == item'
  | .list item (some t), .list item' (some t') => item == item' && same t t'
  | .union members ts, .union members' ts' => members == members' && sameAll ts ts'
  | _, _ => false

def sameAll : List SimpleType → List SimpleType → Bool
  | [], [] => true
  | t :: ts, t' :: ts' => same t t' && sameAll ts ts'
  | _, _ => false

end

instance : BEq SimpleType := ⟨same⟩

end SimpleType

end XsdCatalog
