import XsdCatalog.Text.Blank

/-!
# Words of schema documents
-/

namespace XsdCatalog

/-- How an attribute may be used. -/
inductive AttributeUsage
  | optional
  | required
  | prohibited
deriving DecidableEq, Repr, Inhabited

namespace AttributeUsage

def word : AttributeUsage → String
  | optional => "optional"
  | required => "required"
  | prohibited => "prohibited"

/-- The usage that a word stands for, blanks around it left out. -/
def ofWord? (s : String) : Option AttributeUsage :=
  match Text.trim s with
  | "optional" => some optional
  | "required" => some required
  | "prohibited" => some prohibited
  | _ => none

end AttributeUsage

/-- How strictly the content that a wildcard admits is assessed. -/
inductive ProcessContents
  | strict
  | lax
  | skip
deriving DecidableEq, Repr, Inhabited

namespace ProcessContents

def word : ProcessContents → String
  | strict => "strict"
  | lax => "lax"
  | skip => "skip"

/-- The strictness that a word stands for, blanks around it left out. -/
def ofWord? (s : String) : Option ProcessContents :=
  match Text.trim s with
  | "strict" => some strict
  | "lax" => some lax
  | "skip" => some skip
  | _ => none

end ProcessContents

inductive DerivationMethod
  | byExtension
  | byRestriction
deriving DecidableEq, Repr

namespace DerivationMethod

def word : DerivationMethod → String
  | byExtension => "extension"
  | byRestriction => "restriction"

end DerivationMethod

/-- How the particles of a model group are combined. -/
inductive Compositor
  | sequence
  | choice
  | all
deriving DecidableEq, Repr

namespace Compositor

def word : Compositor → String
  | sequence => "sequence"
  | choice => "choice"
  | all => "all"

end Compositor

/-- The twelve kinds of constraining facets. -/
inductive FacetKind
  | length
  | minLength
  | maxLength
  | pattern
  | enumeration
  | whiteSpace
  | maxInclusive
  | maxExclusive
  | minInclusive
  | minExclusive
  | totalDigits
  | fractionDigits
deriving DecidableEq, Repr

namespace FacetKind

def all : List FacetKind :=
  [length, minLength, maxLength, pattern, enumeration, whiteSpace, maxInclusive, maxExclusive,
    minInclusive, minExclusive, totalDigits, fractionDigits]

/-- The name of the element that writes the facet. -/
def elementName : FacetKind → String
  | length => "length"
  | minLength => "minLength"
  | maxLength => "maxLength"
  | pattern => "pattern"
  | enumeration => "enumeration"
  | whiteSpace => "whiteSpace"
  | maxInclusive => "maxInclusive"
  | maxExclusive => "maxExclusive"
  | minInclusive => "minInclusive"
  | minExclusive => "minExclusive"
  | totalDigits => "totalDigits"
  | fractionDigits => "fractionDigits"

def ofElementName? (name : String) : Option FacetKind :=
  all.find? (·.elementName == name)

/-- A facet of this kind may be fixed. -/
def supportsFixed : FacetKind → Bool
  | length => true
  | minLength => true
  | maxLength => true
  | whiteSpace => true
  | _ => false

end FacetKind

end XsdCatalog
