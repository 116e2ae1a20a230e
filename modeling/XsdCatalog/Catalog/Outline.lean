import XsdCatalog.Catalog.Reference
import XsdCatalog.Json.Value
import XsdCatalog.Text.Blank

/-!
# Outlines

An outline tells what a catalog holds: its documents, the names in its registries, its diagnostics
and its references without a target. It is printed as lines or as a JSON value, whose fields stand
in the order of their names.
-/

namespace XsdCatalog

/-- A registry key as a name: the namespace in braces, if there is one, and the local part. -/
def displayKey (key : String) : String :=
  match Text.cut? '|' key with
  | some (space, localName) =>
    if space = "" then localName else "\x7b" ++ space ++ "\x7d" ++ localName
  | none => key

namespace Reference

def display (r : Reference) : String :=
  r.kind.word ++ " " ++ r.name.display

end Reference

namespace Catalog

/-- The names in a registry, in its order. -/
def names {α : Type} (r : Registry α) : List String :=
  r.keys.map displayKey

namespace Outline

def documentLine (d : Document) : String :=
  "document " ++ d.name.getD "<unknown>" ++ " (targetNamespace: " ++ d.targetSpace.getD "-" ++ ")"

/-- The number of names in a registry and the names themselves. -/
def registryLines (kind : String) (names : List String) : List String :=
  (kind ++ ": " ++ toString names.length) :: names.map ("  " ++ ·)

def lines (c : Catalog) : List String :=
  c.documents.map documentLine
    ++ registryLines "elements" (names c.elements)
    ++ registryLines "complexTypes" (names c.complexTypes)
    ++ registryLines "simpleTypes" (names c.simpleTypes)
    ++ registryLines "attributes" (names c.attributes)
    ++ registryLines "groups" (names c.groups)
    ++ registryLines "attributeGroups" (names c.attributeGroups)
    ++ c.diagnostics.map (·.display)
    ++ c.unresolved.map fun r => "unresolved " ++ r.display

open Json

def importValue (i : Import) : Value :=
  .object [
    ("namespace", .ofOption i.space),
    ("schemaLocation", .ofOption i.location)]

def documentValue (d : Document) : Value :=
  .object [
    ("imports", .array (d.imports.map importValue)),
    ("includes", .texts d.inclusions),
    ("targetNamespace", .ofOption d.targetSpace),
    ("uri", .ofOption d.name),
    ("version", .ofOption d.version)]

def diagnosticValue (d : Diagnostic) : Value :=
  .object [
    ("location", .ofOption (d.location.map (·.display))),
    ("message", .text d.message),
    ("severity", .text d.severity.word)]

def registriesValue (c : Catalog) : Value :=
  .object [
    ("attributeGroups", .texts (names c.attributeGroups)),
    ("attributes", .texts (names c.attributes)),
    ("complexTypes", .texts (names c.complexTypes)),
    ("elements", .texts (names c.elements)),
    ("groups", .texts (names c.groups)),
    ("simpleTypes", .texts (names c.simpleTypes))]

def value (c : Catalog) : Value :=
  .object [
    ("diagnostics", .array (c.diagnostics.map diagnosticValue)),
    ("documents", .array (c.documents.map documentValue)),
    ("registries", registriesValue c),
    ("unresolved", .texts (c.unresolved.map (·.display)))]

end Outline

/-- The outline in lines, without blanks at its end. -/
def outlineText (c : Catalog) : String :=
  Text.trimEnd ("\n".intercalate (Outline.lines c))

/-- The outline as JSON. -/
def outlineJson (c : Catalog) : String :=
  (Outline.value c).pretty

end Catalog

end XsdCatalog
