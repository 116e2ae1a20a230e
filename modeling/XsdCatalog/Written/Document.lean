import XsdCatalog.Error
import XsdCatalog.Markup.Document
import XsdCatalog.Written.Reader

/-!
# Schema documents

The text of a document becomes a schema if it is not too large, well formed, and has the right
root element.
-/

namespace XsdCatalog.Written

/-- The largest size of a schema document in bytes. -/
def maxBytes : Nat := 16 * 1024 * 1024

/-- The reason given where a document is not well formed. -/
def malformed : String := "XML: malformed document"

/-- The root of a document, if it is a schema. -/
def schemaRoot? (doc : Markup.Document) : Option SchemaElement :=
  if doc.root.localName = "schema" then SchemaElement.ofNode? (.element doc.root doc.children)
  else none

/-- Reads a schema from the text of a document. -/
def Schema.parse (document : Option String) (text : String) : Except Error Schema :=
  if text.utf8ByteSize > maxBytes then
    .error (.schema ("XSD document too large: " ++ toString text.utf8ByteSize ++ " bytes (max "
      ++ toString maxBytes ++ " bytes)"))
  else
    match Markup.Document.read? text with
    | none => .error (.schema malformed)
    | some doc =>
      match schemaRoot? doc with
      | none => .error (.schema "Root element must be xs:schema")
      | some root => .ok (readSchema document root)

end XsdCatalog.Written
