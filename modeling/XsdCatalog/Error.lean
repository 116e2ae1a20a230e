/-!
# Errors

The causes for which a run stops, and the one place where they are put into words.
-/

namespace XsdCatalog

inductive Error
  /-- A document is no schema: malformed, too large, unreadable or with another root. -/
  | schema (reason : String)
  /-- A source document is malformed where a fragment was looked for. -/
  | markup (reason : String)
  /-- A source document could not be read. -/
  | input (reason : String)
  /-- A locator is blank. -/
  | emptyLocator
  /-- A locator names no local file. -/
  | unsupportedLocator (locator : String)
  /-- A position is missing or has a line or column 0. -/
  | missingPosition
  /-- No start tag stands at the position asked for. -/
  | fragmentNotFound (document : String) (line column : Nat)
deriving DecidableEq, Repr

namespace Error

def message : Error → String
  | schema reason => "XSD parse error: " ++ reason
  | markup reason => "XML parse error: " ++ reason
  | input reason => "IO error: " ++ reason
  | emptyLocator => "empty document locator"
  | unsupportedLocator l =>
    "unsupported document locator '" ++ l ++ "' (only file URIs and local paths)"
  | missingPosition => "reader provides no line information"
  | fragmentNotFound document line column =>
    "no element starts at " ++ document ++ ":" ++ toString line ++ ":" ++ toString column

end Error

end XsdCatalog
