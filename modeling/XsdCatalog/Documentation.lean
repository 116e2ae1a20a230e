import XsdCatalog.Text.Blank

/-!
# Documentation

The documentation of a component is one text: its parts without the blanks around them, with an
empty line between them. Blank parts do not count.
-/

namespace XsdCatalog.Documentation

def join (parts : List String) : Option String :=
  match (parts.map Text.trim).filter (· != "") with
  | [] => none
  | texts => some ("\n\n".intercalate texts)

end XsdCatalog.Documentation
