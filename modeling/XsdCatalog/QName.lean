/-!
# Qualified names

A name is a namespace and a local part. The qualifier it was written with is kept for display and
takes no part in comparisons. An absent namespace and the empty one are the same.
-/

namespace XsdCatalog

/-- The namespace of schema documents and of the built-in types. -/
def schemaSpace : String := "http://www.w3.org/2001/XMLSchema"

/-- The namespace to which the qualifier `xml` is always bound. -/
def xmlSpace : String := "http://www.w3.org/XML/1998/namespace"

structure QName where
  space : Option String := none
  localName : String := ""
  qualifier : Option String := none
deriving Repr, Inhabited

namespace QName

/-- A name without qualifier; an empty namespace is none. -/
def make (space : Option String) (localName : String) : QName :=
  { space := space.filter (· != ""), localName := localName }

/-- A name in a namespace; the empty text stands for none. -/
def inSpace (space localName : String) : QName :=
  make (some space) localName

/-- A name in no namespace. -/
def unbound (localName : String) : QName :=
  make none localName

/-- The name with another qualifier; an empty one is none. -/
def withQualifier (q : QName) (qualifier : String) : QName :=
  { q with qualifier := if qualifier = "" then none else some qualifier }

/-- The namespace, empty if there is none. -/
def spaceText (q : QName) : String :=
  q.space.getD ""

/-- What comparison looks at. -/
def expanded (q : QName) : String × String :=
  (q.spaceText, q.localName)

instance : BEq QName := ⟨fun a b => a.expanded == b.expanded⟩

/-- The text under which registries file a name. -/
def key (q : QName) : String :=
  q.spaceText ++ "|" ++ q.localName

/-- The name as messages show it: by its qualifier, or else by its namespace in braces. -/
def display (q : QName) : String :=
  match q.qualifier with
  | some p => if p = "" then "\x7b" ++ q.spaceText ++ "\x7d" ++ q.localName
      else p ++ ":" ++ q.localName
  | none => "\x7b" ++ q.spaceText ++ "\x7d" ++ q.localName

/-- A name in the namespace of the built-in types. -/
def isBuiltin (q : QName) : Bool :=
  q.spaceText == schemaSpace

end QName

end XsdCatalog
