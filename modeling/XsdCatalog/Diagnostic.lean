/-!
# Locations and diagnostics

A location is the place of the `<` of a start tag, counted from line 1 and column 1. Problems that
do not stop a run are collected as diagnostics.
-/

namespace XsdCatalog

/-- A line and a column, both from 1. -/
structure Position where
  line : Nat
  column : Nat
deriving DecidableEq, Repr, Inhabited

namespace Position

def start : Position := ⟨1, 1⟩

/-- The position behind a character; only a line feed ends a line. -/
def next (p : Position) (c : Char) : Position :=
  if c = '\n' then ⟨p.line + 1, 1⟩ else ⟨p.line, p.column + 1⟩

/-- The position behind a run of characters. -/
def after (p : Position) (cs : List Char) : Position :=
  cs.foldl next p

@[simp] theorem after_nil (p : Position) : p.after [] = p := rfl

theorem after_cons (p : Position) (c : Char) (cs : List Char) :
    p.after (c :: cs) = (p.next c).after cs := rfl

@[simp] theorem after_append (p : Position) (cs ds : List Char) :
    p.after (cs ++ ds) = (p.after cs).after ds :=
  List.foldl_append

end Position

/-- A position in a document, which may have no name. -/
structure Location where
  document : Option String
  position : Position
deriving DecidableEq, Repr, Inhabited

namespace Location

def display (l : Location) : String :=
  l.document.getD "<unknown>" ++ ":" ++ toString l.position.line ++ ":"
    ++ toString l.position.column

end Location

inductive Severity
  | warning
  | error
deriving DecidableEq, Repr

namespace Severity

def word : Severity → String
  | warning => "warning"
  | error => "error"

end Severity

structure Diagnostic where
  severity : Severity
  message : String
  location : Option Location
deriving DecidableEq, Repr

namespace Diagnostic

def warning (message : String) (location : Option Location) : Diagnostic :=
  ⟨.warning, message, location⟩

def error (message : String) (location : Option Location) : Diagnostic :=
  ⟨.error, message, location⟩

def display (d : Diagnostic) : String :=
  let text := d.severity.word ++ ": " ++ d.message
  match d.location with
  | some l => text ++ " (" ++ l.display ++ ")"
  | none => text

end Diagnostic

end XsdCatalog
