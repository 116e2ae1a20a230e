import XsdCatalog.Catalog.Outline
import XsdCatalog.Collection.Basic
import XsdCatalog.Source.Provider
import XsdCatalog.Text.Numeral

/-!
# The command line

Three commands: `outline` loads schema files and tells what they hold, `text` prints a document, and
`fragment` prints the element that starts at a line and a column. Options begin with a hyphen and
may stand anywhere; behind `--` everything is an operand.
-/

namespace XsdCatalog

inductive Command
  | outline (files : List String) (json : Bool)
  | text (locator : String)
  | fragment (locator : String) (line column : Nat)
deriving DecidableEq, Repr

namespace CommandLine

/-- Arguments sorted into operands and options, each kind in its order. -/
structure Sorted where
  operands : List String := []
  options : List (String × String) := []
deriving DecidableEq, Repr

/-- An argument that is read as an option; a single hyphen is none. -/
def isOption (argument : String) : Bool :=
  argument.toList.head? == some '-' && argument != "-"

def Sorted.withOption (s : Sorted) (name value : String) : Option Sorted :=
  if s.options.any (·.1 == name) then none
  else some { s with options := (name, value) :: s.options }

/-- Sorts arguments. Flags stand alone; other options have a value, behind an equals sign or in the
next argument, which must not look like an option. No option may be given twice. -/
def sort (flags valued : List String) : List String → Option Sorted
  | [] => some {}
  | argument :: rest =>
    if argument = "--" then some { operands := rest }
    else if !isOption argument then do
      let s ← sort flags valued rest
      return { s with operands := argument :: s.operands }
    else
      match Text.cut? '=' argument with
      | some (name, value) =>
        if valued.contains name then (sort flags valued rest).bind (·.withOption name value)
        else none
      | none =>
        if flags.contains argument then (sort flags valued rest).bind (·.withOption argument "")
        else if valued.contains argument then
          match rest with
          | value :: rest =>
            if isOption value then none
            else (sort flags valued rest).bind (·.withOption argument value)
          | [] => none
        else none

/-- The number that an option is given: a numeral of 32 bits, or a zero with a minus sign. -/
def number? (value : String) : Option Nat :=
  match value.toList with
  | '-' :: digits => (Text.digits? digits).filter (· == 0)
  | _ => Text.numeral32? value

/-- The command that arguments ask for. -/
def parse? : List String → Option Command
  | "outline" :: rest => do
    let s ← sort ["--json"] [] rest
    if s.operands.isEmpty then none
    else return .outline s.operands (s.options.any (·.1 == "--json"))
  | "text" :: rest => do
    let s ← sort [] [] rest
    match s.operands with
    | [locator] => return .text locator
    | _ => none
  | "fragment" :: rest => do
    let s ← sort [] ["--line", "--column"] rest
    let line ← (s.options.lookup "--line").bind number?
    let column ← (s.options.lookup "--column").bind number?
    match s.operands with
    | [locator] => return .fragment locator line column
    | _ => none
  | _ => none

end CommandLine

namespace Command

/-- What a command prints, seen from a directory of a file tree. -/
def run (tree : FileTree) (directory : FileTree.Place) : Command → Except Error String
  | outline files json => do
    let c ← Catalog.loadFiles tree directory files
    return if json then c.outlineJson else c.outlineText
  | text locator =>
    (Provider.documentText {} (.ofFiles tree directory) 0 locator).1
  | fragment locator line column =>
    (Provider.fragmentAt {} (.ofFiles tree directory) locator line column).1

/-- The paths that a command asks for, as far as the files in a tree show them. -/
def paths (tree : FileTree) (directory : FileTree.Place) : Command → List String
  | outline files _ =>
    match Collection.ofRoots tree directory files with
    | .ok c => files ++ c.members.flatMap fun m =>
      (Collection.targets (FileTree.placeText directory) (m.schema.document.getD "") m.schema).map
        (·.path)
    | .error _ => files
  | text locator => (Locator.toPath (FileTree.placeText directory) locator).toOption.toList
  | fragment locator _ _ => (Locator.toPath (FileTree.placeText directory) locator).toOption.toList

end Command

namespace CommandLine

/-- How a run ends. -/
structure Outcome where
  code : Nat
  output : String := ""
  errors : String := ""
deriving DecidableEq, Repr

/-- What is printed if arguments ask for no command. -/
def usage : String :=
  "usage: outline [--json] FILE...\n       text LOCATOR\n"
    ++ "       fragment LOCATOR --line LINE --column COLUMN\n"

/-- Runs the command that arguments ask for. The code is 2 if they ask for none, and 1 if the
command fails. -/
def execute (tree : FileTree) (directory : FileTree.Place) (arguments : List String) : Outcome :=
  match parse? arguments with
  | none => { code := 2, errors := usage }
  | some command =>
    match command.run tree directory with
    | .ok text => { code := 0, output := text ++ "\n" }
    | .error e => { code := 1, errors := "Fehler: " ++ e.message ++ "\n" }

end CommandLine

end XsdCatalog
