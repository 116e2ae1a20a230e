import XsdCatalog.Source.FileTree
import XsdCatalog.Source.Locator
import XsdCatalog.Written.Document

/-!
# Where references lead

A reference names another schema document by a location. A location with a colon in it is a
locator; any other location is a path seen from the directory of the referring document.
-/

namespace XsdCatalog.Collection

/-- The directory that locations in the document at a path are seen from. -/
def baseOf (path : String) : String :=
  (Path.parent? path).getD "."

/-- The path that a location names. Locators are seen from the working directory. -/
def resolve (working base location : String) : Except Error String :=
  let location := Text.trim location
  if location.toList.contains ':' then Locator.toPath working location
  else if location = "" then .error .emptyLocator
  else .ok (Path.join base location)

/-- A reference that leads to a path. -/
structure Target where
  path : String
  redefines : Bool
deriving DecidableEq

/-- The reference with a location, resolved. -/
def targetOf (working base : String) (r : Written.Reference) : Option (Except Diagnostic Target) :=
  r.location?.map fun location =>
    match resolve working base location with
    | .ok path => .ok { path, redefines := r.isRedefinition }
    | .error e =>
      .error (.warning ("Schema '" ++ location ++ "' not loaded: " ++ e.message) none)

/-- Where the references of the document at a path lead, in their order. -/
def targets (working path : String) (s : Written.Schema) : List Target :=
  s.references.filterMap fun r =>
    match targetOf working (baseOf path) r with
    | some (.ok target) => some target
    | _ => none

/-- A warning for each reference with a location that names no path. -/
def rejections (working path : String) (s : Written.Schema) : List Diagnostic :=
  s.references.filterMap fun r =>
    match targetOf working (baseOf path) r with
    | some (.error d) => some d
    | _ => none

/-- The error where a document cannot be read. -/
def unreadable (path : String) (fault : FileFault) : Error :=
  .schema ("Cannot read schema '" ++ path ++ "': " ++ fault.message)

/-- Reads the schema at a place that a path names. -/
def readAt (tree : FileTree) (place : FileTree.Place) (path : String) :
    Except Error Written.Schema :=
  if FileTree.isOpenable path then
    match tree.textAt place with
    | .ok text => Written.Schema.parse (some path) (Text.dropByteOrderMark text)
    | .error fault => .error (unreadable path fault)
  else .error (unreadable path .nameTooLong)

/-- Reads the schema in the file that a path names. -/
def readSchema (tree : FileTree) (directory : FileTree.Place) (path : String) :
    Except Error Written.Schema :=
  match tree.reach directory path with
  | .ok place => readAt tree place path
  | .error fault => .error (unreadable path fault)

end XsdCatalog.Collection
