import XsdCatalog.Source.Path
import XsdCatalog.Text.Utf8

/-!
# File trees

A finite tree of directories and files without links. A path is followed part by part, so that
`..` leads back from the directory reached and a file on the way is a fault. A file is known by its
canonical path, for which each place on the way is asked for by its own path, so that none of these
may be too long.
-/

namespace XsdCatalog

/-- Why a path cannot be followed or a file cannot be read. -/
inductive FileFault
  | notFound
  | notDirectory
  | isDirectory
  | nameTooLong
  | invalidText
  | zeroInName
deriving DecidableEq, Repr

namespace FileFault

def message : FileFault → String
  | notFound => "No such file or directory (os error 2)"
  | notDirectory => "Not a directory (os error 20)"
  | isDirectory => "Is a directory (os error 21)"
  | nameTooLong => "File name too long (os error 36)"
  | invalidText => "stream did not contain valid UTF-8"
  | zeroInName => "file name contained an unexpected NUL byte"

end FileFault

/-- Files and directories by the names on the way to them; the directories above a file and the
root need no entry. -/
structure FileTree where
  files : List (List String × List UInt8) := []
  directories : List (List String) := []

namespace FileTree

/-- The names on the way to a place in the tree, from the root. -/
abbrev Place := List String

def file? (tree : FileTree) (place : Place) : Option (List UInt8) :=
  tree.files.lookup place

def isDirectory (tree : FileTree) (place : Place) : Bool :=
  place.isEmpty || tree.directories.any (place.isPrefixOf ·)
    || tree.files.any fun f => place.isPrefixOf f.1 && place.length < f.1.length

/-- The largest size of a name in bytes. -/
def maxNameBytes : Nat := 255

/-- The largest size in bytes of a path that a file is opened or asked for by. -/
def maxPathBytes : Nat := 4095

/-- The text of a place for display. -/
def placeText (place : Place) : String :=
  "/" ++ "/".intercalate place

/-- Follows the parts of a path from a place. -/
def follow (tree : FileTree) : Place → List String → Except FileFault Place
  | place, [] => .ok place
  | place, part :: rest =>
    if (tree.file? place).isSome then .error .notDirectory
    else if part = "" ∨ part = "." then follow tree place rest
    else if part = ".." then follow tree place.dropLast rest
    else if maxNameBytes < part.utf8ByteSize then .error .nameTooLong
    else
      let next := place ++ [part]
      if (tree.file? next).isSome ∨ tree.isDirectory next = true then follow tree next rest
      else .error .notFound

def hasZero (path : String) : Bool :=
  path.toList.contains (Char.ofNat 0)

/-- A file can be opened by a path of this size. -/
def isOpenable (path : String) : Bool :=
  path.utf8ByteSize ≤ maxPathBytes

/-- The place that a path names, seen from a directory. -/
def locate (tree : FileTree) (directory : Place) (path : String) : Except FileFault Place :=
  if path = "" then .error .notFound
  else if hasZero path then .error .zeroInName
  else tree.follow (if Path.isAbsolute path then [] else directory) (Path.parts path)

/-- Parts behind a name that are about the directory of this name: they lead up from it, or none
of them is a name. -/
def asksDirectory : List String → Bool
  | [] => true
  | part :: rest => if part = "" ∨ part = "." then asksDirectory rest else part = ".."

/-- Asks for a name in a directory by the path of what it names, with a slash behind it to ask for
a directory. -/
def ask (tree : FileTree) (place : Place) (name : String) (asDirectory : Bool) :
    Except FileFault Place :=
  let next := place ++ [name]
  if maxPathBytes < (placeText next).utf8ByteSize + asDirectory.toNat then .error .nameTooLong
  else if (tree.file? place).isSome then .error .notDirectory
  else if maxNameBytes < name.utf8ByteSize then .error .nameTooLong
  else if (tree.file? next).isSome then
    if asDirectory then .error .notDirectory else .ok next
  else if tree.isDirectory next then .ok next
  else .error .notFound

/-- Follows the parts of a path from a place and asks for every place on the way. -/
def trace (tree : FileTree) : Place → List String → Except FileFault Place
  | place, [] => .ok place
  | place, part :: rest =>
    if part = "" ∨ part = "." then trace tree place rest
    else if part = ".." then trace tree place.dropLast rest
    else
      match tree.ask place part (!rest.isEmpty && asksDirectory rest) with
      | .ok next => trace tree next rest
      | .error fault => .error fault

/-- The place with the canonical path of what a path names, seen from a directory. -/
def canonical (tree : FileTree) (directory : Place) (path : String) : Except FileFault Place :=
  if path = "" then .error .notFound
  else if hasZero path then .error .zeroInName
  else tree.trace (if Path.isAbsolute path then [] else directory) (Path.parts path)

/-- The place that a path names, to open it by this path. -/
def reach (tree : FileTree) (directory : Place) (path : String) : Except FileFault Place :=
  if isOpenable path || hasZero path then tree.locate directory path else .error .nameTooLong

/-- The bytes of the file at a place that was reached. -/
def bytesAt (tree : FileTree) (place : Place) : Except FileFault (List UInt8) :=
  match tree.file? place with
  | some bytes => .ok bytes
  | none => .error .isDirectory

/-- The text of the file at a place that was reached. -/
def textAt (tree : FileTree) (place : Place) : Except FileFault String :=
  match tree.file? place with
  | some bytes =>
    match Text.ofBytes? bytes with
    | some text => .ok text
    | none => .error .invalidText
  | none => .error .isDirectory

/-- The bytes of the file that a path names. -/
def readBytes (tree : FileTree) (directory : Place) (path : String) :
    Except FileFault (List UInt8) :=
  (tree.reach directory path).bind tree.bytesAt

/-- The text of the file that a path names. -/
def readText (tree : FileTree) (directory : Place) (path : String) : Except FileFault String :=
  (tree.reach directory path).bind tree.textAt

/-- The tree with a file written; what stood at its place is gone. -/
def write (tree : FileTree) (place : Place) (bytes : List UInt8) : FileTree :=
  { tree with files := (place, bytes) :: tree.files.filter (·.1 != place) }

/-- The tree with a directory made. -/
def makeDirectory (tree : FileTree) (place : Place) : FileTree :=
  { tree with directories := place :: tree.directories }

/-- The tree without a file. -/
def delete (tree : FileTree) (place : Place) : FileTree :=
  { tree with
    files := tree.files.filter (·.1 != place)
    directories := place.dropLast :: tree.directories }

end FileTree

end XsdCatalog
