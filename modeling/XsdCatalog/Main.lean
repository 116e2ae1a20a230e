import XsdCatalog.CommandLine

/-!
# The program

Copies the files that a command asks for into a file tree, runs the command there and prints what
it gives.
-/

namespace XsdCatalog.Main

/-- What stands at a place of the file system: a directory, a file, or nothing that can be read. -/
def look (place : FileTree.Place) : IO (Option (Option (List UInt8))) := do
  try
    let path ← IO.FS.realPath (FileTree.placeText place)
    if ← path.isDir then return some none
    else return some (some (← IO.FS.readBinFile path).toList)
  catch _ => return none

/-- Copies what a path leads through into a tree. -/
def copy (tree : FileTree) (place : FileTree.Place) : List String → IO FileTree
  | [] => return tree
  | part :: rest => do
    if part = "" ∨ part = "." then copy tree place rest
    else if part = ".." then copy tree place.dropLast rest
    else
      let next := place ++ [part]
      match ← look next with
      | none => return tree
      | some none => copy (tree.makeDirectory next) next rest
      | some (some bytes) => return tree.write next bytes

/-- Copies files as long as the command asks for further ones. -/
partial def copyAll (directory : FileTree.Place) (command : Command) (known : List String)
    (tree : FileTree) : IO FileTree := do
  let fresh := (command.paths tree directory).eraseDups.filter (!known.contains ·)
  if fresh.isEmpty then return tree
  let next ← fresh.foldlM (fun tree path =>
    copy tree (if Path.isAbsolute path then [] else directory) (Path.parts path)) tree
  copyAll directory command (fresh ++ known) next

end XsdCatalog.Main

open XsdCatalog in
def main (arguments : List String) : IO UInt32 := do
  let directory := (Path.parts (← IO.currentDir).toString).filter (· != "")
  let start : FileTree := { directories := [directory] }
  let tree ← match CommandLine.parse? arguments with
    | some command => Main.copyAll directory command [] start
    | none => pure start
  let outcome := CommandLine.execute tree directory arguments
  IO.print outcome.output
  IO.eprint outcome.errors
  return outcome.code.toUInt32
