import XsdCatalog.Fragment.Extract
import XsdCatalog.Source.FileTree
import XsdCatalog.Source.Locator
import XsdCatalog.Source.TextCache

/-!
# Source texts

A provider hands out whole document texts, which it caches, and fragments, which it always takes
fresh from the source. It counts how often it has asked the source.
-/

namespace XsdCatalog

/-- What opening a document gives: its bytes, or the reason why they cannot be read. -/
inductive Stream
  | bytes (bs : List UInt8)
  | broken (reason : String)

/-- Where document texts come from. -/
structure TextSource where
  read : String → Except Error String
  openStream : String → Except Error Stream

namespace TextSource

/-- The files of a tree, seen from a directory. -/
def ofFiles (tree : FileTree) (directory : FileTree.Place) : TextSource where
  read locator := do
    let path ← Locator.toPath (FileTree.placeText directory) locator
    match tree.readText directory path with
    | .ok text => return Text.dropByteOrderMark text
    | .error fault => throw (.input fault.message)
  openStream locator := do
    let path ← Locator.toPath (FileTree.placeText directory) locator
    match tree.readBytes directory path with
    | .ok bytes => return .bytes bytes
    | .error .isDirectory => return .broken ("I/O error: " ++ FileFault.isDirectory.message)
    | .error fault => throw (.input fault.message)

/-- Documents held in memory under their locators. -/
def ofMemory (documents : List (String × List UInt8)) : TextSource where
  read locator :=
    match documents.lookup locator with
    | none => .error (.input "not found")
    | some bytes =>
      match Text.ofBytes? bytes with
      | some text => .ok text
      | none => .error (.input "not utf-8")
  openStream locator :=
    match documents.lookup locator with
    | none => .error (.input "not found")
    | some bytes => .ok (.bytes bytes)

end TextSource

structure Provider where
  cache : TextCache := {}
  /-- Whole texts asked of the source. -/
  reads : Nat := 0
  /-- Streams asked of the source. -/
  opens : Nat := 0

namespace Provider

/-- A locator without the blanks around it. -/
def checkedLocator (locator : String) : Except Error String :=
  let key := Text.trim locator
  if key = "" then .error .emptyLocator else .ok key

/-- The whole text of a document. -/
def documentText (p : Provider) (source : TextSource) (now : Nat) (locator : String) :
    Except Error String × Provider :=
  match checkedLocator locator with
  | .error e => (.error e, p)
  | .ok key =>
    match p.cache.get key now with
    | (some text, cache) => (.ok text, { p with cache })
    | (none, cache) =>
      let p := { p with cache, reads := p.reads + 1 }
      match source.read key with
      | .error e => (.error e, p)
      | .ok text => (.ok text, { p with cache := (p.cache.insert key text now).2 })

/-- The element that starts at a line and column of an open document. -/
def extractFrom (key : String) (line column : Nat) : Stream → Except Error String
  | .bytes bs => Fragment.extract key line column bs
  | .broken reason =>
    if line = 0 ∨ column = 0 then .error .missingPosition else .error (.markup reason)

/-- The element that starts at a line and column of a document. -/
def fragmentAt (p : Provider) (source : TextSource) (locator : String) (line column : Nat) :
    Except Error String × Provider :=
  match checkedLocator locator with
  | .error e => (.error e, p)
  | .ok key =>
    ((source.openStream key).bind (extractFrom key line column), { p with opens := p.opens + 1 })

/-- The element at a location. -/
def fragment (p : Provider) (source : TextSource) (location : Location) :
    Except Error String × Provider :=
  match location.document with
  | none => (.error .emptyLocator, p)
  | some document =>
    p.fragmentAt source document location.position.line location.position.column

/-- The element that a component was read from. -/
def fragmentOf (p : Provider) (source : TextSource) (location : Option Location) :
    Except Error String × Provider :=
  match location with
  | none => (.error .missingPosition, p)
  | some l => p.fragment source l

/-- Forgets the text of one document. The answer tells whether it was there. -/
def remove (p : Provider) (locator : String) : Bool × Provider :=
  let (was, cache) := p.cache.remove (Text.trim locator)
  (was, { p with cache })

/-- Forgets every text. -/
def clear (p : Provider) : Provider :=
  { p with cache := p.cache.clear }

end Provider

end XsdCatalog
