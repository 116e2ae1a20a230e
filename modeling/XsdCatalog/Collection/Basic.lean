import XsdCatalog.Catalog.Load
import XsdCatalog.Collection.Order
import XsdCatalog.Collection.Target

/-!
# Collections of schema files

Starting from root files, all files are loaded that schemas refer to, each once. A reference that
leads to no schema is a warning at the document that it stands in. Documents are loaded depth
first, the references of each in their order.
-/

namespace XsdCatalog

/-- A loaded file. -/
structure Member where
  place : FileTree.Place
  schema : Written.Schema

/-- The files loaded so far, in the order of loading, with the links between them and the warnings
about references, each with the number of the member that it is about. -/
structure Collection where
  members : List Member := []
  links : List Collection.Link := []
  warnings : List (Nat × Diagnostic) := []

namespace Collection

/-- A reference still to be followed. -/
structure Pending where
  source : Nat
  target : Target

def places (c : Collection) : List FileTree.Place :=
  c.members.map (·.place)

/-- The number of the member at a place. -/
def find? (c : Collection) (place : FileTree.Place) : Option Nat :=
  c.places.findIdx? (· == place)

def link (c : Collection) (p : Pending) (target : Nat) : Collection :=
  { c with links := c.links ++ [⟨p.source, target, p.target.redefines⟩] }

def warn (c : Collection) (member : Nat) (ds : List Diagnostic) : Collection :=
  { c with warnings := c.warnings ++ ds.map (member, ·) }

/-- Warns that a reference leads to nothing that can be read. -/
def warnUnreadable (c : Collection) (p : Pending) (reason : String) : Collection :=
  c.warn p.source [.warning ("Cannot read schema '" ++ p.target.path ++ "': " ++ reason) none]

/-- Takes up a file as the next member. References that lead nowhere are noted at once. -/
def add (c : Collection) (directory : FileTree.Place) (path : String) (m : Member) : Collection :=
  { c with members := c.members ++ [m] }.warn c.members.length
    (rejections (FileTree.placeText directory) path m.schema)

/-- The references of the next member, to be followed once it is taken up. -/
def pendingOf (c : Collection) (directory : FileTree.Place) (path : String)
    (s : Written.Schema) : List Pending :=
  (targets (FileTree.placeText directory) path s).map (⟨c.members.length, ·⟩)

/-- How many files of a tree are not loaded yet. -/
def unloaded (tree : FileTree) (c : Collection) : Nat :=
  (tree.files.filter fun f => !c.places.contains f.1).length

@[simp] theorem unloaded_warn (tree : FileTree) (c : Collection) (member : Nat)
    (ds : List Diagnostic) : (c.warn member ds).unloaded tree = c.unloaded tree := rfl

@[simp] theorem unloaded_warnUnreadable (tree : FileTree) (c : Collection) (p : Pending)
    (reason : String) : (c.warnUnreadable p reason).unloaded tree = c.unloaded tree := rfl

@[simp] theorem unloaded_link (tree : FileTree) (c : Collection) (p : Pending) (target : Nat) :
    (c.link p target).unloaded tree = c.unloaded tree := rfl

theorem mem_files_of_readAt {tree : FileTree} {place : FileTree.Place} {path : String}
    {s : Written.Schema} (h : readAt tree place path = .ok s) :
    ∃ bytes, (place, bytes) ∈ tree.files := by
  cases hf : tree.file? place with
  | none =>
    unfold readAt at h
    split at h <;> simp [FileTree.textAt, hf] at h
  | some bytes =>
    obtain ⟨before, rest, he, _⟩ := List.lookup_eq_some_iff.1 hf
    exact ⟨bytes, by simp [he]⟩

theorem not_mem_places_of_find? {c : Collection} {place : FileTree.Place}
    (h : c.find? place = none) : place ∉ c.places := by
  intro hm
  have := List.findIdx?_eq_none_iff.1 h place hm
  simp at this

theorem unloaded_add_lt {tree : FileTree} {c : Collection} {directory : FileTree.Place}
    {path : String} {m : Member} (hf : ∃ bytes, (m.place, bytes) ∈ tree.files)
    (hc : m.place ∉ c.places) : (c.add directory path m).unloaded tree < c.unloaded tree := by
  obtain ⟨bytes, hf⟩ := hf
  have h : (tree.files.filter fun f => !(c.add directory path m).places.contains f.1)
      = (tree.files.filter fun f => !c.places.contains f.1).filter (·.1 != m.place) := by
    rw [List.filter_filter]
    congr 1
    funext f
    by_cases hm : f.1 = m.place <;> simp [places, add, warn, hm]
  unfold unloaded
  rw [h]
  refine List.length_filter_lt_length_iff_exists.2 ⟨(m.place, bytes), ?_, by simp⟩
  simpa [hf] using hc

/-- Follows references. Those of a file that is loaded on the way come before the others. -/
def follow (tree : FileTree) (directory : FileTree.Place) (c : Collection) :
    List Pending → Collection
  | [] => c
  | p :: stack =>
    match tree.canonical directory p.target.path with
    | .error fault => follow tree directory (c.warnUnreadable p fault.message) stack
    | .ok place =>
      match hc : c.find? place with
      | some member => follow tree directory (c.link p member) stack
      | none =>
        match hs : readAt tree place p.target.path with
        | .error e => follow tree directory (c.warnUnreadable p e.message) stack
        | .ok schema =>
          have : ((c.add directory p.target.path ⟨place, schema⟩).link p
              c.members.length).unloaded tree < c.unloaded tree := by
            rw [unloaded_link]
            exact unloaded_add_lt (mem_files_of_readAt hs) (not_mem_places_of_find? hc)
          follow tree directory
            ((c.add directory p.target.path ⟨place, schema⟩).link p c.members.length)
            (c.pendingOf directory p.target.path schema ++ stack)
termination_by stack => (c.unloaded tree, stack.length)

/-- Loads root files and all that they refer to. Only a root that cannot be read is an error. -/
def addRoots (tree : FileTree) (directory : FileTree.Place) (c : Collection) :
    List String → Except Error Collection
  | [] => .ok c
  | path :: rest =>
    match tree.canonical directory path with
    | .error fault =>
      .error (.schema ("Cannot resolve schema path '" ++ path ++ "': " ++ fault.message))
    | .ok place =>
      match c.find? place with
      | some _ => addRoots tree directory c rest
      | none =>
        match readAt tree place path with
        | .error e => .error e
        | .ok schema =>
          let next := c.add directory path ⟨place, schema⟩
          addRoots tree directory (follow tree directory next (c.pendingOf directory path schema))
            rest

/-- The collection that root files lead to. -/
def ofRoots (tree : FileTree) (directory : FileTree.Place) (roots : List String) :
    Except Error Collection :=
  addRoots tree directory {} roots

/-- The schema of a member, with the warnings about its references behind its own diagnostics. -/
def schemaOf (c : Collection) (member : Nat) : Option Written.Schema :=
  c.members[member]?.map fun m =>
    { m.schema with diagnostics :=
        m.schema.diagnostics ++ (c.warnings.filter (·.1 == member)).map (·.2) }

/-- The schemas of all members, redefined ones before those that redefine them. -/
def schemas (c : Collection) : List Written.Schema :=
  (order c.members.length c.links).filterMap c.schemaOf

/-- Reads root files and all that they refer to. -/
def readSchemas (tree : FileTree) (directory : FileTree.Place) (roots : List String) :
    Except Error (List Written.Schema) :=
  (ofRoots tree directory roots).map (·.schemas)

end Collection

namespace Catalog

/-- The catalog of root files and all that they refer to. -/
def loadFiles (tree : FileTree) (directory : FileTree.Place) (roots : List String) :
    Except Error Catalog :=
  (Collection.readSchemas tree directory roots).map (load ·)

end Catalog

end XsdCatalog
