/-!
# Paths

Paths are texts whose parts are separated by slashes. A part that is empty or a single dot stays
where it is, except that a path may begin with a dot.
-/

namespace XsdCatalog.Path

/-- The parts of a path, in order. `part` holds the characters of the part read so far. -/
def partsFrom (part : List Char) : List Char → List String
  | [] => [String.ofList part.reverse]
  | c :: cs =>
    if c = '/' then String.ofList part.reverse :: partsFrom [] cs
    else partsFrom (c :: part) cs

def parts (path : String) : List String :=
  partsFrom [] path.toList

def isAbsolute (path : String) : Bool :=
  path.toList.head? == some '/'

/-- A path seen from a directory. -/
def join (directory path : String) : String :=
  if isAbsolute path then path
  else if directory = "" || directory.toList.getLast? == some '/' then directory ++ path
  else directory ++ "/" ++ path

/-- Drops parts that name nothing from the end of a path; the parts stand last one first. -/
def dropIdle (absolute : Bool) : List String → List String
  | [] => []
  | [part] => if part = "" || (absolute && part = ".") then [] else [part]
  | part :: rest => if part = "" || part = "." then dropIdle absolute rest else part :: rest

/-- The directory that holds what a path names; none for the root and for the empty path. -/
def parent? (path : String) : Option String :=
  let absolute := isAbsolute path
  let body := if absolute then (parts path).tail else parts path
  match dropIdle absolute body.reverse with
  | [] => none
  | _ :: rest =>
    let text := "/".intercalate (dropIdle absolute rest).reverse
    some (if absolute then "/" ++ text else text)

end XsdCatalog.Path
