import XsdCatalog.Fragment.Piece

/-!
# Namespace declarations of a tag

Attributes are read from the raw bytes of a tag. One without value or without quotes is passed
over, and so is one whose key has stood before an equals sign already. Declarations are the
attributes `xmlns` and `xmlns:` with something behind it; their values stay as they are written.
-/

namespace XsdCatalog.Fragment

structure Declaration where
  key : Bytes
  value : Bytes
deriving DecidableEq, Repr

namespace Declaration

/-- What stands behind an equals sign: the value if it is in quotes, and what follows it. None if
there is no value or its last quote is missing. -/
def value? (bytes : Bytes) : Option (Option Bytes × Bytes) :=
  match bytes.dropWhile isSpace with
  | [] => none
  | q :: rest =>
    if q = 0x22 ∨ q = 0x27 then
      match rest.dropWhile (· != q) with
      | [] => none
      | _ :: after => some (some (rest.takeWhile (· != q)), after)
    else some (none, rest.dropWhile (!isSpace ·))

private theorem length_dropWhile_le {α : Type} (p : α → Bool) (xs : List α) :
    (xs.dropWhile p).length ≤ xs.length :=
  (List.dropWhile_suffix p).length_le

private theorem value?_length {bytes after : Bytes} {value : Option Bytes}
    (h : value? bytes = some (value, after)) : after.length ≤ bytes.length := by
  unfold value? at h
  have hd := length_dropWhile_le isSpace bytes
  split at h
  · cases h
  · next q rest he =>
    rw [he, List.length_cons] at hd
    split at h
    · have hr := length_dropWhile_le (· != q) rest
      split at h
      · cases h
      · next he' =>
        rw [he', List.length_cons] at hr
        cases h
        omega
    · cases h
      have := length_dropWhile_le (!isSpace ·) rest
      omega

/-- The attributes in the bytes of a tag behind its name. `seen` holds the keys that have stood
before an equals sign. Behind the equals sign of a key that has been seen, reading goes on at the
next space, also where this space stands inside quotes. -/
def attributes (seen : List Bytes) (bytes : Bytes) : List Declaration :=
  match _h : bytes.dropWhile isSpace with
  | [] => []
  | first :: rest =>
    let key := first :: rest.takeWhile fun b => b != 0x3D && !isSpace b
    match _hk : (rest.dropWhile fun b => b != 0x3D && !isSpace b).dropWhile isSpace with
    | [] => []
    | b :: behind =>
      if b = 0x3D then
        if seen.contains key then attributes seen (behind.dropWhile (!isSpace ·))
        else
          match _hv : value? behind with
          | none => []
          | some (value, after) =>
            (value.map fun v => ⟨key, v⟩).toList ++ attributes (key :: seen) after
      else attributes seen (b :: behind)
termination_by bytes.length
decreasing_by
  all_goals
    have h1 := length_dropWhile_le isSpace bytes
    have h2 := length_dropWhile_le (fun b => b != 0x3D && !isSpace b) rest
    have h3 := length_dropWhile_le isSpace (rest.dropWhile fun b => b != 0x3D && !isSpace b)
    have h4 := length_dropWhile_le (!isSpace ·) behind
    rw [_h, List.length_cons] at h1
    rw [_hk, List.length_cons] at h3
    try have h5 := value?_length (by assumption)
    try simp only [List.length_cons]
    omega

/-- An attribute that declares a namespace. -/
def declares (d : Declaration) : Bool :=
  d.key == ascii "xmlns" || (ascii "xmlns:").isPrefixOf d.key

/-- The namespace declarations in the body of a start tag. -/
def ofTag (body : Bytes) : List Declaration :=
  (attributes [] (body.dropWhile (!isSpace ·))).filter declares

/-- Declarations by key; a later one takes the place of an earlier one. -/
def put (ds : List Declaration) (d : Declaration) : List Declaration :=
  if ds.any (·.key == d.key) then ds.map fun e => if e.key == d.key then d else e
  else ds ++ [d]

/-- The declarations in force inside open elements, given from the outermost inwards. -/
def inForce (scopes : List (List Declaration)) : List Declaration :=
  scopes.flatten.foldl put []

/-- The declarations that a tag has to be given when it is taken out of its document. -/
def missing (own : List Declaration) (scopes : List (List Declaration)) : List Declaration :=
  (inForce scopes).filter fun d =>
    !own.any (·.key == d.key) && (!d.value.isEmpty || d.key == ascii "xmlns")

/-- A declaration as it is appended to a tag. -/
def written (d : Declaration) : Bytes :=
  0x20 :: d.key ++ ascii "=\"" ++ d.value ++ ascii "\""

/-- The body of a tag with the declarations it inherits. -/
def withInherited (scopes : List (List Declaration)) (body : Bytes) : Bytes :=
  body ++ (missing (ofTag body) scopes).flatMap written

end Declaration
end XsdCatalog.Fragment
