/-!
# Registries

A registry files values under texts. The texts stand in the order in which they were first filed;
filing under a text that is there replaces its value and keeps its place.
-/

namespace XsdCatalog

structure Registry (α : Type) where
  entries : List (String × α) := []

namespace Registry

variable {α : Type}

def keys (r : Registry α) : List String :=
  r.entries.map (·.1)

def values (r : Registry α) : List α :=
  r.entries.map (·.2)

def size (r : Registry α) : Nat :=
  r.entries.length

def isEmpty (r : Registry α) : Bool :=
  r.entries.isEmpty

def get? (r : Registry α) (key : String) : Option α :=
  r.entries.lookup key

def contains (r : Registry α) (key : String) : Bool :=
  (r.get? key).isSome

theorem mem_keys_of_get? {r : Registry α} {key : String} {a : α} (h : r.get? key = some a) :
    key ∈ r.keys := by
  obtain ⟨before, rest, he, _⟩ := List.lookup_eq_some_iff.1 h
  simp [keys, he]

/-- The entries with a value filed under a key. -/
def file (key : String) (a : α) : List (String × α) → List (String × α)
  | [] => [(key, a)]
  | (k, b) :: rest => if k = key then (key, a) :: rest else (k, b) :: file key a rest

def insert (r : Registry α) (key : String) (a : α) : Registry α :=
  ⟨file key a r.entries⟩

/-- The registry in which the pairs are filed one after the other. -/
def ofList (pairs : List (String × α)) : Registry α :=
  pairs.foldl (fun r p => r.insert p.1 p.2) {}

/-- Registries agree if the same keys have values that agree, in whatever order. -/
instance [BEq α] : BEq (Registry α) :=
  ⟨fun r s => r.size == s.size && r.entries.all fun p => s.get? p.1 == some p.2⟩

end Registry

end XsdCatalog
