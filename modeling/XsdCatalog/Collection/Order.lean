/-!
# The order of a collection

Members come in the order in which they were loaded, each before the members it refers to, except
that a redefined member comes before the one that redefines it.
-/

namespace XsdCatalog.Collection

/-- One member refers to another; both are numbered in the order of loading. -/
structure Link where
  source : Nat
  target : Nat
  redefines : Bool
deriving DecidableEq, Repr

/-- The members that a member refers to. -/
def linked (links : List Link) (redefines : Bool) (member : Nat) : List Nat :=
  (links.filter fun l => l.source == member && l.redefines == redefines).map (·.target)

/-- What is left to do: enter a member and all that it refers to, or put it into the order. -/
inductive Task
  | enter (member : Nat)
  | place (member : Nat)
deriving DecidableEq, Repr

/-- The tasks that entering a member amounts to. -/
def tasks (links : List Link) (member : Nat) : List Task :=
  (linked links true member).map .enter ++ .place member :: (linked links false member).map .enter

/-- How many of the first `count` members are not entered yet. -/
def unentered (count : Nat) (entered : List Nat) : Nat :=
  ((List.range count).filter fun member => !entered.contains member).length

private theorem unentered_cons_lt {count member : Nat} {entered : List Nat} (hc : member < count)
    (he : member ∉ entered) : unentered count (member :: entered) < unentered count entered := by
  unfold unentered
  have h : ((List.range count).filter fun m => !(member :: entered).contains m)
      = ((List.range count).filter fun m => !entered.contains m).filter (· != member) := by
    rw [List.filter_filter]
    congr 1
    funext m
    by_cases hm : m = member <;> simp [hm]
  rw [h]
  refine List.length_filter_lt_length_iff_exists.2 ⟨member, ?_, by simp⟩
  simp_all

/-- Works off tasks. A member that was entered before is not entered again, so circles end. -/
def arrange (count : Nat) (links : List Link) (entered : List Nat) : List Task → List Nat
  | [] => []
  | .place member :: rest => member :: arrange count links entered rest
  | .enter member :: rest =>
    if h : member < count ∧ member ∉ entered then
      have := unentered_cons_lt h.1 h.2
      arrange count links (member :: entered) (tasks links member ++ rest)
    else arrange count links entered rest
termination_by rest => (unentered count entered, rest.length)

/-- The order of `count` members with these links. -/
def order (count : Nat) (links : List Link) : List Nat :=
  arrange count links [] ((List.range count).map .enter)

end XsdCatalog.Collection
