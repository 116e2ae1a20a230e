import XsdCatalog.Interpretation.Attribute
import XsdCatalog.Registry

/-!
# The expansion of attribute groups

References to attribute groups are replaced by the attributes of the groups, which may refer to
further groups. A group counts once for each owner, so that groups may refer to each other in
circles. What stands in a group is always taken from its declaration, never from a group that is
expanded already; only names that are declared nowhere are looked up among finished groups.
-/

namespace XsdCatalog

/-- Where expansion finds attribute groups. -/
structure AttributeScope where
  declared : Registry Written.AttributeGroup := {}
  finished : Registry AttributeGroup := {}

/-- The uses that a row of items stands for, and the keys of all groups counted so far. -/
structure Expansion where
  uses : List AttributeUse
  visited : List String

namespace Expansion

/-- The expansion with uses put before its own. -/
def after (uses : List AttributeUse) (e : Expansion) : Expansion :=
  { e with uses := uses ++ e.uses }

end Expansion

namespace AttributeScope

/-- The attribute groups that schemas declare. Of several with one name the last one counts. -/
def ofSchemas (schemas : List Written.Schema) : AttributeScope where
  declared := .ofList ((schemas.flatMap (·.attributeGroups)).map fun g => (g.name.key, g))

/-- What a name refers to, if its group is not counted yet. -/
inductive Target
  | declaration (items : List Written.AttributeItem)
  | finished (uses : List AttributeUse)
  | nothing

def target (scope : AttributeScope) (visited : List String) (key : String) : Target :=
  if visited.contains key then .nothing
  else
    match scope.declared.get? key with
    | some g => .declaration g.attributes.items
    | none =>
      match scope.finished.get? key with
      | some g => .finished g.attributes
      | none => .nothing

/-- How many declared groups are not counted yet. -/
def fresh (scope : AttributeScope) (visited : List String) : Nat :=
  (scope.declared.keys.filter fun key => !visited.contains key).length

/-- How much is left on a stack of rows of items. -/
def pending : List (List Written.AttributeItem) → Nat
  | [] => 0
  | items :: stack => items.length + 1 + pending stack

theorem fresh_cons_le (scope : AttributeScope) (visited : List String) (key : String) :
    scope.fresh (key :: visited) ≤ scope.fresh visited := by
  unfold fresh
  rw [← List.countP_eq_length_filter, ← List.countP_eq_length_filter]
  apply List.countP_mono_left
  intro k _ h
  simp_all

private theorem of_target_eq_declaration {scope : AttributeScope} {visited : List String}
    {key : String}
    {items : List Written.AttributeItem} (h : scope.target visited key = .declaration items) :
    key ∈ scope.declared.keys ∧ key ∉ visited := by
  unfold target at h
  split at h
  · cases h
  · next hv =>
    split at h
    · next g hg => exact ⟨Registry.mem_keys_of_get? hg, by simpa using hv⟩
    · split at h <;> cases h

theorem fresh_cons_lt {scope : AttributeScope} {visited : List String} {key : String}
    (hk : key ∈ scope.declared.keys) (hv : key ∉ visited) :
    scope.fresh (key :: visited) < scope.fresh visited := by
  unfold fresh
  have he : (scope.declared.keys.filter fun k => !(key :: visited).contains k)
      = (scope.declared.keys.filter fun k => !visited.contains k).filter (· != key) := by
    rw [List.filter_filter]
    congr 1
    funext k
    by_cases hkk : k = key <;> simp [hkk]
  rw [he]
  refine List.length_filter_lt_length_iff_exists.2 ⟨key, ?_, by simp⟩
  simp_all

/-- Works off a stack of rows of items. The items of a group go on top of the row that refers to
it. -/
def expandStack (scope : AttributeScope) (visited : List String) :
    List (List Written.AttributeItem) → Noted Expansion
  | [] => pure ⟨[], visited⟩
  | [] :: stack => expandStack scope visited stack
  | (.attribute a :: items) :: stack => do
    let u ← a.interpretUse
    let rest ← expandStack scope visited (items :: stack)
    return rest.after [u]
  | (.group name :: items) :: stack =>
    match _h : scope.target visited name.key with
    | .declaration inner => expandStack scope (name.key :: visited) (inner :: items :: stack)
    | .finished uses => do
      let rest ← expandStack scope (name.key :: visited) (items :: stack)
      return rest.after uses
    | .nothing => expandStack scope visited (items :: stack)
termination_by stack => (scope.fresh visited, pending stack)
decreasing_by
  · exact Prod.Lex.right _ (by simp [pending])
  · exact Prod.Lex.right _ (by simp [pending])
  · obtain ⟨hk, hv⟩ := of_target_eq_declaration _h
    exact Prod.Lex.left _ _ (fresh_cons_lt hk hv)
  · rcases Nat.lt_or_eq_of_le (fresh_cons_le scope visited name.key) with hlt | heq
    · exact Prod.Lex.left _ _ hlt
    · rw [heq]
      exact Prod.Lex.right _ (by simp [pending])
  · exact Prod.Lex.right _ (by simp [pending])

/-- The uses that items of one owner stand for. Groups in `visited` count as nothing. -/
def expand (scope : AttributeScope) (visited : List String) (items : List Written.AttributeItem) :
    Noted Expansion :=
  scope.expandStack visited [items]

/-- The uses that the name of an attribute group stands for. -/
def expandName (scope : AttributeScope) (visited : List String) (name : QName) :
    Noted Expansion :=
  scope.expand visited [.group name]

end AttributeScope

namespace Written.AttributeGroup

/-- The attributes of a group. It counts as visited itself, so that it adds nothing to itself. -/
def expand (scope : AttributeScope) (g : AttributeGroup) : Noted (List AttributeUse) := do
  let expansion ← scope.expand [g.name.key] g.attributes.items
  return expansion.uses

def interpret (scope : AttributeScope) (g : AttributeGroup) : Noted XsdCatalog.AttributeGroup := do
  let attributes ← g.expand scope
  return {
    name := g.name
    attributes
    wildcard := g.attributes.wildcard.map Wildcard.interpret
    documentation := Documentation.join g.documentation
    source := g.source }

end Written.AttributeGroup

end XsdCatalog
