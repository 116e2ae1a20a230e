import XsdCatalog.Interpretation.AttributeGroup

/-!
# Expansion by recursion

The rules of expansion take the items of an owner one after the other and go into each group where
it is referred to. They are recursive: behind a group the next item goes on with the keys that were
visited inside it. The rules give all items exactly one result, since every group that they go into
leaves one declared group less to visit. Working off a stack comes to the same: the first row gives
what the rules say, and the rows below go on with the keys that it leaves visited.
-/

namespace XsdCatalog.AttributeScope

open Written (AttributeItem)

/-- One expansion and another one behind it. -/
def andThen (first second : Noted Expansion) : Noted Expansion := do
  let e ← first
  let rest ← second
  return rest.after e.uses

/-- The rules of expansion. A group that was visited is passed over. A declared one is visited and
its items are expanded in its place. One that is only among the finished groups is visited and has
the uses that it was filed with. One that is unknown has none and is not visited. -/
inductive Expands (scope : AttributeScope) :
    List String → List AttributeItem → Noted Expansion → Prop
  | nil {visited : List String} : Expands scope visited [] (pure ⟨[], visited⟩)
  | direct {visited : List String} {a : Written.Attribute} {items : List AttributeItem}
      {rest : Noted Expansion} :
    Expands scope visited items rest →
      Expands scope visited (.attribute a :: items) (do
        let u ← a.interpretUse
        let e ← rest
        return e.after [u])
  | visited {visited : List String} {name : QName} {items : List AttributeItem}
      {rest : Noted Expansion} :
    name.key ∈ visited → Expands scope visited items rest →
      Expands scope visited (.group name :: items) rest
  | declared {visited : List String} {name : QName} {g : Written.AttributeGroup}
      {items : List AttributeItem} {inner rest : Noted Expansion} :
    name.key ∉ visited → scope.declared.get? name.key = some g →
      Expands scope (name.key :: visited) g.attributes.items inner →
      Expands scope inner.value.visited items rest →
      Expands scope visited (.group name :: items) (andThen inner rest)
  | finished {visited : List String} {name : QName} {g : AttributeGroup}
      {items : List AttributeItem} {rest : Noted Expansion} :
    name.key ∉ visited → scope.declared.get? name.key = none →
      scope.finished.get? name.key = some g →
      Expands scope (name.key :: visited) items rest →
      Expands scope visited (.group name :: items) (do
        let e ← rest
        return e.after g.attributes)
  | unknown {visited : List String} {name : QName} {items : List AttributeItem}
      {rest : Noted Expansion} :
    name.key ∉ visited → scope.declared.get? name.key = none →
      scope.finished.get? name.key = none → Expands scope visited items rest →
      Expands scope visited (.group name :: items) rest

variable {scope : AttributeScope} {visited : List String}

private theorem target_of_mem {key : String} (h : key ∈ visited) :
    scope.target visited key = .nothing := by
  simp [target, h]

private theorem target_of_declared {key : String} {g : Written.AttributeGroup} (h : key ∉ visited)
    (hd : scope.declared.get? key = some g) :
    scope.target visited key = .declaration g.attributes.items := by
  simp [target, h, hd]

private theorem target_of_finished {key : String} {g : AttributeGroup} (h : key ∉ visited)
    (hd : scope.declared.get? key = none) (hf : scope.finished.get? key = some g) :
    scope.target visited key = .finished g.attributes := by
  simp [target, h, hd, hf]

private theorem target_of_unknown {key : String} (hd : scope.declared.get? key = none)
    (hf : scope.finished.get? key = none) : scope.target visited key = .nothing := by
  simp [target, hd, hf]

private theorem andThen_start (second : Noted Expansion) :
    andThen (pure ⟨[], visited⟩) second = second :=
  Noted.eq_of_value_of_notes rfl (by simp [andThen])

theorem andThen_end (first : Noted Expansion) :
    andThen first (pure ⟨[], first.value.visited⟩) = first := by
  apply Noted.eq_of_value_of_notes
  · simp [andThen, Expansion.after]
  · simp [andThen]

private theorem andThen_assoc (first second third : Noted Expansion) :
    andThen (andThen first second) third = andThen first (andThen second third) := by
  apply Noted.eq_of_value_of_notes
  · simp [andThen, Expansion.after]
  · simp [andThen]

/-- What the rules say about a row is what the stack comes to with this row on top, with the rows
below behind it. The induction is on the rules: inside a group the row that refers to it is the
first one below. -/
theorem Expands.expandStack_cons {items : List AttributeItem} {x : Noted Expansion}
    (h : scope.Expands visited items x) (stack : List (List AttributeItem)) :
    scope.expandStack visited (items :: stack)
      = andThen x (scope.expandStack x.value.visited stack) := by
  induction h generalizing stack with
  | nil =>
    rw [andThen_start, expandStack]
    rfl
  | direct _ ih =>
    rw [expandStack, ih]
    apply Noted.eq_of_value_of_notes
    · simp [andThen, Expansion.after]
    · simp [andThen, Expansion.after]
  | visited hv _ ih =>
    rw [expandStack, target_of_mem hv]
    exact ih stack
  | @declared _ _ _ items _ _ hn hd _ _ ihInner ihRest =>
    have hbehind := ihInner (items :: stack)
    rw [expandStack, target_of_declared hn hd, andThen_assoc]
    rw [ihRest] at hbehind
    exact hbehind
  | finished hn hd hf _ ih =>
    rw [expandStack, target_of_finished hn hd hf]
    simp only [ih]
    apply Noted.eq_of_value_of_notes
    · simp [andThen, Expansion.after]
    · simp [andThen, Expansion.after]
  | unknown hn hd hf _ ih =>
    rw [expandStack, target_of_unknown hd hf]
    exact ih stack

theorem Expands.expand_eq {items : List AttributeItem} {x : Noted Expansion}
    (h : scope.Expands visited items x) : scope.expand visited items = x := by
  rw [expand, h.expandStack_cons, expandStack, andThen_end]

/-- The rules come to an end: inside a declared group there are fewer groups left to visit, and
behind it there are no more than inside. -/
theorem exists_expands (scope : AttributeScope) (visited : List String)
    (items : List AttributeItem) :
    ∃ x, scope.Expands visited items x ∧ scope.fresh x.value.visited ≤ scope.fresh visited := by
  match items with
  | [] => exact ⟨_, .nil, Nat.le_refl _⟩
  | .attribute a :: items =>
    obtain ⟨x, hx, hle⟩ := exists_expands scope visited items
    exact ⟨_, .direct hx, hle⟩
  | .group name :: items =>
    by_cases hv : name.key ∈ visited
    · obtain ⟨x, hx, hle⟩ := exists_expands scope visited items
      exact ⟨x, .visited hv hx, hle⟩
    · cases hd : scope.declared.get? name.key with
      | some g =>
        have hlt := fresh_cons_lt (Registry.mem_keys_of_get? hd) hv
        obtain ⟨inner, hinner, hle⟩ := exists_expands scope (name.key :: visited) g.attributes.items
        obtain ⟨x, hx, hle'⟩ := exists_expands scope inner.value.visited items
        refine ⟨_, .declared hv hd hinner hx, ?_⟩
        exact Nat.le_trans hle' (Nat.le_trans hle (Nat.le_of_lt hlt))
      | none =>
        cases hf : scope.finished.get? name.key with
        | some g =>
          have hle := scope.fresh_cons_le visited name.key
          obtain ⟨x, hx, hle'⟩ := exists_expands scope (name.key :: visited) items
          exact ⟨_, .finished hv hd hf hx, Nat.le_trans hle' hle⟩
        | none =>
          obtain ⟨x, hx, hle⟩ := exists_expands scope visited items
          exact ⟨x, .unknown hv hd hf hx, hle⟩
termination_by (scope.fresh visited, items.length)
decreasing_by
  · exact Prod.Lex.right _ (Nat.lt_succ_self _)
  · exact Prod.Lex.right _ (Nat.lt_succ_self _)
  · exact Prod.Lex.right _ (Nat.lt_succ_self _)
  · exact Prod.Lex.right' _ hle (Nat.lt_succ_self _)
  · exact Prod.Lex.left _ _ hlt
  · exact Prod.Lex.left _ _ (Nat.lt_of_le_of_lt hle hlt)

theorem expands_expand (scope : AttributeScope) (visited : List String)
    (items : List AttributeItem) : scope.Expands visited items (scope.expand visited items) := by
  obtain ⟨x, hx, -⟩ := exists_expands scope visited items
  rw [hx.expand_eq]
  exact hx

/-- Expansion with a stack is expansion by the rules, for the items of one owner and for a name:
the same uses, the same visited keys and the same notes, and both always come to an end. The first
row of a stack is expanded by the rules before the rows below. -/
theorem expands_iff_expand (scope : AttributeScope) (visited : List String) :
    (∀ items result, scope.Expands visited items result ↔ scope.expand visited items = result) ∧
    (∀ name result,
      scope.Expands visited [.group name] result ↔ scope.expandName visited name = result) ∧
    ∀ items stack, scope.expandStack visited (items :: stack)
      = andThen (scope.expand visited items)
        (scope.expandStack (scope.expand visited items).value.visited stack) := by
  have hiff (items : List AttributeItem) (result : Noted Expansion) :
      scope.Expands visited items result ↔ scope.expand visited items = result := by
    constructor
    · exact Expands.expand_eq
    · rintro rfl
      exact expands_expand scope visited items
  refine ⟨hiff, fun name => hiff [.group name], ?_⟩
  intro items stack
  exact (expands_expand scope visited items).expandStack_cons stack

end XsdCatalog.AttributeScope
