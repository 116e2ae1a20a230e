import Mathlib.Data.List.Perm.Basic
import XsdCatalog.Interpretation.AttributeGroup

/-!
# Attribute groups that references reach

Expansion enters a declared group at the first reference to it and never again. What it enters is
what the references of the start reach along declared groups that were not visited before, however
the references run in circles. To tell whose attribute a use is, the rows of the stack and the uses
are labelled with the key of their group; the row of an owner has no label.
-/

namespace XsdCatalog.AttributeScope

open Written (AttributeItem)

/-- The group under this key is declared and was not visited. -/
def IsOpen (scope : AttributeScope) (visited : List String) (key : String) : Prop :=
  key ∉ visited ∧ (scope.declared.get? key).isSome

/-- The items of the group declared under a key; there are none if none is. -/
def itemsOf (scope : AttributeScope) (key : String) : List AttributeItem :=
  match scope.declared.get? key with
  | some g => g.attributes.items
  | none => []

/-- The keys that items refer to, in their order. -/
def references : List AttributeItem → List String
  | [] => []
  | .attribute _ :: items => references items
  | .group name :: items => name.key :: references items

/-- The attributes that stand among items themselves, in their order. -/
def directUses : List AttributeItem → List AttributeUse
  | [] => []
  | .attribute a :: items => a.interpretUse.value :: directUses items
  | .group _ :: items => directUses items

/-- References lead from one key to another through open groups only, both ends included. -/
inductive Reaches (scope : AttributeScope) (visited : List String) : String → String → Prop
  | here {key : String} : scope.IsOpen visited key → Reaches scope visited key key
  | step {start key next : String} : Reaches scope visited start key →
      next ∈ references (scope.itemsOf key) → scope.IsOpen visited next →
      Reaches scope visited start next

variable {scope : AttributeScope} {visited : List String}

private theorem IsOpen.of_cons {key other : String} (h : scope.IsOpen (other :: visited) key) :
    scope.IsOpen visited key :=
  ⟨fun hv => h.1 (List.mem_cons_of_mem _ hv), h.2⟩

private theorem Reaches.of_cons {start key other : String}
    (h : Reaches scope (other :: visited) start key) : Reaches scope visited start key := by
  induction h with
  | here ho => exact .here ho.of_cons
  | step _ hr ho ih => exact .step ih hr ho.of_cons

/-- A path may begin one reference earlier. -/
theorem Reaches.cons {start next key : String} (ho : scope.IsOpen visited start)
    (hr : next ∈ references (scope.itemsOf start)) (h : Reaches scope visited next key) :
    Reaches scope visited start key := by
  induction h with
  | here hn => exact .step (.here ho) hr hn
  | step _ hr' ho' ih => exact .step ih hr' ho'

/-- A row of the stack with the key of its group. -/
abbrev Row := Option String × List AttributeItem

/-- What a run over labelled rows comes to: the uses with their labels, and the keys of the groups
entered on the way, first one first. -/
structure Covers (scope : AttributeScope) (visited : List String) (rows : List Row)
    (e : Expansion) (labelled : List (Option String × AttributeUse)) (entered : List String) :
    Prop where
  uses_eq : e.uses = labelled.map (·.2)
  visited_eq : e.visited = entered.reverse ++ visited
  nodup : entered.Nodup
  isOpen : ∀ key ∈ entered, scope.IsOpen visited key
  /-- Uses have the label of a row or of a group entered. -/
  labels : ∀ p ∈ labelled, p.1 ∈ rows.map (·.1) ∨ ∃ key ∈ entered, p.1 = some key
  /-- Under any other label than those of the groups entered stand the rows' own attributes. -/
  of_rows : ∀ label, (∀ key ∈ entered, label ≠ some key) →
    (labelled.filter (·.1 == label)).map (·.2)
      = (rows.filter (·.1 == label)).flatMap (directUses ·.2)
  /-- A group entered gives its own attributes under its key. -/
  of_groups : ∀ key ∈ entered,
    (labelled.filter (·.1 == some key)).map (·.2) = directUses (scope.itemsOf key)
  /-- An open group that the rows or the groups entered refer to is entered. -/
  closed : ∀ key, scope.IsOpen visited key → key ∈ rows.flatMap (references ·.2) ∨
    (∃ k ∈ entered, key ∈ references (scope.itemsOf k)) → key ∈ entered
  /-- Nothing is entered that the rows do not reach. -/
  reached : ∀ key ∈ entered, ∃ start ∈ rows.flatMap (references ·.2),
    Reaches scope visited start key

/-- A row that says nothing. -/
theorem Covers.nil_row {rows : List Row} {e : Expansion} {label : Option String}
    {labelled : List (Option String × AttributeUse)} {entered : List String}
    (h : Covers scope visited rows e labelled entered) :
    Covers scope visited ((label, []) :: rows) e labelled entered where
  uses_eq := h.uses_eq
  visited_eq := h.visited_eq
  nodup := h.nodup
  isOpen := h.isOpen
  labels p hp := (h.labels p hp).imp_left (List.mem_cons_of_mem _)
  of_rows other ho := by
    rw [h.of_rows other ho]
    by_cases he : label = other
    · simp [he, directUses]
    · simp [he]
  of_groups := h.of_groups
  closed := by simpa [references] using h.closed
  reached := by simpa [references] using h.reached

/-- An attribute in front of the first row. -/
theorem Covers.attribute {rows : List Row} {e : Expansion} {label : Option String}
    {items : List AttributeItem} {labelled : List (Option String × AttributeUse)}
    {entered : List String} (a : Written.Attribute)
    (hl : ∀ key ∈ entered, label ≠ some key)
    (h : Covers scope visited ((label, items) :: rows) e labelled entered) :
    Covers scope visited ((label, .attribute a :: items) :: rows)
      (e.after [a.interpretUse.value]) ((label, a.interpretUse.value) :: labelled) entered where
  uses_eq := by simp [Expansion.after, h.uses_eq]
  visited_eq := h.visited_eq
  nodup := h.nodup
  isOpen := h.isOpen
  labels p hp := by
    rcases List.mem_cons.1 hp with rfl | hp
    · simp
    · simpa using h.labels p hp
  of_rows other ho := by
    have hr := h.of_rows other ho
    by_cases he : label = other
    · subst he
      simpa [directUses] using hr
    · simpa [he] using hr
  of_groups key hk := by
    have hne := hl key hk
    simpa [hne] using h.of_groups key hk
  closed := by simpa [references] using h.closed
  reached := by simpa [references] using h.reached

/-- A reference in front of the first row to a group that is not entered. -/
theorem Covers.skip {rows : List Row} {e : Expansion} {label : Option String}
    {items : List AttributeItem} {labelled : List (Option String × AttributeUse)}
    {entered : List String} {name : QName} (hn : ¬ scope.IsOpen visited name.key)
    (h : Covers scope visited ((label, items) :: rows) e labelled entered) :
    Covers scope visited ((label, .group name :: items) :: rows) e labelled entered where
  uses_eq := h.uses_eq
  visited_eq := h.visited_eq
  nodup := h.nodup
  isOpen := h.isOpen
  labels := by simpa using h.labels
  of_rows other ho := by
    have hr := h.of_rows other ho
    by_cases he : label = other
    · subst he
      simpa [directUses] using hr
    · simpa [he] using hr
  of_groups := h.of_groups
  closed key ho hk := by
    have hne : key ≠ name.key := fun he => hn (he ▸ ho)
    apply h.closed key ho
    simpa [references, hne] using hk
  reached key hk := by
    obtain ⟨start, hs, hr⟩ := h.reached key hk
    refine ⟨start, ?_, hr⟩
    simp only [List.flatMap_cons, references, List.cons_append, List.mem_cons] at hs ⊢
    exact .inr hs

/-- A reference in front of the first row to a group that is entered. -/
theorem Covers.enter {rows : List Row} {e : Expansion} {label : Option String}
    {items : List AttributeItem} {labelled : List (Option String × AttributeUse)}
    {entered : List String} {name : QName} (ho : scope.IsOpen visited name.key)
    (hl : ∀ row ∈ (label, items) :: rows, row.1 ≠ some name.key)
    (h : Covers scope (name.key :: visited)
      ((some name.key, scope.itemsOf name.key) :: (label, items) :: rows) e labelled entered) :
    Covers scope visited ((label, .group name :: items) :: rows) e labelled
      (name.key :: entered) where
  uses_eq := h.uses_eq
  visited_eq := by simp [h.visited_eq]
  nodup := List.nodup_cons.2 ⟨fun hm => (h.isOpen _ hm).1 List.mem_cons_self, h.nodup⟩
  isOpen key hk := by
    rcases List.mem_cons.1 hk with rfl | hk
    · exact ho
    · exact (h.isOpen key hk).of_cons
  labels p hp := by
    rcases h.labels p hp with hr | ⟨key, hk, he⟩
    · simp only [List.map_cons, List.mem_cons] at hr ⊢
      rcases hr with hr | hr
      · exact .inr ⟨name.key, .inl rfl, hr⟩
      · exact .inl hr
    · exact .inr ⟨key, List.mem_cons_of_mem _ hk, he⟩
  of_rows other hother := by
    have hne : ¬ some name.key = other := fun he => hother name.key List.mem_cons_self he.symm
    have hr := h.of_rows other fun key hk => hother key (List.mem_cons_of_mem _ hk)
    by_cases he : label = other
    · subst he
      simpa [directUses, hne] using hr
    · simpa [he, hne] using hr
  of_groups key hk := by
    rcases List.mem_cons.1 hk with rfl | hk
    · -- The new row is the only one with this label, for the others were entered before.
      have hfresh : ∀ k ∈ entered, some name.key ≠ some k := fun k hk he =>
        (h.isOpen k hk).1 (by simp [Option.some.inj he])
      have hrest : ((label, items) :: rows).filter (·.1 == some name.key) = [] := by
        rw [List.filter_eq_nil_iff]
        intro row hrow
        simpa using hl row hrow
      rw [h.of_rows _ hfresh, List.filter_cons_of_pos (by simp), hrest]
      simp
    · exact h.of_groups key hk
  closed key hopen hk := by
    by_cases he : key = name.key
    · simp [he]
    · have hopen' : scope.IsOpen (name.key :: visited) key :=
        ⟨by simpa [he] using hopen.1, hopen.2⟩
      refine List.mem_cons_of_mem _ (h.closed key hopen' ?_)
      simp only [List.flatMap_cons, references, List.cons_append, List.mem_cons, he, false_or,
        List.mem_append, exists_eq_or_imp] at hk ⊢
      tauto
  reached key hk := by
    have hself : name.key ∈ ((label, .group name :: items) :: rows).flatMap (references ·.2) := by
      simp [references]
    rcases List.mem_cons.1 hk with rfl | hk
    · exact ⟨_, hself, .here ho⟩
    · obtain ⟨start, hs, hr⟩ := h.reached key hk
      rw [List.flatMap_cons, List.mem_append] at hs
      rcases hs with hs | hs
      · exact ⟨_, hself, .cons ho hs hr.of_cons⟩
      · refine ⟨start, ?_, hr.of_cons⟩
        simp only [List.flatMap_cons, references, List.cons_append, List.mem_cons] at hs ⊢
        exact .inr hs

private theorem of_target_declaration {key : String} {items : List AttributeItem}
    (h : scope.target visited key = .declaration items) :
    scope.IsOpen visited key ∧ items = scope.itemsOf key := by
  unfold target at h
  split at h
  · cases h
  · next hv =>
    split at h
    · next g hg =>
      cases h
      exact ⟨⟨by simpa using hv, by simp [hg]⟩, by simp [itemsOf, hg]⟩
    · split at h <;> cases h

private theorem target_of_isOpen {key : String} (h : scope.IsOpen visited key) :
    scope.target visited key = .declaration (scope.itemsOf key) := by
  obtain ⟨g, hg⟩ := Option.isSome_iff_exists.1 h.2
  simp [target, h.1, hg, itemsOf]

/-- A run over a stack without finished groups. The induction follows the run; the labels of the
rows are of visited groups, so a group that is entered has no row yet. -/
theorem covers_expandStack (hf : ∀ key, scope.finished.get? key = none) (rows : List Row)
    (hl : ∀ row ∈ rows, ∀ key, row.1 = some key → key ∈ visited) :
    ∃ labelled entered,
      Covers scope visited rows (scope.expandStack visited (rows.map (·.2))).value
        labelled entered := by
  generalize hs : rows.map (·.2) = stack
  fun_induction expandStack scope visited stack generalizing rows with
  | case1 visited =>
    obtain rfl := List.map_eq_nil_iff.1 hs
    exact ⟨[], [], by constructor <;> simp⟩
  | case2 visited stack ih =>
    obtain ⟨⟨label, items⟩, rows, rfl, he, htail⟩ := List.map_eq_cons_iff.1 hs
    obtain rfl : items = [] := he
    obtain ⟨labelled, entered, h⟩ :=
      ih rows (fun row hr => hl row (List.mem_cons_of_mem _ hr)) htail
    exact ⟨labelled, entered, h.nil_row⟩
  | case3 visited a items stack ih =>
    obtain ⟨⟨label, items'⟩, rows, rfl, he, htail⟩ := List.map_eq_cons_iff.1 hs
    obtain rfl : items' = .attribute a :: items := he
    obtain ⟨labelled, entered, h⟩ := ih ((label, items) :: rows)
      (by simpa using hl) (by simp [htail])
    refine ⟨_, entered, h.attribute a ?_⟩
    intro key hk he
    exact (h.isOpen key hk).1 (hl _ List.mem_cons_self key he)
  | case4 visited name items stack inner ht ih =>
    obtain ⟨⟨label, items'⟩, rows, rfl, he, htail⟩ := List.map_eq_cons_iff.1 hs
    obtain rfl : items' = .group name :: items := he
    obtain ⟨ho, rfl⟩ := of_target_declaration ht
    have hold : ∀ row ∈ (label, items) :: rows, ∀ key, row.1 = some key → key ∈ visited := by
      simpa using hl
    obtain ⟨labelled, entered, h⟩ := ih
      ((some name.key, scope.itemsOf name.key) :: (label, items) :: rows) (by
        intro row hr key hk
        rcases List.mem_cons.1 hr with rfl | hr
        · simp_all
        · exact List.mem_cons_of_mem _ (hold row hr key hk)) (by simp [htail])
    exact ⟨labelled, name.key :: entered,
      h.enter ho fun row hr he => ho.1 (hold row hr name.key he)⟩
  | case5 visited name items stack uses ht ih =>
    -- Nothing is finished, so no reference is to a finished group.
    unfold target at ht
    rw [hf] at ht
    split at ht
    · cases ht
    · split at ht <;> cases ht
  | case6 visited name items stack ht ih =>
    obtain ⟨⟨label, items'⟩, rows, rfl, he, htail⟩ := List.map_eq_cons_iff.1 hs
    obtain rfl : items' = .group name :: items := he
    obtain ⟨labelled, entered, h⟩ := ih ((label, items) :: rows)
      (by simpa using hl) (by simp [htail])
    refine ⟨labelled, entered, h.skip fun ho => ?_⟩
    rw [target_of_isOpen ho] at ht
    cases ht

/-- The groups entered are those that the rows reach. -/
theorem Covers.mem_entered_iff {rows : List Row} {e : Expansion}
    {labelled : List (Option String × AttributeUse)} {entered : List String}
    (h : Covers scope visited rows e labelled entered) {key : String} :
    key ∈ entered ↔ ∃ start ∈ rows.flatMap (references ·.2), Reaches scope visited start key := by
  refine ⟨h.reached key, ?_⟩
  rintro ⟨start, hs, hr⟩
  induction hr with
  | here ho => exact h.closed _ ho (.inl hs)
  | step _ hn ho ih => exact h.closed _ ho (.inr ⟨_, ih, hn⟩)

/-- Labelled values sorted by their labels. -/
theorem perm_flatMap_filter {α β : Type} [BEq α] [LawfulBEq α] (keys : List α) (hn : keys.Nodup)
    (labelled : List (α × β)) (hl : ∀ p ∈ labelled, p.1 ∈ keys) :
    labelled.Perm (keys.flatMap fun key => labelled.filter (·.1 == key)) := by
  induction labelled with
  | nil => simp
  | cons p labelled ih =>
    obtain ⟨before, after, rfl⟩ := List.append_of_mem (hl p List.mem_cons_self)
    have ih := ih fun q hq => hl q (List.mem_cons_of_mem _ hq)
    have hother : ∀ key, key ≠ p.1 →
        (p :: labelled).filter (·.1 == key) = labelled.filter (·.1 == key) := by
      intro key hk
      simp [Ne.symm hk]
    have hbefore : ∀ key ∈ before, key ≠ p.1 := by
      rintro key hk rfl
      exact (List.nodup_append.1 hn).2.2 _ hk _ List.mem_cons_self rfl
    have hafter : ∀ key ∈ after, key ≠ p.1 := by
      rintro key hk rfl
      exact (List.nodup_cons.1 (List.nodup_append.1 hn).2.1).1 hk
    rw [List.flatMap_append, List.flatMap_cons] at ih ⊢
    rw [List.flatMap_congr fun key hk => hother key (hbefore key hk),
      List.flatMap_congr fun key hk => hother key (hafter key hk),
      List.filter_cons_of_pos (by simp), List.cons_append]
    exact (ih.cons p).trans List.perm_middle.symm

/-- What a name stands for: the own attributes of the open groups that it reaches. -/
theorem expandName_covers (hf : ∀ key, scope.finished.get? key = none) (name : QName) :
    ∃ (groups : List String) (labelled : List (String × AttributeUse)),
      groups.Nodup ∧ (∀ key, key ∈ groups ↔ scope.Reaches visited name.key key) ∧
      (scope.expandName visited name).value = ⟨labelled.map (·.2), groups.reverse ++ visited⟩ ∧
      (∀ p ∈ labelled, p.1 ∈ groups) ∧
      ∀ key ∈ groups,
        (labelled.filter (·.1 == key)).map (·.2) = directUses (scope.itemsOf key) := by
  have hrun : ∃ labelled groups, Covers scope visited [(none, [.group name])]
      (scope.expandName visited name).value labelled groups :=
    covers_expandStack hf _ (by simp)
  obtain ⟨labelled, groups, h⟩ := hrun
  have hown : (labelled.filter (·.1 == none)).map (·.2) = [] := by
    rw [h.of_rows none (by simp)]
    simp [directUses]
  have hlabel : ∀ p ∈ labelled, ∃ key ∈ groups, p.1 = some key := by
    intro p hp
    rcases h.labels p hp with hr | hg
    · have hnone : p.1 = none := by simpa using hr
      have hm : p ∈ labelled.filter (·.1 == none) := by simp [hp, hnone]
      rw [List.map_eq_nil_iff.1 hown] at hm
      simp at hm
    · exact hg
  refine ⟨groups, labelled.map fun p => (p.1.getD "", p.2), h.nodup, fun key => ?_, ?_, ?_, ?_⟩
  · rw [h.mem_entered_iff]
    simp [references]
  · rw [List.map_map]
    exact congrArg₂ Expansion.mk h.uses_eq h.visited_eq
  · intro p hp
    obtain ⟨q, hq, rfl⟩ := List.mem_map.1 hp
    obtain ⟨key, hk, he⟩ := hlabel q hq
    simpa [he] using hk
  · intro key hk
    rw [← h.of_groups key hk, List.filter_map, List.map_map]
    have hfilter : labelled.filter ((·.1 == key) ∘ fun p => (p.1.getD "", p.2))
        = labelled.filter (·.1 == some key) := by
      apply List.filter_congr
      intro p hp
      obtain ⟨k, _, he⟩ := hlabel p hp
      simp [he]
    rw [hfilter]
    rfl

/-- Two parts of a stack are worked off one after the other. -/
theorem expandStack_append (stack rest : List (List AttributeItem)) :
    (scope.expandStack visited (stack ++ rest)).value =
      let e := (scope.expandStack visited stack).value
      (scope.expandStack e.visited rest).value.after e.uses := by
  fun_induction expandStack scope visited stack with
  | case1 visited => rfl
  | case2 visited stack ih => rw [List.cons_append, expandStack, ih]
  | case3 visited a items stack ih =>
    rw [List.cons_append, expandStack]
    simp only [List.cons_append] at ih
    simp [ih, Expansion.after]
  | case4 visited name items stack inner ht ih =>
    rw [List.cons_append, expandStack, ht]
    exact ih
  | case5 visited name items stack uses ht ih =>
    rw [List.cons_append, expandStack, ht]
    simp only [List.cons_append] at ih
    simp [ih, Expansion.after]
  | case6 visited name items stack ht ih =>
    rw [List.cons_append, expandStack, ht]
    exact ih

/-- Items with each reference expanded in its place. The references share one list of visited
keys, which grows from one to the next. -/
def inPlace (scope : AttributeScope) (visited : List String) : List AttributeItem → Expansion
  | [] => ⟨[], visited⟩
  | .attribute a :: items => (scope.inPlace visited items).after [a.interpretUse.value]
  | .group name :: items =>
    let e := (scope.expandName visited name).value
    (scope.inPlace e.visited items).after e.uses

/-- A reference and the items behind it may as well stand in two rows. -/
theorem expand_group_cons (name : QName) (items : List AttributeItem) :
    (scope.expand visited (.group name :: items)).value
      = (scope.expandStack visited [[.group name], items]).value := by
  have hempty : ∀ keys (before : List (List AttributeItem)),
      (scope.expandStack keys (before ++ [[], items])).value
        = (scope.expandStack keys (before ++ [items])).value := by
    intro keys before
    have hnil : ∀ visited, scope.expandStack visited [[], items]
        = scope.expandStack visited [items] := fun visited => by rw [expandStack]
    simp only [expandStack_append, hnil]
  rw [expand]
  conv_lhs => rw [expandStack]
  conv_rhs => rw [expandStack]
  cases scope.target visited name.key with
  | declaration inner => exact (hempty _ [inner]).symm
  | finished uses =>
    have h := hempty (name.key :: visited) []
    simp only [List.nil_append] at h
    simp [h]
  | nothing => exact (hempty _ []).symm

theorem expand_value (items : List AttributeItem) :
    (scope.expand visited items).value = scope.inPlace visited items := by
  induction items generalizing visited with
  | nil =>
    rw [expand, expandStack, expandStack]
    rfl
  | cons item items ih =>
    rcases item with a | name
    · rw [inPlace, ← ih, expand, expandStack]
      rfl
    · rw [inPlace, expand_group_cons]
      simp only [← ih]
      exact expandStack_append [[.group name]] [items]

end XsdCatalog.AttributeScope
