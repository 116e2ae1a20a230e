import XsdCatalog.Proofs.Loading

/-!
# What the registries of a catalog hold

A registry has a key for each name that is declared, and under it what the last declaration of the
name stands for: the last one of the last document that has any.
-/

namespace XsdCatalog

open Written (Item Schema)

namespace Written.Item

/-- The name of a declaration of this kind. -/
def declaredName? : ComponentKind → Item → Option QName
  | .element, element e => e.name
  | .complexType, complexType t => t.name
  | .simpleType, simpleType t => t.name
  | .attribute, .attribute a => a.name
  | .group, group g => some g.name
  | .attributeGroup, attributeGroup g => some g.name
  | _, _ => none

end Written.Item

/-- One place comes before another: in an earlier document, or in the same list. -/
def Precedes (p q : Nat × Nat) : Prop :=
  p.1 < q.1 ∨ p.1 = q.1 ∧ p.2 < q.2

namespace Entry

variable {α : Type} {name : α → Option QName}

private theorem pairwise_collect (name : α → Option QName) (lists : List (List α)) :
    (collect name lists).Pairwise fun p q => Precedes p.2.place q.2.place := by
  have hlt {β : Type} (row : List β) : row.zipIdx.Pairwise fun p q => p.2 < q.2 := by
    have h : (row.zipIdx.map (·.2)).Pairwise (· < ·) := by
      rw [List.zipIdx_map_snd]
      exact List.pairwise_lt_range'
    exact List.pairwise_map.1 h
  rw [collect, List.pairwise_flatMap]
  constructor
  · rintro ⟨row, document⟩ -
    refine (hlt row).filterMap _ ?_
    rintro ⟨a, slot⟩ ⟨b, slot'⟩ h p hp q hq
    obtain ⟨n, -, rfl⟩ := Option.map_eq_some_iff.1 hp
    obtain ⟨n', -, rfl⟩ := Option.map_eq_some_iff.1 hq
    exact .inr ⟨rfl, h⟩
  · refine (hlt lists).imp ?_
    rintro ⟨row, document⟩ ⟨row', document'⟩ h p hp q hq
    obtain ⟨x, -, hx⟩ := List.mem_filterMap.1 hp
    obtain ⟨y, -, hy⟩ := List.mem_filterMap.1 hq
    obtain ⟨n, -, rfl⟩ := Option.map_eq_some_iff.1 hx
    obtain ⟨n', -, rfl⟩ := Option.map_eq_some_iff.1 hy
    exact .inl h

/-- The components with names, under their keys. -/
def keyed (name : α → Option QName) (as : List α) : List (String × α) :=
  as.filterMap fun a => (name a).map fun n => (n.key, a)

theorem map_fst_keyed (name : α → Option QName) (as : List α) :
    (keyed name as).map (·.1) = (as.filterMap name).map (·.key) := by
  rw [keyed, List.map_filterMap, List.map_filterMap]
  refine List.filterMap_congr fun a _ => ?_
  exact Option.map_map ..

private theorem map_component_row (name : α → Option QName) (row : List α) (document : Nat) :
    (row.zipIdx.filterMap fun (a, slot) =>
      (name a).map fun n => (n.key, (⟨document, slot, a⟩ : Entry α))).map
        (fun p => (p.1, p.2.component)) = keyed name row := by
  rw [List.map_filterMap]
  conv_rhs => rw [keyed, ← List.zipIdx_map_fst 0 row, List.filterMap_map]
  refine List.filterMap_congr fun p _ => ?_
  exact Option.map_map ..

theorem map_component_collect (name : α → Option QName) (lists : List (List α)) :
    (collect name lists).map (fun p => (p.1, p.2.component)) = keyed name lists.flatten := by
  rw [collect, List.map_flatMap]
  conv_rhs => rw [← List.zipIdx_map_fst 0 lists]
  induction lists.zipIdx with
  | nil => rfl
  | cons p rows ih =>
    rw [List.flatMap_cons, ih, map_component_row, List.map_cons, List.flatten_cons]
    exact List.filterMap_append.symm

private theorem map_fst_collect (name : α → Option QName) (lists : List (List α)) :
    (collect name lists).map (·.1) = (lists.flatten.filterMap name).map (·.key) := by
  rw [← map_fst_keyed, ← map_component_collect, List.map_map]
  rfl

end Entry

/-- In a list in strict order the last element with a property is found from the end. -/
theorem find?_reverse_eq_some_iff {α : Type} {r : α → α → Prop} (hr : ∀ a b, r a b → ¬ r b a)
    {l : List α} (hl : l.Pairwise r) {p : α → Bool} {a : α} :
    l.reverse.find? p = some a ↔ a ∈ l ∧ p a = true ∧ ∀ b ∈ l, p b = true → ¬ r a b := by
  have hlast {c : α} (h : l.reverse.find? p = some c) :
      c ∈ l ∧ p c = true ∧ ∀ b ∈ l, p b = true → b = c ∨ r b c := by
    obtain ⟨hc, after, before, hs, hafter⟩ := List.find?_eq_some_iff_append.1 h
    have hs : l = before.reverse ++ c :: after.reverse := by
      rw [← List.reverse_reverse l, hs]
      simp
    refine ⟨by simp [hs], hc, fun b hb hpb => ?_⟩
    rw [hs, List.pairwise_append] at hl
    rw [hs, List.mem_append, List.mem_cons, List.mem_reverse, List.mem_reverse] at hb
    rcases hb with hb | hb | hb
    · exact .inr (hl.2.2 b (List.mem_reverse.2 hb) c List.mem_cons_self)
    · exact .inl hb
    · have hn := hafter b hb
      simp [hpb] at hn
  constructor
  · intro h
    obtain ⟨ha, hpa, hb⟩ := hlast h
    refine ⟨ha, hpa, fun b hbl hpb hab => ?_⟩
    rcases hb b hbl hpb with rfl | hba
    · exact hr b b hab hab
    · exact hr a b hab hba
  · rintro ⟨ha, hpa, hmax⟩
    cases h : l.reverse.find? p with
    | none =>
      have hn := List.find?_eq_none.1 h a (List.mem_reverse.2 ha)
      exact absurd hpa hn
    | some c =>
      obtain ⟨hc, hpc, hb⟩ := hlast h
      rcases hb a ha hpa with rfl | hac
      · rfl
      · exact absurd hac (hmax c hc hpc)

private theorem Precedes.asymm {p q : Nat × Nat} (h : Precedes p q) : ¬ Precedes q p := by
  unfold Precedes at *
  omega

namespace Registry

variable {α : Type} {name : α → Option QName} {lists : List (List α)}

theorem get?_collect {key : String} {e : Entry α} :
    (ofList (Entry.collect name lists)).get? key = some e ↔
      Entry.Stands name lists key e ∧
        ∀ e', Entry.Stands name lists key e' → ¬ Precedes e.place e'.place := by
  have hstands (e : Entry α) : Entry.Stands name lists key e ↔ (key, e) ∈ Entry.collect name lists :=
    (Entry.mem_collect (p := (key, e))).symm
  rw [get?_ofList, Option.map_eq_some_iff]
  simp only [find?_reverse_eq_some_iff (fun _ _ => Precedes.asymm)
    (Entry.pairwise_collect name lists), hstands]
  constructor
  · rintro ⟨⟨k, e⟩, ⟨he, hk, hmax⟩, rfl⟩
    obtain rfl : k = key := by simpa using hk
    exact ⟨he, fun e' he' => hmax (k, e') he' (by simp)⟩
  · rintro ⟨he, hmax⟩
    refine ⟨(key, e), ⟨he, by simp, ?_⟩, rfl⟩
    rintro ⟨k, e'⟩ he' hk
    obtain rfl : k = key := by simpa using hk
    exact hmax e' he'

/-- Every entry is found under its key, which is that of its name. -/
theorem keyed_collect {p : String × Entry α} (hp : p ∈ (ofList (Entry.collect name lists)).entries) :
    (ofList (Entry.collect name lists)).get? p.1 = some p.2 ∧
      (name p.2.component).map (·.key) = some p.1 := by
  have hget := get?_of_mem (nodup_keys_ofList _) hp
  obtain ⟨row, -, -, hkey⟩ := (get?_collect.1 hget).1
  exact ⟨hget, hkey⟩

end Registry

/-- The documents list what these declarations stand for, and the registry holds the last one
under each of their names. -/
structure Filed {α : Type} (kind : ComponentKind) (name : α → Option QName)
    (meaning? : Item → Option α) (schemas : List Schema) (lists : List (List α))
    (registry : Registry (Entry α)) : Prop where
  listed : lists = schemas.map fun s => s.items.filterMap meaning?
  keys : registry.keys = ((schemas.flatMap (·.items)).filterMap fun item =>
    (item.declaredName? kind).map (·.key)).eraseDups
  last : ∀ key e, registry.get? key = some e ↔ Entry.Stands name lists key e ∧
    ∀ e', Entry.Stands name lists key e' → ¬ Precedes e.place e'.place
  keyed : ∀ p ∈ registry.entries, registry.get? p.1 = some p.2 ∧
    (name p.2.component).map (·.key) = some p.1

private theorem filed_collect {α : Type} {kind : ComponentKind} {name : α → Option QName}
    {meaning? : Item → Option α} {schemas : List Schema} {lists : List (List α)}
    (hlisted : lists = schemas.map fun s => s.items.filterMap meaning?)
    (hname : ∀ item, (meaning? item).bind name = item.declaredName? kind) :
    Filed kind name meaning? schemas lists (.ofList (Entry.collect name lists)) where
  listed := hlisted
  keys := by
    rw [Registry.keys_ofList, Entry.map_fst_collect, hlisted, ← List.flatMap_def,
      ← List.filterMap_flatMap, List.filterMap_filterMap, List.map_filterMap]
    refine congrArg _ (List.filterMap_congr fun item _ => ?_)
    rw [hname]
  last _ _ := Registry.get?_collect
  keyed _ hp := Registry.keyed_collect hp

namespace Written

private theorem Element.value_interpretGlobal (scope : AttributeScope) (e : Element Particle) :
    (e.interpretGlobal scope).value = e.name.map fun name => (e.interpretAs scope name).value := by
  rw [interpretGlobal]
  cases e.name <;> rfl

private theorem Attribute.value_interpretGlobal (a : Attribute) :
    a.interpretGlobal.value = a.name.map fun name => (a.interpretAs name).value := by
  rw [interpretGlobal]
  cases a.name <;> rfl

end Written

namespace Document

variable (scope : AttributeScope) (s : Schema)

theorem names_elements : (ofSchema scope s).elements.filterMap (some ·.name)
    = s.items.filterMap (·.declaredName? .element) := by
  rw [ofSchema, Schema.elements, List.filterMap_filterMap, List.filterMap_filterMap]
  refine List.filterMap_congr fun item _ => ?_
  cases item with
  | element e =>
    show (e.interpretGlobal scope).value.bind (some ·.name) = e.name
    rw [e.value_interpretGlobal]
    cases e.name <;> rfl
  | _ => rfl

theorem names_complexTypes : (ofSchema scope s).complexTypes.filterMap (·.name)
    = s.items.filterMap (·.declaredName? .complexType) := by
  rw [ofSchema, Schema.complexTypes, List.map_filterMap, List.filterMap_filterMap]
  refine List.filterMap_congr fun item _ => ?_
  rcases item with t | ⟨name, documentation, source, isAbstract, mixed, content⟩ | a | e | g | g
    <;> rfl

theorem names_simpleTypes : (ofSchema scope s).simpleTypes.filterMap (·.name)
    = s.items.filterMap (·.declaredName? .simpleType) := by
  rw [ofSchema, Schema.simpleTypes, List.map_filterMap, List.filterMap_filterMap]
  refine List.filterMap_congr fun item _ => ?_
  rcases item with ⟨name, documentation, source, variety⟩ | t | a | e | g | g <;> rfl

theorem names_attributes : (ofSchema scope s).attributes.filterMap (some ·.name)
    = s.items.filterMap (·.declaredName? .attribute) := by
  rw [ofSchema, Schema.attributes, List.filterMap_filterMap, List.filterMap_filterMap]
  refine List.filterMap_congr fun item _ => ?_
  cases item with
  | «attribute» a =>
    show a.interpretGlobal.value.bind (some ·.name) = a.name
    rw [a.value_interpretGlobal]
    cases a.name <;> rfl
  | _ => rfl

theorem names_groups : (ofSchema scope s).groups.filterMap (some ·.name)
    = s.items.filterMap (·.declaredName? .group) := by
  rw [ofSchema, Schema.groups, List.map_filterMap, List.filterMap_filterMap]
  exact List.filterMap_congr fun item _ => by cases item <;> rfl

theorem names_attributeGroups : (ofSchema scope s).attributeGroups.filterMap (some ·.name)
    = s.items.filterMap (·.declaredName? .attributeGroup) := by
  rw [ofSchema, Schema.attributeGroups, List.map_filterMap, List.filterMap_filterMap]
  exact List.filterMap_congr fun item _ => by cases item <;> rfl

end Document

/-- The six lists of every document and the six registries of a catalog. -/
theorem registries_of_last_declarations (schemas : List Schema) (options : Catalog.LoadOptions) :
    let scope := AttributeScope.ofSchemas schemas
    let c := Catalog.load schemas options
    Filed .element (some ·.name)
      (fun | .element e => e.name.map fun name => (e.interpretAs scope name).value | _ => none)
      schemas (c.documents.map (·.elements)) c.elements ∧
    Filed .complexType (·.name)
      (fun | .complexType t => some (t.interpret scope).value | _ => none)
      schemas (c.documents.map (·.complexTypes)) c.complexTypes ∧
    Filed .simpleType (·.name)
      (fun | .simpleType t => some t.interpret.value | _ => none)
      schemas (c.documents.map (·.simpleTypes)) c.simpleTypes ∧
    Filed .attribute (some ·.name)
      (fun | .attribute a => a.name.map fun name => (a.interpretAs name).value | _ => none)
      schemas (c.documents.map (·.attributes)) c.attributes ∧
    Filed .group (some ·.name)
      (fun | .group g => some (g.interpret scope).value | _ => none)
      schemas (c.documents.map (·.groups)) c.groups ∧
    Filed .attributeGroup (some ·.name)
      (fun | .attributeGroup g => some (g.interpret scope).value | _ => none)
      schemas (c.documents.map (·.attributeGroups)) c.attributeGroups := by
  intro scope c
  rw [show c = _ from Catalog.load_eq schemas options]
  have hlist {α : Type} {list : Document → List α} {meaning? : Item → Option α}
      (h : ∀ s, list (Document.ofSchema scope s) = s.items.filterMap meaning?) :
      (schemas.map (Document.ofSchema scope)).map list
        = schemas.map fun s => s.items.filterMap meaning? := by
    rw [List.map_map]
    exact List.map_congr_left fun s _ => h s
  refine ⟨filed_collect (hlist fun s => ?_) fun item => ?_,
    filed_collect (hlist fun s => ?_) fun item => ?_,
    filed_collect (hlist fun s => ?_) fun item => ?_,
    filed_collect (hlist fun s => ?_) fun item => ?_,
    filed_collect (hlist fun s => ?_) fun item => ?_,
    filed_collect (hlist fun s => ?_) fun item => ?_⟩
  · rw [Document.ofSchema, Schema.elements, List.filterMap_filterMap]
    refine List.filterMap_congr fun item _ => ?_
    cases item with
    | element e => exact e.value_interpretGlobal scope
    | _ => rfl
  · cases item with
    | element e =>
      change (e.name.map fun name => (e.interpretAs scope name).value).bind (some ·.name) = e.name
      cases e.name <;> rfl
    | _ => rfl
  · rw [Document.ofSchema, Schema.complexTypes, List.map_filterMap]
    exact List.filterMap_congr fun item _ => by cases item <;> rfl
  · rcases item with t | ⟨name, documentation, source, isAbstract, mixed, content⟩ | a | e | g | g
      <;> rfl
  · rw [Document.ofSchema, Schema.simpleTypes, List.map_filterMap]
    exact List.filterMap_congr fun item _ => by cases item <;> rfl
  · rcases item with ⟨name, documentation, source, variety⟩ | t | a | e | g | g <;> rfl
  · rw [Document.ofSchema, Schema.attributes, List.filterMap_filterMap]
    refine List.filterMap_congr fun item _ => ?_
    rcases item with t | t | a | e | g | g
    case «attribute» => exact a.value_interpretGlobal
    all_goals rfl
  · rcases item with t | t | a | e | g | g
    case «attribute» =>
      change (a.name.map fun name => (a.interpretAs name).value).bind (some ·.name) = a.name
      cases a.name <;> rfl
    all_goals rfl
  · rw [Document.ofSchema, Schema.groups, List.map_filterMap]
    exact List.filterMap_congr fun item _ => by cases item <;> rfl
  · cases item <;> rfl
  · rw [Document.ofSchema, Schema.attributeGroups, List.map_filterMap]
    exact List.filterMap_congr fun item _ => by cases item <;> rfl
  · cases item <;> rfl

end XsdCatalog
