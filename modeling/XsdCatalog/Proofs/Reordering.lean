import Mathlib.Data.List.Perm.Basic
import XsdCatalog.Proofs.LoadDiagnostics
import XsdCatalog.Proofs.RegistryContents
import XsdCatalog.Proofs.UnresolvedReferences

/-!
# Schemas in another order

What a declaration means depends on what names stand for and on nothing else. So where no two
declarations of one kind have one key, documents and declarations may come in any order: names
stand for the same components, the same references have no target, and the same diagnostics arise.
-/

namespace XsdCatalog

open Written (Item Schema)

namespace AttributeScope

/-- Names stand for the same groups. -/
def Agrees (scope scope' : AttributeScope) : Prop :=
  ∀ visited key, scope.target visited key = scope'.target visited key

variable {scope scope' : AttributeScope}

private theorem Agrees.expandStack_eq (h : scope.Agrees scope') (visited : List String)
    (stack : List (List Written.AttributeItem)) :
    scope.expandStack visited stack = scope'.expandStack visited stack := by
  fun_induction expandStack scope visited stack with
  | case1 visited => rw [expandStack]
  | case2 visited stack ih => rw [expandStack, ih]
  | case3 visited a items stack ih => rw [expandStack, ih]
  | case4 visited name items stack inner ht ih =>
    rw [h] at ht
    rw [expandStack]
    split <;> simp_all
  | case5 visited name items stack uses ht ih =>
    rw [h] at ht
    rw [expandStack]
    split <;> simp_all
  | case6 visited name items stack ht ih =>
    rw [h] at ht
    rw [expandStack]
    split <;> simp_all

private theorem Agrees.expand_eq (h : scope.Agrees scope') (visited : List String)
    (items : List Written.AttributeItem) :
    scope.expand visited items = scope'.expand visited items :=
  h.expandStack_eq visited [items]

end AttributeScope

namespace Written

-- a part of a type uses the scope only where it has a complex type in it
set_option linter.unusedSectionVars false

variable {scope scope' : AttributeScope} (h : scope.Agrees scope')

include h

private theorem AttributeList.interpret_eq (l : AttributeList) :
    l.interpret scope = l.interpret scope' := by
  rw [interpret, interpret, h.expand_eq]

mutual

private theorem Particle.interpret_eq (p : Particle) :
    Particle.interpret scope p = Particle.interpret scope' p := by
  obtain ⟨min, max, term, source⟩ := p
  rw [Particle.interpret, Particle.interpret, Term.interpret_eq term]

private theorem Term.interpret_eq (t : Term Particle) :
    Term.interpret scope t = Term.interpret scope' t := by
  cases t with
  | element e => rw [Term.interpret, Term.interpret, Element.interpretUse_eq e]
  | wildcard w => rw [Term.interpret, Term.interpret]
  | group name => rw [Term.interpret, Term.interpret]
  | model kind children =>
    rw [Term.interpret, Term.interpret, Particle.interpretAll_eq children]

private theorem Particle.interpretAll_eq (ps : List Particle) :
    Particle.interpretAll scope ps = Particle.interpretAll scope' ps := by
  cases ps with
  | nil => rw [Particle.interpretAll, Particle.interpretAll]
  | cons p ps =>
    rw [Particle.interpretAll, Particle.interpretAll, Particle.interpret_eq p,
      Particle.interpretAll_eq ps]

private theorem Particle.interpretContent_eq (p : Option Particle) :
    Particle.interpretContent scope p = Particle.interpretContent scope' p := by
  cases p with
  | none => rw [Particle.interpretContent, Particle.interpretContent]
  | some p => rw [Particle.interpretContent, Particle.interpretContent, Particle.interpret_eq p]

private theorem ComplexContent.interpretContent_eq (c : ComplexContent Particle) :
    ComplexContent.interpretContent scope c = ComplexContent.interpretContent scope' c := by
  cases c with
  | direct particle attributes =>
    rw [ComplexContent.interpretContent, ComplexContent.interpretContent,
      Particle.interpretContent_eq particle]
  | simple d => rw [ComplexContent.interpretContent, ComplexContent.interpretContent]
  | complex d =>
    obtain ⟨method, base, particle, attributes⟩ := d
    rw [ComplexContent.interpretContent, ComplexContent.interpretContent,
      Particle.interpretContent_eq particle]

private theorem ComplexType.interpret_eq (t : ComplexType Particle) :
    ComplexType.interpret scope t = ComplexType.interpret scope' t := by
  obtain ⟨name, documentation, source, isAbstract, mixed, content⟩ := t
  rw [ComplexType.interpret, ComplexType.interpret, ComplexContent.interpretContent_eq content,
    AttributeList.interpret_eq h]

private theorem TypeDefinition.interpret_eq (t : TypeDefinition Particle) :
    TypeDefinition.interpret scope t = TypeDefinition.interpret scope' t := by
  cases t with
  | simple t => rw [TypeDefinition.interpret, TypeDefinition.interpret]
  | complex t =>
    rw [TypeDefinition.interpret, TypeDefinition.interpret, ComplexType.interpret_eq t]

private theorem Element.interpretType_eq (typeName : Option QName)
    (t : Option (TypeDefinition Particle)) :
    Element.interpretType scope typeName t = Element.interpretType scope' typeName t := by
  cases t with
  | none => rw [Element.interpretType, Element.interpretType]
  | some t =>
    cases typeName with
    | some name => rw [Element.interpretType, Element.interpretType]
    | none => rw [Element.interpretType, Element.interpretType, TypeDefinition.interpret_eq t]

private theorem Element.interpretUse_eq (e : Element Particle) :
    Element.interpretUse scope e = Element.interpretUse scope' e := by
  obtain ⟨name, reference, typeName, anonymous, _, _, _, _, _, _, _⟩ := e
  cases reference with
  | some target => rw [Element.interpretUse, Element.interpretUse]
  | none =>
    rw [Element.interpretUse, Element.interpretUse, Element.interpretType_eq typeName anonymous]

end

private theorem Element.interpretGlobal_eq (e : Element Particle) :
    e.interpretGlobal scope = e.interpretGlobal scope' := by
  simp only [interpretGlobal, interpretAs, interpretType_eq h]

private theorem Group.interpret_eq (g : Group) : g.interpret scope = g.interpret scope' := by
  simp only [interpret, interpretContent, Particle.interpretAll_eq h]

private theorem AttributeGroup.expand_eq (g : AttributeGroup) :
    g.expand scope = g.expand scope' := by
  rw [expand, expand, h.expand_eq]

private theorem AttributeGroup.interpret_eq (g : AttributeGroup) :
    g.interpret scope = g.interpret scope' := by
  rw [interpret, interpret, expand_eq h]

end Written

/-- The same documents in some order, each with the same declarations in some order. -/
def Written.Schema.Reordered (schemas schemas' : List Schema) : Prop :=
  ∃ row, schemas.Perm row ∧
    List.Forall₂ (fun s s' => s' = { s with items := s'.items } ∧ s.items.Perm s'.items) row schemas'

/-- Within each kind no two declarations have one key. -/
def Written.Schema.KeysDistinct (schemas : List Schema) : Prop :=
  ∀ kind, (((schemas.flatMap (·.items)).filterMap fun item =>
    item.declaredName? kind).map (·.key)).Nodup

namespace Written.Schema

variable {schemas schemas' : List Schema}

private theorem Reordered.items (h : Reordered schemas schemas') :
    (schemas.flatMap (·.items)).Perm (schemas'.flatMap (·.items)) := by
  obtain ⟨row, hperm, hrow⟩ := h
  refine (hperm.flatMap_right _).trans ?_
  clear hperm
  induction hrow with
  | nil => exact .refl _
  | cons hs _ ih => exact hs.2.append ih

private theorem Reordered.diagnostics (h : Reordered schemas schemas') :
    (schemas.flatMap (·.diagnostics)).Perm (schemas'.flatMap (·.diagnostics)) := by
  obtain ⟨row, hperm, hrow⟩ := h
  refine (hperm.flatMap_right _).trans ?_
  clear hperm
  induction hrow with
  | nil => exact .refl _
  | cons hs _ ih =>
    rw [List.flatMap_cons, List.flatMap_cons, hs.1]
    exact ih.append_left _

/-- The declarations of one kind, picked out of all items. -/
theorem Reordered.picked {α : Type} (pick : Schema → List α) {f : Item → Option α}
    (h : Reordered schemas schemas') (hpick : ∀ s, pick s = s.items.filterMap f) :
    (schemas.flatMap pick).Perm (schemas'.flatMap pick) := by
  have hall (schemas : List Schema) :
      schemas.flatMap pick = (schemas.flatMap (·.items)).filterMap f := by
    rw [List.filterMap_flatMap]
    exact List.flatMap_congr fun s _ => hpick s
  rw [hall, hall]
  exact h.items.filterMap f

private theorem Reordered.keysDistinct (h : Reordered schemas schemas')
    (hk : KeysDistinct schemas) : KeysDistinct schemas' :=
  fun kind => (((h.items.filterMap _).map _).nodup_iff).1 (hk kind)

private theorem map_key_attributeGroups (schemas : List Schema) :
    (schemas.flatMap (·.attributeGroups)).map (·.name.key)
      = ((schemas.flatMap (·.items)).filterMap fun item =>
        item.declaredName? .attributeGroup).map (·.key) := by
  rw [List.filterMap_flatMap, List.map_flatMap, List.map_flatMap]
  refine List.flatMap_congr fun s _ => ?_
  rw [attributeGroups, List.map_filterMap, List.map_filterMap]
  exact List.filterMap_congr fun item _ => by cases item <;> rfl

private theorem Reordered.agrees (h : Reordered schemas schemas') (hk : KeysDistinct schemas) :
    (AttributeScope.ofSchemas schemas).Agrees (.ofSchemas schemas') := by
  have hgroups := (h.picked attributeGroups fun _ => rfl).map
    fun g => (g.name.key, g)
  have hget := Registry.get?_ofList_of_perm hgroups (by
    rw [List.map_map]
    exact map_key_attributeGroups schemas ▸ hk .attributeGroup)
  intro visited key
  rw [AttributeScope.target, AttributeScope.target]
  simp only [AttributeScope.ofSchemas, hget]

end Written.Schema

namespace Entry

variable {α : Type} (name : α → Option QName)

/-- The registry of components in some order, where no two have one key. -/
theorem component_collect_of_perm {lists lists' : List (List α)}
    (h : lists.flatten.Perm lists'.flatten)
    (hn : ((lists.flatten.filterMap name).map (·.key)).Nodup) (key : String) :
    ((Registry.ofList (collect name lists)).get? key).map (·.component)
      = ((Registry.ofList (collect name lists')).get? key).map (·.component) := by
  rw [← Registry.get?_map, ← Registry.get?_map, Registry.map_ofList, Registry.map_ofList,
    map_component_collect, map_component_collect]
  refine Registry.get?_ofList_of_perm (h.filterMap _) ?_ key
  rw [← keyed, map_fst_keyed]
  exact hn

end Entry

/-- The documents have the same components of each kind, in whatever order. -/
structure SameComponents (documents documents' : List Document) : Prop where
  elements : (documents.map (·.elements)).flatten.Perm (documents'.map (·.elements)).flatten
  complexTypes :
    (documents.map (·.complexTypes)).flatten.Perm (documents'.map (·.complexTypes)).flatten
  simpleTypes :
    (documents.map (·.simpleTypes)).flatten.Perm (documents'.map (·.simpleTypes)).flatten
  attributes : (documents.map (·.attributes)).flatten.Perm (documents'.map (·.attributes)).flatten
  groups : (documents.map (·.groups)).flatten.Perm (documents'.map (·.groups)).flatten
  attributeGroups :
    (documents.map (·.attributeGroups)).flatten.Perm (documents'.map (·.attributeGroups)).flatten

/-- Components of one kind, each read from what is picked out of a schema. -/
theorem perm_flatten_map_ofSchema {α β : Type} {scope scope' : AttributeScope}
    {schemas schemas' : List Schema} {list : Document → List β} {pick : Schema → List α}
    {f g : α → Option β} (hfg : ∀ a, f a = g a)
    (hperm : (schemas.flatMap pick).Perm (schemas'.flatMap pick))
    (hf : ∀ s, list (Document.ofSchema scope s) = (pick s).filterMap f)
    (hg : ∀ s, list (Document.ofSchema scope' s) = (pick s).filterMap g) :
    ((schemas.map (Document.ofSchema scope)).map list).flatten.Perm
      ((schemas'.map (Document.ofSchema scope')).map list).flatten := by
  obtain rfl : f = g := funext hfg
  rw [List.map_map, List.map_map, ← List.flatMap_def, ← List.flatMap_def]
  simp only [Function.comp_def, hf, hg]
  rw [← List.filterMap_flatMap, ← List.filterMap_flatMap]
  exact hperm.filterMap f

private theorem Written.Schema.Reordered.sameComponents {scope scope' : AttributeScope}
    {schemas schemas' : List Schema} (h : Schema.Reordered schemas schemas')
    (hs : scope.Agrees scope') :
    SameComponents (schemas.map (Document.ofSchema scope))
      (schemas'.map (Document.ofSchema scope')) := by
  have hmap {α β : Type} (f : α → β) (as : List α) : as.map f = as.filterMap fun a => some (f a) :=
    (congrFun List.filterMap_eq_map as).symm
  constructor
  · exact perm_flatten_map_ofSchema (fun e => by rw [Written.Element.interpretGlobal_eq hs e])
      (h.picked Schema.elements fun _ => rfl) (fun _ => rfl) fun _ => rfl
  · exact perm_flatten_map_ofSchema
      (fun t => by rw [Written.ComplexType.interpret_eq hs t])
      (h.picked Schema.complexTypes fun _ => rfl)
      (fun s => hmap (fun t => (Written.ComplexType.interpret scope t).value) s.complexTypes)
      fun s => hmap (fun t => (Written.ComplexType.interpret scope' t).value) s.complexTypes
  · exact perm_flatten_map_ofSchema (fun _ => rfl)
      (h.picked Schema.simpleTypes fun _ => rfl)
      (fun s => hmap (fun t : Written.SimpleType => t.interpret.value) s.simpleTypes)
      fun s => hmap (fun t : Written.SimpleType => t.interpret.value) s.simpleTypes
  · exact perm_flatten_map_ofSchema (fun _ => rfl)
      (h.picked Schema.attributes fun _ => rfl) (fun _ => rfl) fun _ => rfl
  · exact perm_flatten_map_ofSchema
      (fun g => by rw [Written.Group.interpret_eq hs g])
      (h.picked Schema.groups fun _ => rfl)
      (fun s => hmap (fun g => (Written.Group.interpret scope g).value) s.groups)
      fun s => hmap (fun g => (Written.Group.interpret scope' g).value) s.groups
  · exact perm_flatten_map_ofSchema
      (fun g => by rw [Written.AttributeGroup.interpret_eq hs g])
      (h.picked Schema.attributeGroups fun _ => rfl)
      (fun s => hmap (fun g => (Written.AttributeGroup.interpret scope g).value) s.attributeGroups)
      fun s => hmap (fun g => (Written.AttributeGroup.interpret scope' g).value) s.attributeGroups

private theorem Written.Schema.KeysDistinct.nodup {α : Type} {schemas : List Schema}
    (hk : Schema.KeysDistinct schemas) {scope : AttributeScope} {kind : ComponentKind}
    {list : Document → List α} {name : α → Option QName}
    (hnames : ∀ s, (list (Document.ofSchema scope s)).filterMap name
      = s.items.filterMap (·.declaredName? kind)) :
    ((((schemas.map (Document.ofSchema scope)).map list).flatten.filterMap name).map
      (·.key)).Nodup := by
  have hflatten : ((schemas.map (Document.ofSchema scope)).map list).flatten.filterMap name
      = (schemas.flatMap (·.items)).filterMap (·.declaredName? kind) := by
    rw [List.map_map, ← List.flatMap_def, List.filterMap_flatMap, List.filterMap_flatMap]
    exact List.flatMap_congr fun s _ => hnames s
  rw [hflatten]
  exact hk kind

private theorem SameComponents.symm {documents documents' : List Document}
    (h : SameComponents documents documents') : SameComponents documents' documents where
  elements := h.elements.symm
  complexTypes := h.complexTypes.symm
  simpleTypes := h.simpleTypes.symm
  attributes := h.attributes.symm
  groups := h.groups.symm
  attributeGroups := h.attributeGroups.symm

private theorem SameComponents.exists_refers {documents documents' : List Document}
    (h : SameComponents documents documents') {r : Reference}
    (hr : ∃ d ∈ documents, d.Refers r) : ∃ d ∈ documents', d.Refers r := by
  have hmem {α : Type} {list : Document → List α}
      (hperm : (documents.map list).flatten.Perm (documents'.map list).flatten) {d : Document}
      (hd : d ∈ documents) {a : α} (ha : a ∈ list d) : ∃ d' ∈ documents', a ∈ list d' := by
    have ha' := hperm.mem_iff.1 (List.mem_flatten.2 ⟨_, List.mem_map_of_mem hd, ha⟩)
    obtain ⟨row, hrow, ha'⟩ := List.mem_flatten.1 ha'
    obtain ⟨d', hd', rfl⟩ := List.mem_map.1 hrow
    exact ⟨d', hd', ha'⟩
  obtain ⟨d, hd, hr⟩ := hr
  cases hr with
  | element he hr =>
    obtain ⟨d', hd', he'⟩ := hmem h.elements hd he
    exact ⟨d', hd', .element he' hr⟩
  | complexType ht hr =>
    obtain ⟨d', hd', ht'⟩ := hmem h.complexTypes hd ht
    exact ⟨d', hd', .complexType ht' hr⟩
  | simpleType ht hr =>
    obtain ⟨d', hd', ht'⟩ := hmem h.simpleTypes hd ht
    exact ⟨d', hd', .simpleType ht' hr⟩
  | attributeDeclaration ha hr =>
    obtain ⟨d', hd', ha'⟩ := hmem h.attributes hd ha
    exact ⟨d', hd', .attributeDeclaration ha' hr⟩
  | group hg hp hr =>
    obtain ⟨d', hd', hg'⟩ := hmem h.groups hd hg
    exact ⟨d', hd', .group hg' hp hr⟩
  | attributeGroup hg hu hr =>
    obtain ⟨d', hd', hg'⟩ := hmem h.attributeGroups hd hg
    exact ⟨d', hd', .attributeGroup hg' hu hr⟩

/-- A key has the same component in both registries, or none in either. -/
def Registry.SameComponents {α : Type} (r r' : Registry (Entry α)) : Prop :=
  ∀ key, (r.get? key).map (·.component) = (r'.get? key).map (·.component)

private theorem Registry.SameComponents.mem_keys_iff {α : Type} {r r' : Registry (Entry α)}
    (h : r.SameComponents r') (key : String) : key ∈ r.keys ↔ key ∈ r'.keys := by
  have hsome := congrArg Option.isSome (h key)
  rw [Option.isSome_map, Option.isSome_map] at hsome
  rw [← Catalog.contains_iff, ← Catalog.contains_iff, Registry.contains, Registry.contains, hsome]

private theorem Catalog.hasTarget_congr {c c' : Catalog}
    (he : c.elements.SameComponents c'.elements)
    (hc : c.complexTypes.SameComponents c'.complexTypes)
    (hs : c.simpleTypes.SameComponents c'.simpleTypes)
    (ha : c.attributes.SameComponents c'.attributes) (hg : c.groups.SameComponents c'.groups)
    (r : Reference) : c.HasTarget r ↔ c'.HasTarget r := by
  obtain ⟨kind, name⟩ := r
  cases kind with
  | element => exact he.mem_keys_iff name.key
  | type => exact or_congr (hc.mem_keys_iff name.key) (or_congr (hs.mem_keys_iff name.key) .rfl)
  | «attribute» => exact or_congr .rfl (ha.mem_keys_iff name.key)
  | group => exact hg.mem_keys_iff name.key

private theorem Catalog.exists_mem_unresolved_mono {c c' : Catalog} {kind : ReferenceKind}
    {key : String} (hrefers : ∀ r, (∃ d ∈ c.documents, d.Refers r) → ∃ d ∈ c'.documents, d.Refers r)
    (htarget : ∀ r, c'.HasTarget r → c.HasTarget r)
    (h : ∃ r ∈ c.unresolved, r.kind = kind ∧ r.name.key = key) :
    ∃ r ∈ c'.unresolved, r.kind = kind ∧ r.name.key = key := by
  rw [exists_mem_unresolved_iff] at h ⊢
  obtain ⟨d, hd, r, hr, hkind, hkey, ht⟩ := h
  obtain ⟨d', hd', hr'⟩ := hrefers r ⟨d, hd, hr⟩
  exact ⟨d', hd', r, hr', hkind, hkey, mt (htarget r) ht⟩

private theorem Written.Schema.Reordered.sameComponents_load {schemas schemas' : List Schema}
    (h : Schema.Reordered schemas schemas') (hk : Schema.KeysDistinct schemas)
    (options : Catalog.LoadOptions) :
    let c := Catalog.load schemas options
    let c' := Catalog.load schemas' options
    c.elements.SameComponents c'.elements ∧ c.complexTypes.SameComponents c'.complexTypes ∧
      c.simpleTypes.SameComponents c'.simpleTypes ∧ c.attributes.SameComponents c'.attributes ∧
      c.groups.SameComponents c'.groups ∧ c.attributeGroups.SameComponents c'.attributeGroups := by
  intro c c'
  have hsame := h.sameComponents (h.agrees hk)
  rw [show c = _ from Catalog.load_eq schemas options,
    show c' = _ from Catalog.load_eq schemas' options]
  exact ⟨Entry.component_collect_of_perm _ hsame.elements (hk.nodup (Document.names_elements _)),
    Entry.component_collect_of_perm _ hsame.complexTypes
      (hk.nodup (Document.names_complexTypes _)),
    Entry.component_collect_of_perm _ hsame.simpleTypes (hk.nodup (Document.names_simpleTypes _)),
    Entry.component_collect_of_perm _ hsame.attributes (hk.nodup (Document.names_attributes _)),
    Entry.component_collect_of_perm _ hsame.groups (hk.nodup (Document.names_groups _)),
    Entry.component_collect_of_perm _ hsame.attributeGroups
      (hk.nodup (Document.names_attributeGroups _))⟩

namespace Written

/-- What is noted about an item in all passes. -/
def Item.notes (scope : AttributeScope) (item : Item) : List Diagnostic :=
  item.groupNotes scope
    ++ (item.typeNotes scope
      ++ (match item with
        | .attributeGroup g => (g.expand scope).notes
        | _ => [])
      ++ item.elementNotes scope)

/-- The registrations of an item in all passes. -/
def Item.registrations (item : Item) : List Registration :=
  item.groupRegistration?.toList
    ++ (item.typeRegistration?.toList ++ item.elementRegistration?.toList)

private theorem Item.notes_eq {scope scope' : AttributeScope} (h : scope.Agrees scope')
    (item : Item) : item.notes scope = item.notes scope' := by
  cases item with
  | simpleType t => rfl
  | complexType t => simp only [notes, groupNotes, typeNotes, elementNotes, t.interpret_eq h]
  | «attribute» a => rfl
  | element e => simp only [notes, groupNotes, typeNotes, elementNotes, e.interpretGlobal_eq h]
  | group g => simp only [notes, groupNotes, typeNotes, elementNotes, g.interpret_eq h]
  | attributeGroup g => simp only [notes, groupNotes, typeNotes, elementNotes, g.expand_eq h]

namespace Schema

/-- What two passes have of each schema is what both have of each item. -/
theorem perm_flatMap_items {β : Type} (schemas : List Schema) {f g : Item → List β}
    {first second : Schema → List β} (hf : ∀ s, first s = s.items.flatMap f)
    (hg : ∀ s, (second s).Perm (s.items.flatMap g)) :
    (schemas.flatMap first ++ schemas.flatMap second).Perm
      ((schemas.flatMap (·.items)).flatMap fun item => f item ++ g item) := by
  rw [List.flatMap_assoc]
  refine (List.flatMap_append_perm _ _ _).trans (List.Perm.flatMap_left _ fun s _ => ?_)
  rw [hf]
  exact ((hg s).append_left _).trans (List.flatMap_append_perm _ f g)

theorem perm_notesOf (scope : AttributeScope) (schemas : List Schema) :
    (notesOf scope schemas).Perm ((schemas.flatMap (·.items)).flatMap (Item.notes scope)) := by
  refine perm_flatMap_items schemas (fun _ => rfl) fun s => ?_
  have hfill : s.attributeGroups.flatMap (fun g => (g.expand scope).notes)
      = s.items.flatMap fun item => match item with
        | .attributeGroup g => (g.expand scope).notes
        | _ => [] := by
    rw [attributeGroups, List.filterMap_eq_flatMap_toList, List.flatMap_assoc]
    exact List.flatMap_congr fun item _ => by cases item <;> simp
  rw [hfill]
  exact ((List.flatMap_append_perm _ _ _).append_right _).trans (List.flatMap_append_perm _ _ _)

private theorem perm_registrations (schemas : List Schema) :
    (registrations schemas).Perm ((schemas.flatMap (·.items)).flatMap Item.registrations) := by
  refine perm_flatMap_items schemas (fun s => List.filterMap_eq_flatMap_toList _ _) fun s => ?_
  rw [List.filterMap_eq_flatMap_toList, List.filterMap_eq_flatMap_toList]
  exact List.flatMap_append_perm _ _ _

/-- An item is registered under its kind and the name it declares. -/
theorem mem_map_id_registrations {item : Item} {kind : ComponentKind} {key : String} :
    (kind, key) ∈ item.registrations.map Registration.id ↔
      (item.declaredName? kind).map (·.key) = some key := by
  cases item <;> cases kind <;>
    simp [Item.registrations, Item.groupRegistration?, Item.typeRegistration?,
      Item.elementRegistration?, Item.declaredName?, Registration.id, @eq_comm _ key]

private theorem nodup_map_id_registrations (item : Item) :
    (item.registrations.map Registration.id).Nodup := by
  have hoption {α : Type} (o : Option α) : o.toList.Nodup := by
    cases o with
    | none => exact List.nodup_nil
    | some a => exact List.nodup_singleton a
  cases item <;>
    simp [Item.registrations, Item.groupRegistration?, Item.typeRegistration?,
      Item.elementRegistration?, ← Option.toList_map, hoption]

private theorem KeysDistinct.nodup_registrations {schemas : List Schema}
    (hk : KeysDistinct schemas) : ((registrations schemas).map Registration.id).Nodup := by
  rw [((perm_registrations schemas).map _).nodup_iff, List.map_flatMap, List.nodup_flatMap]
  refine ⟨fun item _ => nodup_map_id_registrations item, ?_⟩
  rw [List.pairwise_iff_getElem]
  intro i j hi hj hij
  rintro ⟨kind, key⟩ hmem hmem'
  have hkind := hk kind
  rw [List.map_filterMap, List.Nodup, List.pairwise_filterMap, List.pairwise_iff_getElem] at hkind
  exact hkind i j hi hj hij key (mem_map_id_registrations.1 hmem) key
    (mem_map_id_registrations.1 hmem') rfl

end Schema

end Written

/-- Where no two declarations of one kind have one key, documents and declarations may come in any
order: the registries have the same components under the same keys, references of the same kinds
and keys have no target, and the same diagnostics arise. -/
theorem load_of_reordered {schemas schemas' : List Schema} (options : Catalog.LoadOptions)
    (h : Schema.Reordered schemas schemas') (hk : Schema.KeysDistinct schemas) :
    let c := Catalog.load schemas options
    let c' := Catalog.load schemas' options
    c.elements.SameComponents c'.elements ∧ c.complexTypes.SameComponents c'.complexTypes ∧
      c.simpleTypes.SameComponents c'.simpleTypes ∧ c.attributes.SameComponents c'.attributes ∧
      c.groups.SameComponents c'.groups ∧ c.attributeGroups.SameComponents c'.attributeGroups ∧
      (∀ kind key, (∃ r ∈ c.unresolved, r.kind = kind ∧ r.name.key = key) ↔
        ∃ r ∈ c'.unresolved, r.kind = kind ∧ r.name.key = key) ∧
      c.diagnostics.Perm c'.diagnostics := by
  intro c c'
  have hscope := h.agrees hk
  have hsame := h.sameComponents hscope
  obtain ⟨he, hct, hst, ha, hg, hag⟩ := h.sameComponents_load hk options
  refine ⟨he, hct, hst, ha, hg, hag, fun kind key => ?_, ?_⟩
  · have htarget := Catalog.hasTarget_congr he hct hst ha hg
    have hrefers (r : Reference) :
        (∃ d ∈ c.documents, d.Refers r) ↔ ∃ d ∈ c'.documents, d.Refers r := by
      rw [show c = _ from Catalog.load_eq schemas options,
        show c' = _ from Catalog.load_eq schemas' options]
      exact ⟨hsame.exists_refers, hsame.symm.exists_refers⟩
    exact ⟨Catalog.exists_mem_unresolved_mono (fun r => (hrefers r).1) fun r => (htarget r).2,
      Catalog.exists_mem_unresolved_mono (fun r => (hrefers r).2) fun r => (htarget r).1⟩
  · have hrepeated {schemas : List Schema} (hk : Schema.KeysDistinct schemas) :
        Registration.repeated [] (Schema.registrations schemas) = [] :=
      Registration.repeated_eq_nil hk.nodup_registrations fun _ _ hm => nomatch hm
    rw [Catalog.diagnostics_load, Catalog.diagnostics_load, hrepeated hk,
      hrepeated (h.keysDistinct hk)]
    refine (h.diagnostics.append_right _).append ?_
    refine (Schema.perm_notesOf _ _).trans (.trans ?_ (Schema.perm_notesOf _ _).symm)
    exact h.items.flatMap fun item _ => .of_eq (item.notes_eq hscope)

/-- A type that refers to an attribute group of another document, and an element of this type. -/
def personSchemas : List Schema :=
  [{ document := some "person.xsd"
     items := [
      .complexType {
        name := some (.inSpace "urn:p" "Person")
        content := .direct none { items := [.group (.inSpace "urn:p" "common")] } },
      .element {
        name := some (.inSpace "urn:p" "person")
        typeName := some (.inSpace "urn:p" "Person") }] },
   { document := some "common.xsd"
     items := [
      .attributeGroup {
        name := .inSpace "urn:p" "common"
        attributes := { items := [.attribute { name := some (.unbound "id") }] } }] }]

/-- The documents the other way round, with the element before its type. -/
def personSchemasReordered : List Schema :=
  personSchemas.reverse.map fun s => { s with items := s.items.reverse }

theorem load_of_personSchemasReordered :
    Schema.Reordered personSchemas personSchemasReordered ∧ Schema.KeysDistinct personSchemas ∧
      (Catalog.load personSchemas).complexTypes.SameComponents
        (Catalog.load personSchemasReordered).complexTypes := by
  have hreordered : Schema.Reordered personSchemas personSchemasReordered :=
    ⟨personSchemas.reverse, (List.reverse_perm _).symm,
      List.forall₂_map_right_iff.2 (List.forall₂_same.2 fun s _ =>
        ⟨rfl, (List.reverse_perm s.items).symm⟩)⟩
  have hdistinct : Schema.KeysDistinct personSchemas := by
    intro kind
    cases kind <;> decide
  exact ⟨hreordered, hdistinct, (load_of_reordered {} hreordered hdistinct).2.1⟩

end XsdCatalog
