import Mathlib.Data.List.Basic
import XsdCatalog.Catalog.Load
import XsdCatalog.Proofs.Filing

/-!
# What loading builds

The passes over the schemas come to this: every document lists what the declarations of its schema
mean, kind by kind, and every registry is filled from these lists from the first document to the
last. Attribute groups, which get their places in one pass and are filled in another, are no
exception.
-/

namespace XsdCatalog

/-- The named components in the lists of a row of documents, under the keys of their names. -/
def Entry.collect {α : Type} (name : α → Option QName) (lists : List (List α)) :
    List (String × Entry α) :=
  lists.zipIdx.flatMap fun (components, document) =>
    components.zipIdx.filterMap fun (component, slot) =>
      (name component).map fun n => (n.key, { document, slot, component })

/-- The entry is what its place in the lists holds, and the key is that of its name. -/
def Entry.Stands {α : Type} (name : α → Option QName) (lists : List (List α)) (key : String)
    (e : Entry α) : Prop :=
  ∃ row, lists[e.document]? = some row ∧ row[e.slot]? = some e.component ∧
    (name e.component).map (·.key) = some key

theorem Entry.mem_collect {α : Type} {name : α → Option QName} {lists : List (List α)}
    {p : String × Entry α} : p ∈ collect name lists ↔ Stands name lists p.1 p.2 := by
  obtain ⟨key, document, slot, component⟩ := p
  simp only [Stands, collect, List.mem_flatMap, List.mem_filterMap, Option.map_eq_some_iff,
    Prod.exists, List.mem_zipIdx_iff_getElem?]
  constructor
  · rintro ⟨row, d, hr, a, i, ha, n, hn, h⟩
    cases h
    exact ⟨row, hr, ha, n, hn, rfl⟩
  · rintro ⟨row, hr, ha, n, hn, rfl⟩
    exact ⟨row, document, hr, component, slot, ha, n, hn, rfl⟩

def Entry.place {α : Type} (e : Entry α) : Nat × Nat :=
  (e.document, e.slot)

/-- What a written schema means. -/
def Document.ofSchema (scope : AttributeScope) (s : Written.Schema) : Document :=
  { Document.header s with
    elements := s.elements.filterMap fun e => (e.interpretGlobal scope).value
    complexTypes := s.complexTypes.map fun t => (t.interpret scope).value
    simpleTypes := s.simpleTypes.map fun t => t.interpret.value
    attributes := s.attributes.filterMap fun a => a.interpretGlobal.value
    groups := s.groups.map fun g => (g.interpret scope).value
    attributeGroups := s.attributeGroups.map fun g => (g.interpret scope).value }

private theorem modify_append_length {α : Type} (before after : List α) (a : α) (f : α → α) :
    (before ++ a :: after).modify before.length f = before ++ f a :: after := by
  induction before with
  | nil => rfl
  | cons b before ih => exact congrArg (b :: ·) ih

/-- Every place of a row is changed once, by what stands there in another row. -/
theorem foldl_modify_zipIdx {α β : Type} (f : β → α → α) (g : β → α) (before : List α)
    (bs : List β) :
    (bs.zipIdx before.length).foldl (fun row p => row.modify p.2 (f p.1)) (before ++ bs.map g)
      = before ++ bs.map fun b => f b (g b) := by
  induction bs generalizing before with
  | nil => rfl
  | cons b bs ih =>
    have ih := ih (before ++ [f b (g b)])
    rw [List.length_append, List.length_singleton, List.append_assoc, List.append_assoc] at ih
    rw [List.zipIdx_cons, List.foldl_cons, List.map_cons, modify_append_length]
    exact ih

namespace Shelf

variable {α σ : Type} (name : α → Option QName) (list : σ → List α)

/-- Puts a list of components one after the other, those that a numbered document has. -/
def putAll (shelf : Shelf α) (document : σ × Nat) : Shelf α :=
  (list document.1).foldl (fun shelf a => shelf.put document.2 (name a) a) shelf

def fileAll {β : Type} (registry : Registry β) (pairs : List (String × β)) : Registry β :=
  pairs.foldl (fun r p => r.insert p.1 p.2) registry

def pairsOf (document : Nat) (row : List (α × Nat)) : List (String × Entry α) :=
  row.filterMap fun (component, slot) =>
    (name component).map fun n => (n.key, { document, slot, component })

private theorem foldl_put (before after : List (List α)) (row as : List α)
    (registry : Registry (Entry α)) :
    as.foldl (fun shelf a => Shelf.put before.length (name a) shelf a)
        (⟨before ++ row :: after, registry⟩ : Shelf α)
      = ⟨before ++ (row ++ as) :: after,
          fileAll registry (pairsOf name before.length (as.zipIdx row.length))⟩ := by
  induction as generalizing row registry with
  | nil => simp [fileAll, pairsOf]
  | cons a as ih =>
    have hstep : Shelf.put before.length (name a) ⟨before ++ row :: after, registry⟩ a
        = ⟨before ++ (row ++ [a]) :: after,
            fileAll registry (pairsOf name before.length [(a, row.length)])⟩ := by
      cases hn : name a <;>
        simp [Shelf.put, modify_append_length, fileAll, pairsOf, hn]
    rw [List.foldl_cons, hstep, ih, List.zipIdx_cons]
    simp only [fileAll, ← List.foldl_append, pairsOf, ← List.filterMap_append]
    simp

private theorem foldl_putAll (before : List (List α)) (documents : List σ)
    (registry : Registry (Entry α)) :
    (documents.zipIdx before.length).foldl (putAll name list)
        ⟨before ++ List.replicate documents.length [], registry⟩
      = ⟨before ++ documents.map list, fileAll registry
          ((documents.zipIdx before.length).flatMap fun d =>
            pairsOf name d.2 (list d.1).zipIdx)⟩ := by
  induction documents generalizing before registry with
  | nil => simp [fileAll]
  | cons d documents ih =>
    have ih := ih (before ++ [list d])
      (fileAll registry (pairsOf name before.length ((list d).zipIdx 0)))
    simp only [List.length_append, List.length_singleton, List.append_assoc,
      List.singleton_append] at ih
    rw [List.zipIdx_cons, List.foldl_cons, List.length_cons, List.replicate_succ, putAll,
      foldl_put, List.nil_append, List.length_nil, ih, List.flatMap_cons]
    simp [fileAll, List.foldl_append]

/-- The shelf of what documents list. -/
def ofDocuments (documents : List σ) : Shelf α :=
  ⟨documents.map list, .ofList (Entry.collect name (documents.map list))⟩

private theorem foldl_putAll_start (documents : List σ) :
    documents.zipIdx.foldl (putAll name list) ⟨List.replicate documents.length [], {}⟩
      = ofDocuments name list documents := by
  have h := foldl_putAll name list [] documents {}
  rw [List.length_nil, List.nil_append, List.nil_append] at h
  rw [ofDocuments, Entry.collect, List.zipIdx_map, List.flatMap_map]
  exact h

private theorem map_place_collect (lists : List (List α)) :
    (Entry.collect name lists).map (fun p => (p.1, p.2.place))
      = (lists.map (·.map name)).zipIdx.flatMap fun (names, document) =>
          names.zipIdx.filterMap fun (n, slot) => n.map fun n => (n.key, (document, slot)) := by
  rw [Entry.collect, List.map_flatMap, List.zipIdx_map, List.flatMap_map]
  refine List.flatMap_congr fun row _ => ?_
  obtain ⟨row, document⟩ := row
  simp only [Prod.map_apply, id_eq]
  rw [List.map_filterMap, List.zipIdx_map, List.filterMap_map]
  refine List.filterMap_congr fun p _ => ?_
  exact Option.map_map ..

/-- The places of components depend on nothing but their names. -/
theorem map_place_ofDocuments {β τ : Type} (other : β → Option QName) (others : τ → List β)
    (documents : List σ) (rows : List τ)
    (h : documents.map (fun d => (list d).map name) = rows.map fun r => (others r).map other) :
    (ofDocuments name list documents).registry.map (·.place)
      = (ofDocuments other others rows).registry.map (·.place) := by
  rw [ofDocuments, ofDocuments, Registry.map_ofList, Registry.map_ofList, map_place_collect,
    map_place_collect, List.map_map, List.map_map]
  exact congrArg (fun names => Registry.ofList (List.flatMap _ (List.zipIdx names))) h

end Shelf

namespace Builder

open Catalog (LoadOptions)
open Document (ofSchema)

variable (scope : AttributeScope) (options : LoadOptions) (document : Nat)

private theorem foldl_addGroup (items : List Written.Item) (b : Builder)
    (unfilled : Shelf AttributeGroup)
    (hl : b.attributeGroups = unfilled.lists) (hp : b.places = unfilled.registry.map (·.place)) :
    let s : Written.Schema := { items }
    let placed := unfilled.putAll (some ·.name) (·.attributeGroups.map (·.unfilled)) (s, document)
    ∃ warnings notes, items.foldl (addGroup scope options document) b
      = { b with
          groups := b.groups.putAll (some ·.name) (·.groups) (ofSchema scope s, document)
          attributeGroups := placed.lists
          places := placed.registry.map (·.place)
          warnings, notes } := by
  induction items generalizing b unfilled with
  | nil =>
    refine ⟨b.warnings, b.notes, ?_⟩
    cases b
    cases hl
    cases hp
    rfl
  | cons item items ih =>
    rw [List.foldl_cons]
    cases item with
    | group g => exact ih _ unfilled hl hp
    | attributeGroup g =>
      refine ih _ (unfilled.put document (some g.name) g.unfilled) ?_ ?_
      · exact congrArg (List.modify · document _) hl
      · rw [Shelf.put, Registry.map_insert, ← hp, ← hl]
        rfl
    | _ => exact ih b unfilled hl hp

private theorem foldl_addType (items : List Written.Item) (b : Builder) :
    let d := ofSchema scope { items }
    ∃ warnings notes, items.foldl (addType scope options document) b
      = { b with
          complexTypes := b.complexTypes.putAll (·.name) (·.complexTypes) (d, document)
          simpleTypes := b.simpleTypes.putAll (·.name) (·.simpleTypes) (d, document)
          attributes := b.attributes.putAll (some ·.name) (·.attributes) (d, document)
          warnings, notes } := by
  induction items generalizing b with
  | nil => exact ⟨b.warnings, b.notes, rfl⟩
  | cons item items ih =>
    obtain ⟨warnings, notes, h⟩ := ih (addType scope options document b item)
    refine ⟨warnings, notes, h.trans ?_⟩
    rcases item with ⟨name, documentation, source, variety⟩
      | ⟨name, documentation, source, isAbstract, mixed, content⟩ | a | e | g | g
    · rfl
    · rfl
    · have hs : (ofSchema scope { items := .attribute a :: items }).attributes
          = (a :: Written.Schema.attributes { items }).filterMap fun a => a.interpretGlobal.value :=
        rfl
      simp only [Shelf.putAll, hs, List.filterMap_cons, Written.Attribute.interpretGlobal, addType]
      cases a.name <;> rfl
    · rfl
    · rfl
    · rfl

private theorem foldl_addElement (items : List Written.Item) (b : Builder) :
    let d := ofSchema scope { items }
    ∃ warnings notes, items.foldl (addElement scope options document) b
      = { b with
          elements := b.elements.putAll (some ·.name) (·.elements) (d, document)
          warnings, notes } := by
  induction items generalizing b with
  | nil => exact ⟨b.warnings, b.notes, rfl⟩
  | cons item items ih =>
    obtain ⟨warnings, notes, h⟩ := ih (addElement scope options document b item)
    refine ⟨warnings, notes, h.trans ?_⟩
    cases item with
    | element e =>
      have hs : (ofSchema scope { items := .element e :: items }).elements
          = (e :: Written.Schema.elements { items }).filterMap fun e =>
            (e.interpretGlobal scope).value :=
        rfl
      simp only [Shelf.putAll, hs, List.filterMap_cons, Written.Element.interpretGlobal, addElement]
      cases e.name <;> rfl
    | _ => rfl

/-- An attribute group with its attributes in place of those it had. -/
def filled (g : Written.AttributeGroup) (place : AttributeGroup) : AttributeGroup :=
  { place with attributes := (g.expand scope).value }

/-- Fills the attribute groups of a document. -/
def fillAll (s : Written.Schema) (groups : List AttributeGroup) : List AttributeGroup :=
  s.attributeGroups.zipIdx.foldl (fun row p => row.modify p.2 (filled scope p.1)) groups

private theorem fillAll_unfilled (s : Written.Schema) :
    fillAll scope s (s.attributeGroups.map (·.unfilled)) = (ofSchema scope s).attributeGroups :=
  foldl_modify_zipIdx (filled scope) (·.unfilled) [] s.attributeGroups

private theorem foldl_fillGroup (places : List (Written.AttributeGroup × Nat)) (b : Builder) :
    ∃ notes, places.foldl (fillGroup scope document) b
      = { b with
          attributeGroups := b.attributeGroups.modify document fun groups =>
            places.foldl (fun row p => row.modify p.2 (filled scope p.1)) groups
          notes } := by
  induction places generalizing b with
  | nil =>
    have hid : b.attributeGroups.modify document (fun groups => groups) = b.attributeGroups :=
      List.modify_id document b.attributeGroups
    exact ⟨b.notes, by simp only [List.foldl_nil, hid]⟩
  | cons place places ih =>
    obtain ⟨notes, h⟩ := ih (fillGroup scope document b place)
    refine ⟨notes, h.trans ?_⟩
    simp only [fillGroup, List.modify_modify_eq]
    rfl

private theorem addOthers_eq (b : Builder) (s : Written.Schema × Nat) :
    let d := (ofSchema scope s.1, s.2)
    ∃ warnings notes, addOthers scope options b s
      = { b with
          elements := b.elements.putAll (some ·.name) (·.elements) d
          complexTypes := b.complexTypes.putAll (·.name) (·.complexTypes) d
          simpleTypes := b.simpleTypes.putAll (·.name) (·.simpleTypes) d
          attributes := b.attributes.putAll (some ·.name) (·.attributes) d
          attributeGroups := b.attributeGroups.modify s.2 (fillAll scope s.1)
          warnings, notes } := by
  have hf := foldl_fillGroup scope s.2 s.1.attributeGroups.zipIdx
    (s.1.items.foldl (addType scope options s.2) b)
  have he := foldl_addElement scope options s.2 s.1.items
    (s.1.attributeGroups.zipIdx.foldl (fillGroup scope s.2)
      (s.1.items.foldl (addType scope options s.2) b))
  obtain ⟨warnings, notes, ht⟩ := foldl_addType scope options s.2 s.1.items b
  rw [ht] at hf he
  obtain ⟨notes, hf⟩ := hf
  rw [hf] at he
  obtain ⟨warnings, notes, he⟩ := he
  refine ⟨warnings, notes, ?_⟩
  rw [addOthers, ht, hf]
  exact he

private theorem foldl_addGroups (schemas : List (Written.Schema × Nat)) (b : Builder)
    (unfilled : Shelf AttributeGroup) (hl : b.attributeGroups = unfilled.lists)
    (hp : b.places = unfilled.registry.map (·.place)) :
    ∃ warnings notes, schemas.foldl (addGroups scope options) b
      = { b with
          groups := (schemas.map fun s => (ofSchema scope s.1, s.2)).foldl
            (Shelf.putAll (some ·.name) (·.groups)) b.groups
          attributeGroups := (schemas.foldl
            (Shelf.putAll (some ·.name) (·.attributeGroups.map (·.unfilled))) unfilled).lists
          places := (schemas.foldl (Shelf.putAll (some ·.name)
            (·.attributeGroups.map (·.unfilled))) unfilled).registry.map (·.place)
          warnings, notes } := by
  induction schemas generalizing b unfilled with
  | nil =>
    refine ⟨b.warnings, b.notes, ?_⟩
    cases b
    cases hl
    cases hp
    rfl
  | cons s schemas ih =>
    obtain ⟨warnings, notes, h⟩ := foldl_addGroup scope options s.2 s.1.items b unfilled hl hp
    have h : addGroups scope options b s = _ := h
    obtain ⟨warnings, notes, hr⟩ := ih (addGroups scope options b s)
      (unfilled.putAll (some ·.name) (·.attributeGroups.map (·.unfilled)) s) (by rw [h]; rfl)
      (by rw [h]; rfl)
    refine ⟨warnings, notes, hr.trans ?_⟩
    rw [h]
    rfl

private theorem foldl_addOthers (schemas : List (Written.Schema × Nat)) (b : Builder) :
    let documents := schemas.map fun s => (ofSchema scope s.1, s.2)
    ∃ warnings notes, schemas.foldl (addOthers scope options) b
      = { b with
          elements := documents.foldl (Shelf.putAll (some ·.name) (·.elements)) b.elements
          complexTypes := documents.foldl (Shelf.putAll (·.name) (·.complexTypes)) b.complexTypes
          simpleTypes := documents.foldl (Shelf.putAll (·.name) (·.simpleTypes)) b.simpleTypes
          attributes := documents.foldl (Shelf.putAll (some ·.name) (·.attributes)) b.attributes
          attributeGroups := schemas.foldl (fun lists s => lists.modify s.2 (fillAll scope s.1))
            b.attributeGroups
          warnings, notes } := by
  induction schemas generalizing b with
  | nil => exact ⟨b.warnings, b.notes, rfl⟩
  | cons s schemas ih =>
    obtain ⟨warnings, notes, h⟩ := addOthers_eq scope options b s
    obtain ⟨warnings, notes, hr⟩ := ih (addOthers scope options b s)
    refine ⟨warnings, notes, hr.trans ?_⟩
    rw [h]
    rfl

private theorem addSchemas_eq (schemas : List Written.Schema) :
    let documents := schemas.map (ofSchema scope)
    let attributeGroups := Shelf.ofDocuments (some ·.name) (·.attributeGroups) documents
    ∃ warnings notes, addSchemas scope options schemas
      = { elements := .ofDocuments (some ·.name) (·.elements) documents
          complexTypes := .ofDocuments (·.name) (·.complexTypes) documents
          simpleTypes := .ofDocuments (·.name) (·.simpleTypes) documents
          attributes := .ofDocuments (some ·.name) (·.attributes) documents
          groups := .ofDocuments (some ·.name) (·.groups) documents
          attributeGroups := attributeGroups.lists
          places := attributeGroups.registry.map (·.place)
          warnings, notes } := by
  intro documents attributeGroups
  have hz : schemas.zipIdx.map (fun s => (ofSchema scope s.1, s.2)) = documents.zipIdx := by
    rw [List.zipIdx_map]
    rfl
  have hd : schemas.length = documents.length := (List.length_map _).symm
  obtain ⟨warnings, notes, hg⟩ := foldl_addGroups scope options schemas.zipIdx
    (start schemas.length) ⟨List.replicate schemas.length [], {}⟩ rfl rfl
  obtain ⟨warnings, notes, ho⟩ := foldl_addOthers scope options schemas.zipIdx
    (schemas.zipIdx.foldl (addGroups scope options) (start schemas.length))
  have hl : schemas.zipIdx.foldl (fun lists s => lists.modify s.2 (fillAll scope s.1))
      (schemas.map (·.attributeGroups.map (·.unfilled))) = attributeGroups.lists := by
    have h := foldl_modify_zipIdx (fillAll scope) (·.attributeGroups.map (·.unfilled)) [] schemas
    simp only [fillAll_unfilled] at h
    rw [show attributeGroups.lists = _ from List.map_map]
    exact h
  have hp := Shelf.map_place_ofDocuments (some ·.name) (·.attributeGroups.map (·.unfilled))
    (some ·.name) (·.attributeGroups) schemas documents (by
      rw [List.map_map]
      refine List.map_congr_left fun s _ => ?_
      rw [Function.comp_apply, ofSchema, List.map_map, List.map_map]
      rfl)
  refine ⟨warnings, notes, ho.trans ?_⟩
  rw [hg, hz]
  simp only [start, Shelf.foldl_putAll_start] at hp ⊢
  rw [hp, hd]
  simp only [Shelf.foldl_putAll_start]
  rw [← hl]
  rfl

private theorem map_document {b : Builder} {schemas : List Written.Schema}
    (he : b.elements.lists = (schemas.map (ofSchema scope)).map (·.elements))
    (hc : b.complexTypes.lists = (schemas.map (ofSchema scope)).map (·.complexTypes))
    (ht : b.simpleTypes.lists = (schemas.map (ofSchema scope)).map (·.simpleTypes))
    (ha : b.attributes.lists = (schemas.map (ofSchema scope)).map (·.attributes))
    (hg : b.groups.lists = (schemas.map (ofSchema scope)).map (·.groups))
    (hag : b.attributeGroups = (schemas.map (ofSchema scope)).map (·.attributeGroups)) :
    schemas.zipIdx.map b.document = schemas.map (ofSchema scope) := by
  have h : ∀ s ∈ schemas.zipIdx, b.document s = ofSchema scope s.1 := by
    intro s hs
    have hs := List.mem_zipIdx_iff_getElem?.1 hs
    rw [document, he, hc, ht, ha, hg, hag]
    simp only [List.getElem?_map, hs, Option.map_some, Option.getD_some]
    rfl
  have hm : schemas.zipIdx.map (fun s => ofSchema scope s.1)
      = (schemas.zipIdx.map Prod.fst).map (ofSchema scope) := by
    rw [List.map_map]
    rfl
  rw [List.map_congr_left h, hm, List.zipIdx_map_fst]

/-- Every place leads to the attribute group that was put there. -/
theorem filterMap_atPlace (documents : List Document) :
    let registry := (Shelf.ofDocuments (some ·.name) (·.attributeGroups) documents).registry
    (registry.map (·.place)).entries.filterMap (fun p => (atPlace documents p.2).map (p.1, ·))
      = registry.entries := by
  intro registry
  rw [Registry.map, List.filterMap_map]
  refine (List.filterMap_congr fun p hp => ?_).trans List.filterMap_some
  obtain ⟨row, hr, hc, -⟩ := Entry.mem_collect.1 (Registry.mem_of_mem_ofList hp)
  rw [List.getElem?_map, Option.map_eq_some_iff] at hr
  obtain ⟨d, hd, rfl⟩ := hr
  simp [atPlace, Entry.place, hd, hc]

end Builder

theorem Catalog.load_eq (schemas : List Written.Schema) (options : LoadOptions) :
    let documents := schemas.map (Document.ofSchema (.ofSchemas schemas))
    Catalog.load schemas options
      = { documents
          elements := .ofList (Entry.collect (some ·.name) (documents.map (·.elements)))
          complexTypes := .ofList (Entry.collect (·.name) (documents.map (·.complexTypes)))
          simpleTypes := .ofList (Entry.collect (·.name) (documents.map (·.simpleTypes)))
          attributes := .ofList (Entry.collect (some ·.name) (documents.map (·.attributes)))
          groups := .ofList (Entry.collect (some ·.name) (documents.map (·.groups)))
          attributeGroups :=
            .ofList (Entry.collect (some ·.name) (documents.map (·.attributeGroups)))
          diagnostics := (Catalog.load schemas options).diagnostics } := by
  intro documents
  obtain ⟨warnings, notes, h⟩ := Builder.addSchemas_eq (.ofSchemas schemas) options schemas
  have hd : schemas.zipIdx.map (Builder.addSchemas (.ofSchemas schemas) options schemas).document
      = documents := by
    rw [h]
    exact Builder.map_document (.ofSchemas schemas) rfl rfl rfl rfl rfl rfl
  have hp := Builder.filterMap_atPlace documents
  rw [Catalog.load, Builder.finish, hd, h]
  simp only at hp ⊢
  rw [hp]
  rfl

end XsdCatalog
