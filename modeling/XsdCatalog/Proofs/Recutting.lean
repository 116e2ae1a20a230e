import XsdCatalog.Proofs.RegistryContents

/-!
# Schemas cut into other documents

What the registries hold depends on the declarations and on their order, not on where one document
ends and the next one begins. So a schema may be split into several documents, and documents may be
merged into one: every name stands for the same component, and every attribute group for the same
attributes.
-/

namespace XsdCatalog

open Written (Item Schema)

namespace Written.Schema

/-- What is picked out of items is picked out of them one by one. -/
theorem filterMap_eq_flatMap_singleton {α : Type} (f : Item → Option α) (items : List Item) :
    items.filterMap f = items.flatMap fun item => [item].filterMap f := by
  induction items with
  | nil => rfl
  | cons item items ih =>
    rw [List.flatMap_cons, ← ih, ← List.filterMap_append]
    rfl

theorem attributeGroups_congr {schemas schemas' : List Schema}
    (h : schemas.flatMap (·.items) = schemas'.flatMap (·.items)) :
    schemas.flatMap (·.attributeGroups) = schemas'.flatMap (·.attributeGroups) := by
  have hall (schemas : List Schema) : schemas.flatMap (·.attributeGroups)
      = ({ items := schemas.flatMap (·.items) } : Schema).attributeGroups := by
    simp only [attributeGroups, List.filterMap_flatMap]
  rw [hall, hall, h]

end Written.Schema

private theorem AttributeScope.ofSchemas_congr {schemas schemas' : List Schema}
    (h : schemas.flatMap (·.items) = schemas'.flatMap (·.items)) :
    AttributeScope.ofSchemas schemas = AttributeScope.ofSchemas schemas' := by
  rw [ofSchemas, ofSchemas, Schema.attributeGroups_congr h]

namespace Document

/-- A list of a document that holds what the declarations stand for one by one. -/
def Itemwise {α : Type} (list : Document → List α) : Prop :=
  ∀ (scope : AttributeScope) (s : Schema), list (ofSchema scope s)
    = s.items.flatMap fun item => list (ofSchema scope { items := [item] })

private theorem itemwise_elements : Itemwise (·.elements) := by
  intro scope s
  simp only [ofSchema, Schema.elements]
  rw [Schema.filterMap_eq_flatMap_singleton, List.filterMap_flatMap]

private theorem itemwise_complexTypes : Itemwise (·.complexTypes) := by
  intro scope s
  simp only [ofSchema, Schema.complexTypes]
  rw [Schema.filterMap_eq_flatMap_singleton, List.map_flatMap]

private theorem itemwise_simpleTypes : Itemwise (·.simpleTypes) := by
  intro scope s
  simp only [ofSchema, Schema.simpleTypes]
  rw [Schema.filterMap_eq_flatMap_singleton, List.map_flatMap]

private theorem itemwise_attributes : Itemwise (·.attributes) := by
  intro scope s
  simp only [ofSchema, Schema.attributes]
  rw [Schema.filterMap_eq_flatMap_singleton, List.filterMap_flatMap]

private theorem itemwise_groups : Itemwise (·.groups) := by
  intro scope s
  simp only [ofSchema, Schema.groups]
  rw [Schema.filterMap_eq_flatMap_singleton, List.map_flatMap]

private theorem itemwise_attributeGroups : Itemwise (·.attributeGroups) := by
  intro scope s
  simp only [ofSchema, Schema.attributeGroups]
  rw [Schema.filterMap_eq_flatMap_singleton, List.map_flatMap]

/-- All documents together hold what all declarations stand for. -/
theorem Itemwise.flatten_eq {α : Type} {list : Document → List α} (hlist : Itemwise list)
    (scope : AttributeScope) (schemas : List Schema) :
    ((schemas.map (ofSchema scope)).map list).flatten
      = (schemas.flatMap (·.items)).flatMap fun item =>
        list (ofSchema scope { items := [item] }) := by
  rw [List.map_map, ← List.flatMap_def, List.flatMap_assoc]
  apply List.flatMap_congr
  intro s _
  exact hlist scope s

end Document

/-- The components of a registry do not tell how lists were cut. -/
theorem Entry.map_component_ofList {α : Type} (name : α → Option QName) (lists : List (List α)) :
    (Registry.ofList (collect name lists)).map (·.component)
      = Registry.ofList (keyed name lists.flatten) := by
  rw [Registry.map_ofList, map_component_collect]

private theorem Registry.component_get?_congr {α : Type} {r r' : Registry (Entry α)}
    (h : r.map (·.component) = r'.map (·.component)) (key : String) :
    (r.get? key).map (·.component) = (r'.get? key).map (·.component) := by
  rw [← get?_map, ← get?_map, h]

namespace Catalog

/-- The six registries of two catalogs have the same keys in the same order, each with the same
component. -/
structure SameRegistries (c c' : Catalog) : Prop where
  elements : c.elements.map (·.component) = c'.elements.map (·.component)
  complexTypes : c.complexTypes.map (·.component) = c'.complexTypes.map (·.component)
  simpleTypes : c.simpleTypes.map (·.component) = c'.simpleTypes.map (·.component)
  attributes : c.attributes.map (·.component) = c'.attributes.map (·.component)
  groups : c.groups.map (·.component) = c'.groups.map (·.component)
  attributeGroups : c.attributeGroups.map (·.component) = c'.attributeGroups.map (·.component)

namespace SameRegistries

variable {c c' : Catalog} (h : SameRegistries c c') (name : QName)

include h

private theorem element?_eq : c.element? name = c'.element? name :=
  Registry.component_get?_congr h.elements name.key

private theorem complexType?_eq : c.complexType? name = c'.complexType? name :=
  Registry.component_get?_congr h.complexTypes name.key

private theorem simpleType?_eq : c.simpleType? name = c'.simpleType? name :=
  Registry.component_get?_congr h.simpleTypes name.key

private theorem attribute?_eq : c.attribute? name = c'.attribute? name :=
  Registry.component_get?_congr h.attributes name.key

private theorem group?_eq : c.group? name = c'.group? name :=
  Registry.component_get?_congr h.groups name.key

private theorem attributeGroup?_eq : c.attributeGroup? name = c'.attributeGroup? name :=
  Registry.component_get?_congr h.attributeGroups name.key

private theorem resolveType_eq : c.resolveType name = c'.resolveType name := by
  simp only [resolveType, h.complexType?_eq, h.simpleType?_eq]

private theorem expandAttributeGroup_eq :
    c.expandAttributeGroup name = c'.expandAttributeGroup name := by
  have hfinished : (⟨c.attributeGroups.entries.map fun p => (p.1, p.2.component)⟩ :
        Registry AttributeGroup)
      = ⟨c'.attributeGroups.entries.map fun p => (p.1, p.2.component)⟩ := h.attributeGroups
  simp only [expandAttributeGroup, hfinished]

end SameRegistries

private theorem sameRegistries_load {schemas schemas' : List Schema}
    (options options' : LoadOptions) (h : schemas.flatMap (·.items) = schemas'.flatMap (·.items)) :
    SameRegistries (load schemas options) (load schemas' options') := by
  have hscope := AttributeScope.ofSchemas_congr h
  have hregistry {α : Type} {list : Document → List α} (hlist : Document.Itemwise list)
      (name : α → Option QName) :
      (Registry.ofList (Entry.collect name
          ((schemas.map (Document.ofSchema (.ofSchemas schemas))).map list))).map (·.component)
        = (Registry.ofList (Entry.collect name
          ((schemas'.map (Document.ofSchema (.ofSchemas schemas'))).map list))).map
            (·.component) := by
    rw [Entry.map_component_ofList, Entry.map_component_ofList, hlist.flatten_eq,
      hlist.flatten_eq, h, hscope]
  rw [load_eq schemas options, load_eq schemas' options']
  exact ⟨hregistry Document.itemwise_elements _, hregistry Document.itemwise_complexTypes _,
    hregistry Document.itemwise_simpleTypes _, hregistry Document.itemwise_attributes _,
    hregistry Document.itemwise_groups _, hregistry Document.itemwise_attributeGroups _⟩

end Catalog

/-- Documents with the same declarations in the same order make the same registries, however the
declarations are cut into documents. So every name stands for the same component, and attribute
groups have the same attributes, in the catalogs and where the declarations are interpreted. -/
theorem registries_of_recut {schemas schemas' : List Schema}
    (options options' : Catalog.LoadOptions)
    (h : schemas.flatMap (·.items) = schemas'.flatMap (·.items)) :
    let c := Catalog.load schemas options
    let c' := Catalog.load schemas' options'
    c.SameRegistries c' ∧
      (∀ name, c.element? name = c'.element? name ∧ c.complexType? name = c'.complexType? name ∧
        c.simpleType? name = c'.simpleType? name ∧ c.attribute? name = c'.attribute? name ∧
        c.group? name = c'.group? name ∧ c.attributeGroup? name = c'.attributeGroup? name ∧
        c.resolveType name = c'.resolveType name ∧
        c.resolveElement name = c'.resolveElement name ∧
        c.resolveGroup name = c'.resolveGroup name ∧
        c.expandAttributeGroup name = c'.expandAttributeGroup name) ∧
      ∀ (finished : Registry AttributeGroup) (visited : List String) (name : QName),
        AttributeScope.expandName { AttributeScope.ofSchemas schemas with finished } visited name
          = AttributeScope.expandName { AttributeScope.ofSchemas schemas' with finished }
            visited name := by
  intro c c'
  have hsame : c.SameRegistries c' := Catalog.sameRegistries_load options options' h
  refine ⟨hsame, ?_, ?_⟩
  · intro name
    have helement := hsame.element?_eq name
    have hgroup := hsame.group?_eq name
    exact ⟨helement, hsame.complexType?_eq name, hsame.simpleType?_eq name,
      hsame.attribute?_eq name, hgroup, hsame.attributeGroup?_eq name, hsame.resolveType_eq name,
      congrArg (Catalog.Resolution.ofOption name) helement,
      congrArg (Catalog.Resolution.ofOption name) hgroup, hsame.expandAttributeGroup_eq name⟩
  · intro finished visited name
    rw [AttributeScope.ofSchemas_congr h]

/-- Two attribute groups of one name, a type that refers to them, and two elements of one name. -/
def unsplitSchemas : List Schema :=
  [{ items := [
      .attributeGroup {
        name := .unbound "common"
        attributes := { items := [.attribute { name := some (.unbound "id") }] } },
      .element { name := some (.unbound "e"), typeName := some (.unbound "First") },
      .complexType {
        name := some (.unbound "T")
        content := .direct none { items := [.group (.unbound "common")] } },
      .element { name := some (.unbound "e"), typeName := some (.unbound "Second") },
      .attributeGroup {
        name := .unbound "common"
        attributes := { items := [.attribute { name := some (.unbound "key") }] } }] }]

/-- The same declarations with a cut behind each second one. -/
def splitSchemas : List Schema :=
  (unsplitSchemas.flatMap (·.items)).toChunks 2 |>.map fun items => { items }

theorem registries_of_splitSchemas :
    unsplitSchemas.flatMap (·.items) = splitSchemas.flatMap (·.items) ∧
      splitSchemas.length = 3 ∧
      (Catalog.load unsplitSchemas).SameRegistries (Catalog.load splitSchemas) := by
  have hitems : unsplitSchemas.flatMap (·.items) = splitSchemas.flatMap (·.items) := rfl
  exact ⟨hitems, rfl, (registries_of_recut {} {} hitems).1⟩

end XsdCatalog
