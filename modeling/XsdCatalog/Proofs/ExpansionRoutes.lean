import Mathlib.Data.List.Forall2
import XsdCatalog.Proofs.GroupRecursion
import XsdCatalog.Proofs.OwnerAttributes
import XsdCatalog.Proofs.RegistryContents

/-!
# Three ways to the attributes of a name

The attributes that the name of an attribute group stands for are found in the declarations, in the
finished groups of a catalog, and in each complex type that only refers to the name. The finished
groups are the declared ones, each with its own items expanded and its own key visited already,
which is what a reference to the group does as well. So all three ways lead to the same attributes.
-/

namespace XsdCatalog

open Written (AttributeItem)

namespace AttributeScope

variable {scope : AttributeScope} {visited : List String} {name : QName}

/-- A name matters by its key only. -/
theorem expandName_congr {other : QName} (h : other.key = name.key) :
    scope.expandName visited other = scope.expandName visited name := by
  rw [expandName, expandName, expand, expand, expandStack]
  conv_rhs => rw [expandStack]
  rw [h]

/-- A declared group stands for what its items do, once it is visited itself. -/
theorem uses_expandName_of_declared {g : Written.AttributeGroup} (h : name.key ∉ visited)
    (hd : scope.declared.get? name.key = some g) :
    (scope.expandName visited name).value.uses
      = (scope.expand (name.key :: visited) g.attributes.items).value.uses := by
  have hinner := expands_expand scope (name.key :: visited) g.attributes.items
  rw [expandName, (Expands.declared h hd hinner .nil).expand_eq, andThen_end]

/-- A group that is only among the finished ones stands for the uses it was filed with. -/
theorem uses_expandName_of_finished {g : AttributeGroup} (h : name.key ∉ visited)
    (hd : scope.declared.get? name.key = none) (hf : scope.finished.get? name.key = some g) :
    (scope.expandName visited name).value.uses = g.attributes := by
  rw [expandName, (Expands.finished h hd hf .nil).expand_eq]
  simp [Expansion.after]

/-- An unknown name stands for nothing. -/
theorem uses_expandName_of_unknown (h : name.key ∉ visited)
    (hd : scope.declared.get? name.key = none) (hf : scope.finished.get? name.key = none) :
    (scope.expandName visited name).value.uses = [] := by
  rw [expandName, (Expands.unknown h hd hf .nil).expand_eq]
  rfl

/-- What is declared under a key has a name with this key. -/
theorem key_of_declared {schemas : List Written.Schema} {key : String}
    {g : Written.AttributeGroup} (h : (ofSchemas schemas).declared.get? key = some g) :
    g.name.key = key := by
  rw [declared_ofSchemas] at h
  simpa using List.find?_some h

end AttributeScope

namespace Catalog

variable (schemas : List Written.Schema) (options : LoadOptions)

/-- The finished groups are what the last declarations of their names stand for. -/
theorem finished_load :
    (load schemas options).attributeGroups.map (·.component)
      = (AttributeScope.ofSchemas schemas).declared.map fun g =>
        (g.interpret (.ofSchemas schemas)).value := by
  have hgroups : ((schemas.map (Document.ofSchema (.ofSchemas schemas))).map
        (·.attributeGroups)).flatten
      = (schemas.flatMap (·.attributeGroups)).map fun g =>
        (g.interpret (.ofSchemas schemas)).value := by
    rw [List.map_map, ← List.flatMap_def, List.map_flatMap]
    rfl
  have hkeyed (gs : List Written.AttributeGroup) :
      Entry.keyed (some ·.name) (gs.map fun g => (g.interpret (.ofSchemas schemas)).value)
        = gs.map fun g => (g.name.key, (g.interpret (.ofSchemas schemas)).value) := by
    rw [Entry.keyed, List.filterMap_map]
    exact congrFun List.filterMap_eq_map gs
  rw [load_eq, Registry.map_ofList, Entry.map_component_collect, hgroups, hkeyed,
    AttributeScope.ofSchemas, Registry.map_ofList, List.map_map]
  rfl

/-- The finished groups of a catalog lead to the same attributes as the declarations. -/
theorem expandAttributeGroup_load (name : QName) :
    (load schemas options).expandAttributeGroup name
      = ((AttributeScope.ofSchemas schemas).expandName [] name).value.uses := by
  have hfinished : (⟨(load schemas options).attributeGroups.entries.map fun p =>
      (p.1, p.2.component)⟩ : Registry AttributeGroup) = _ := finished_load schemas options
  have hget := Registry.get?_map (fun g : Written.AttributeGroup =>
    (g.interpret (.ofSchemas schemas)).value) (AttributeScope.ofSchemas schemas).declared name.key
  rw [expandAttributeGroup]
  simp only [hfinished]
  cases hd : (AttributeScope.ofSchemas schemas).declared.get? name.key with
  | some g =>
    rw [hd] at hget
    rw [AttributeScope.uses_expandName_of_finished List.not_mem_nil rfl hget,
      AttributeScope.uses_expandName_of_declared List.not_mem_nil hd,
      ← AttributeScope.key_of_declared hd]
    rfl
  | none =>
    rw [hd] at hget
    rw [AttributeScope.uses_expandName_of_unknown List.not_mem_nil rfl hget,
      AttributeScope.uses_expandName_of_unknown List.not_mem_nil hd rfl]

/-- The attributes of complex types, as they are written and as they stand in the documents. -/
theorem ownedUses_load :
    List.Forall₂ (fun (s : Written.Schema) (d : Document) =>
        List.Forall₂ (fun items own =>
            own = ((AttributeScope.ofSchemas schemas).expand [] items).value.uses)
          s.ownedItems d.ownedUses)
      schemas (load schemas options).documents := by
  rw [load_eq]
  refine List.forall₂_map_right_iff.2 (List.forall₂_same.2 fun s _ => ?_)
  rw [Written.Schema.ownedUses_ofSchema]
  refine List.forall₂_map_right_iff.2 (List.forall₂_same.2 fun items _ => ?_)
  rw [Written.ownUses, AttributeScope.expand_value]

end Catalog

/-- A name stands for the same attributes wherever they are looked for: among the finished groups of
a catalog, among the declarations, and at each complex type of a document, at whatever depth, that
has nothing but one reference to the name. A name that no attribute group is declared with stands
for none. -/
theorem attributes_by_each_route (schemas : List Written.Schema) (options : Catalog.LoadOptions)
    (name : QName) :
    let c := Catalog.load schemas options
    let uses := ((AttributeScope.ofSchemas schemas).expandName [] name).value.uses
    c.expandAttributeGroup name = uses ∧
    List.Forall₂ (fun (s : Written.Schema) (d : Document) =>
        List.Forall₂ (fun items own =>
            ∀ reference : QName, reference.key = name.key → items = [.group reference] → own = uses)
          s.ownedItems d.ownedUses)
      schemas c.documents ∧
    ((∀ s ∈ schemas, ∀ g ∈ s.attributeGroups, g.name.key ≠ name.key) → uses = []) := by
  intro c uses
  refine ⟨Catalog.expandAttributeGroup_load schemas options name, ?_, ?_⟩
  · refine (Catalog.ownedUses_load schemas options).imp fun s d howned => howned.imp ?_
    rintro items own rfl reference hkey rfl
    exact congrArg (·.value.uses) (AttributeScope.expandName_congr hkey)
  · intro hunknown
    have hd : (AttributeScope.ofSchemas schemas).declared.get? name.key = none := by
      rw [AttributeScope.declared_ofSchemas, List.find?_eq_none]
      intro g hg
      obtain ⟨s, hs, hg⟩ := List.mem_flatMap.1 (List.mem_reverse.1 hg)
      simpa using hunknown s hs g hg
    exact AttributeScope.uses_expandName_of_unknown List.not_mem_nil hd rfl

/-- An attribute group in a circle with `circularCommon`. -/
def circularPerson : Written.AttributeGroup where
  name := .unbound "person"
  attributes := {
    items := [.attribute { name := some (.unbound "id") }, .group (.unbound "common")] }

def circularCommon : Written.AttributeGroup where
  name := .unbound "common"
  attributes := {
    items := [.group (.unbound "person"), .attribute { name := some (.unbound "lang") }] }

/-- A name declared in two documents, the second time in a circle, and an element in a type with a
type that refers to it. -/
def circularSchemas : List Written.Schema :=
  [{ items := [
      .attributeGroup {
        name := .unbound "person"
        attributes := { items := [.attribute { name := some (.unbound "replaced") }] } },
      .complexType {
        name := some (.unbound "T")
        content := .direct (some { term := .model .sequence [{ term := .element {
          name := some (.unbound "e")
          anonymous := some (.complex {
            content := .direct none { items := [.group (.unbound "person")] } }) } }] }) {} }] },
   { items := [.attributeGroup circularPerson, .attributeGroup circularCommon] }]

/-- The rules go through the circle once. -/
theorem names_expandName_person :
    (((AttributeScope.ofSchemas circularSchemas).expandName [] (.unbound "person")).value.uses).map
      (·.name.localName) = ["id", "lang"] := by
  let person := QName.unbound "person"
  let common := QName.unbound "common"
  have hperson : (AttributeScope.ofSchemas circularSchemas).declared.get? person.key
      = some circularPerson := rfl
  have hcommon : (AttributeScope.ofSchemas circularSchemas).declared.get? common.key
      = some circularCommon := rfl
  have hfresh : common.key ∉ [person.key] := by decide
  have hback : person.key ∈ [common.key, person.key] := by decide
  have hlang := AttributeScope.Expands.declared hfresh hcommon (.visited hback (.direct .nil)) .nil
  have hrules := AttributeScope.Expands.declared List.not_mem_nil hperson (.direct hlang) .nil
  rw [AttributeScope.expandName, hrules.expand_eq]
  rfl

theorem attributes_of_circularSchemas :
    let c := Catalog.load circularSchemas
    (c.expandAttributeGroup (.unbound "person")).map (·.name.localName) = ["id", "lang"] ∧
    c.expandAttributeGroup (.unbound "person") ∈ c.documents.flatMap (·.ownedUses) ∧
    (∀ s ∈ circularSchemas, ∀ g ∈ s.attributeGroups, g.name.key ≠ (QName.unbound "nobody").key) ∧
    c.expandAttributeGroup (.unbound "nobody") = [] := by
  intro c
  obtain ⟨hperson, howned, -⟩ := attributes_by_each_route circularSchemas {} (.unbound "person")
  obtain ⟨hnobody, -, hunknown⟩ := attributes_by_each_route circularSchemas {} (.unbound "nobody")
  have hnone : ∀ s ∈ circularSchemas, ∀ g ∈ s.attributeGroups,
      g.name.key ≠ (QName.unbound "nobody").key := by
    decide
  have hnames : (c.expandAttributeGroup (.unbound "person")).map (·.name.localName)
      = ["id", "lang"] := by
    rw [hperson]
    exact names_expandName_person
  refine ⟨hnames, ?_, hnone, hnobody.trans (hunknown hnone)⟩
  obtain ⟨d, ds, hd, -, hdocuments⟩ := List.forall₂_cons_left_iff.1 howned
  -- the second complex type of the first document is the one inside the element
  have hd : List.Forall₂ _ [[], [AttributeItem.group (.unbound "person")]] d.ownedUses := hd
  obtain ⟨outer, rest, -, hrest, houter⟩ := List.forall₂_cons_left_iff.1 hd
  obtain ⟨own, rest', hown, -, rfl⟩ := List.forall₂_cons_left_iff.1 hrest
  have huses := hown (.unbound "person") rfl rfl
  rw [hperson, ← huses]
  refine List.mem_flatMap.2 ⟨d, hdocuments ▸ List.mem_cons_self, ?_⟩
  rw [houter]
  exact List.mem_cons_of_mem _ List.mem_cons_self

end XsdCatalog
