import XsdCatalog.Proofs.PlainNames

/-!
# Qualifiers take no part

Schemas that differ in the qualifiers of names and in how they write that a name has no namespace
make catalogs that compare equal and answer equal names with equal answers. They are the same
schemas once their names are plain, and making names plain commutes with loading.
-/

namespace XsdCatalog

open Relabelling (plain)

/-- The registries have the same keys in the same order, each with an entry at the same place and
with a component that compares equal. -/
def Registry.SameEntries {α : Type} [BEq α] (r r' : Registry (Entry α)) : Prop :=
  (r.entries == r'.entries) = true ∧ r.map (·.place) = r'.map (·.place)

/-- The diagnostics are the same, or they warn about duplicates of one kind and place with names
that compare equal. -/
def Diagnostic.SameButName (d d' : Diagnostic) : Prop :=
  d = d' ∨ ∃ r r' : Registration, d = r.duplicate ∧ d' = r'.duplicate ∧ r.kind = r'.kind ∧
    r.source = r'.source ∧ (r.name == r'.name) = true

private theorem Registry.sameEntries_of_map {α : Type} [BEq α] {f : α → α} (hf : Respects f)
    {r r' : Registry (Entry α)} (h : r.map (Entry.map f) = r'.map (Entry.map f)) :
    r.SameEntries r' := by
  have hentries := congrArg entries h
  refine ⟨?_, ?_⟩
  · refine Respects.list_beq (f := fun p : String × Entry α => (p.1, p.2.map f)) ?_ hentries
    intro p _ q hpq
    rw [Prod.mk.injEq] at hpq
    show (p.1 == q.1 && p.2 == q.2) = true
    rw [hpq.1, hf.entry.beq hpq.2, beq_self_eq_true]
    rfl
  · have hplaces := congrArg (·.map Entry.place) h
    simpa [map, Function.comp_def, Entry.map, Entry.place] using hplaces

private theorem forall₂_of_map {α : Type} {f : α → α} {as bs : List α} (h : as.map f = bs.map f) :
    List.Forall₂ (fun a b => f a = f b) as bs := by
  rw [← List.forall₂_eq_eq_eq, List.forall₂_map_left_iff, List.forall₂_map_right_iff] at h
  exact h

namespace Written.Schema

variable {schemas schemas' : List Schema}
  (h : schemas.map (·.relabel plain) = schemas'.map (·.relabel plain))

include h

private theorem diagnostics_of_plain :
    schemas.flatMap (·.diagnostics) = schemas'.flatMap (·.diagnostics) := by
  have hall (schemas : List Schema) : schemas.flatMap (·.diagnostics)
      = (schemas.map (·.relabel plain)).flatMap (·.diagnostics) := by
    rw [List.flatMap_map]
    refine List.flatMap_congr fun s _ => ?_
    show s.diagnostics = s.diagnostics.map (·.relabel plain)
    rw [List.map_congr_left fun d _ => d.relabel_plain, List.map_id']
  rw [hall schemas, hall schemas', h]

private theorem notes_of_plain :
    notesOf (.ofSchemas schemas) schemas = notesOf (.ofSchemas schemas') schemas' := by
  have hall (schemas : List Schema) : notesOf (.ofSchemas schemas) schemas
      = notesOf (.ofSchemas (schemas.map (·.relabel plain))) (schemas.map (·.relabel plain)) := by
    rw [AttributeScope.ofSchemas_relabel, notesOf_relabel,
      List.map_congr_left fun d _ => d.relabel_plain, List.map_id']
  rw [hall schemas, hall schemas', h]

private theorem repeated_of_plain :
    (Registration.repeated [] (registrations schemas)).map (·.relabel plain)
      = (Registration.repeated [] (registrations schemas')).map (·.relabel plain) := by
  rw [← Registration.repeated_relabel, ← Registration.repeated_relabel, ← registrations_relabel,
    ← registrations_relabel, h]

theorem diagnostics_load_of_plain (options : Catalog.LoadOptions) :
    List.Forall₂ Diagnostic.SameButName (Catalog.load schemas options).diagnostics
      (Catalog.load schemas' options).diagnostics := by
  have hsame (ds : List Diagnostic) : List.Forall₂ Diagnostic.SameButName ds ds :=
    List.forall₂_same.2 fun _ _ => .inl rfl
  have hrepeated : List.Forall₂ Diagnostic.SameButName
      ((Registration.repeated [] (registrations schemas)).map (·.duplicate))
      ((Registration.repeated [] (registrations schemas')).map (·.duplicate)) := by
    rw [List.forall₂_map_left_iff, List.forall₂_map_right_iff]
    refine (forall₂_of_map (repeated_of_plain h)).imp fun r r' hr => ?_
    obtain ⟨kind, name, source⟩ := r
    obtain ⟨kind', name', source'⟩ := r'
    simp only [Registration.relabel, Registration.mk.injEq] at hr
    obtain ⟨hkind, hname, hsource⟩ := hr
    exact .inr ⟨_, _, rfl, rfl, hkind, source_eq hsource, respects_name.beq hname⟩
  rw [Catalog.diagnostics_load, Catalog.diagnostics_load, diagnostics_of_plain h, notes_of_plain h]
  refine List.rel_append (List.rel_append (hsame _) ?_) (hsame _)
  cases options.reportDuplicates with
  | true => exact hrepeated
  | false => exact .nil

end Written.Schema

/-- Names that compare equal stand for attributes that compare equal, and enter the same groups. -/
theorem AttributeScope.expandName_of_plain {scope scope' : AttributeScope}
    (hscope : scope.relabel plain = scope'.relabel plain) {q q' : QName}
    (hq : plain.name q = plain.name q') (visited : List String) :
    ((scope.expandName visited q).value.uses == (scope'.expandName visited q').value.uses) = true ∧
      (scope.expandName visited q).value.visited
        = (scope'.expandName visited q').value.visited := by
  have hexpand := scope.expand_relabel plain visited [.group q]
  have hexpand' := scope'.expand_relabel plain visited [.group q']
  have hitems : [Written.AttributeItem.group q].map (·.relabel plain)
      = [Written.AttributeItem.group q'].map (·.relabel plain) :=
    congrArg (fun name => [Written.AttributeItem.group name]) hq
  rw [hscope, hitems, hexpand'] at hexpand
  have hvalue := congrArg (·.value) hexpand
  exact ⟨AttributeUse.respects.list.beq (congrArg (·.uses) hvalue).symm,
    (congrArg (·.visited) hvalue).symm⟩

open Written (Schema)

/-- Schemas that differ only in the qualifiers of names, and in whether a name in no namespace has
none or an empty one, make catalogs that cannot be told apart but by names shown in warnings about
duplicates: documents and registries compare equal, the same references have no target, and names
that compare equal are answered alike, while loading as well as afterwards. -/
theorem load_of_requalified {schemas schemas' : List Schema} (options : Catalog.LoadOptions)
    (h : schemas.map (·.relabel plain) = schemas'.map (·.relabel plain)) :
    let c := Catalog.load schemas options
    let c' := Catalog.load schemas' options
    (c.documents == c'.documents) = true ∧
      c.elements.SameEntries c'.elements ∧ c.complexTypes.SameEntries c'.complexTypes ∧
      c.simpleTypes.SameEntries c'.simpleTypes ∧ c.attributes.SameEntries c'.attributes ∧
      c.groups.SameEntries c'.groups ∧ c.attributeGroups.SameEntries c'.attributeGroups ∧
      List.Forall₂ (fun ref ref' => ref.kind = ref'.kind ∧ (ref.name == ref'.name) = true)
        c.unresolved c'.unresolved ∧
      List.Forall₂ Diagnostic.SameButName c.diagnostics c'.diagnostics ∧
      ∀ q q' : QName, (q == q') = true →
        (c.element? q == c'.element? q') = true ∧
        (c.complexType? q == c'.complexType? q') = true ∧
        (c.simpleType? q == c'.simpleType? q') = true ∧
        (c.attribute? q == c'.attribute? q') = true ∧
        (c.group? q == c'.group? q') = true ∧
        (c.attributeGroup? q == c'.attributeGroup? q') = true ∧
        (c.resolveType q == c'.resolveType q') = true ∧
        (c.resolveElement q == c'.resolveElement q') = true ∧
        (c.resolveGroup q == c'.resolveGroup q') = true ∧
        (c.expandAttributeGroup q == c'.expandAttributeGroup q') = true ∧
        ∀ (finished finished' : Registry AttributeGroup) (visited : List String),
          finished.map (·.relabel plain) = finished'.map (·.relabel plain) →
            let e := AttributeScope.expandName
              { AttributeScope.ofSchemas schemas with finished } visited q
            let e' := AttributeScope.expandName
              { AttributeScope.ofSchemas schemas' with finished := finished' } visited q'
            (e.value.uses == e'.value.uses) = true ∧ e.value.visited = e'.value.visited := by
  intro c c'
  have hc := Catalog.relabels_load plain schemas options
  have hc' := Catalog.relabels_load plain schemas' options
  rw [← h] at hc'
  refine ⟨?_, Registry.sameEntries_of_map Element.respects (hc.elements.symm.trans hc'.elements),
    Registry.sameEntries_of_map ComplexType.respects (hc.complexTypes.symm.trans hc'.complexTypes),
    Registry.sameEntries_of_map SimpleType.respects (hc.simpleTypes.symm.trans hc'.simpleTypes),
    Registry.sameEntries_of_map Attribute.respects (hc.attributes.symm.trans hc'.attributes),
    Registry.sameEntries_of_map Group.respects (hc.groups.symm.trans hc'.groups),
    Registry.sameEntries_of_map AttributeGroup.respects
      (hc.attributeGroups.symm.trans hc'.attributeGroups), ?_,
    Schema.diagnostics_load_of_plain h options, ?_⟩
  · refine Respects.list_beq ?_ (hc.documents.symm.trans hc'.documents)
    intro d hd d' hdd'
    refine Document.beq_of_relabel hdd' ?_
    have hd : d ∈ schemas.map (Document.ofSchema (.ofSchemas schemas)) := by
      rw [show c = _ from Catalog.load_eq schemas options] at hd
      exact hd
    obtain ⟨s, -, rfl⟩ := List.mem_map.1 hd
    exact Registry.nodup_keys_ofList s.bindings
  · have hunresolved := hc.unresolved_eq.symm.trans hc'.unresolved_eq
    refine (forall₂_of_map hunresolved).imp fun ref ref' hr => ?_
    obtain ⟨kind, name⟩ := ref
    obtain ⟨kind', name'⟩ := ref'
    simp only [Reference.relabel, Reference.mk.injEq] at hr
    exact ⟨hr.1, respects_name.beq hr.2⟩
  · intro q q' hq
    have hq : plain.name q = plain.name q' := QName.plain_eq_plain_iff.2 hq
    refine ⟨Element.respects.option.beq ?_, ComplexType.respects.option.beq ?_,
      SimpleType.respects.option.beq ?_, Attribute.respects.option.beq ?_,
      Group.respects.option.beq ?_, AttributeGroup.respects.option.beq ?_,
      Catalog.ResolvedType.respects.beq ?_, (Catalog.Resolution.respects Element.respects).beq ?_,
      (Catalog.Resolution.respects Group.respects).beq ?_, AttributeUse.respects.list.beq ?_, ?_⟩
    · rw [← hc.element?_eq, ← hc'.element?_eq, hq]
    · rw [← hc.complexType?_eq, ← hc'.complexType?_eq, hq]
    · rw [← hc.simpleType?_eq, ← hc'.simpleType?_eq, hq]
    · rw [← hc.attribute?_eq, ← hc'.attribute?_eq, hq]
    · rw [← hc.group?_eq, ← hc'.group?_eq, hq]
    · rw [← hc.attributeGroup?_eq, ← hc'.attributeGroup?_eq, hq]
    · rw [← hc.resolveType_eq, ← hc'.resolveType_eq, hq]
    · rw [← hc.resolveElement_eq, ← hc'.resolveElement_eq, hq]
    · rw [← hc.resolveGroup_eq, ← hc'.resolveGroup_eq, hq]
    · rw [← hc.expandAttributeGroup_eq, ← hc'.expandAttributeGroup_eq, hq]
    · intro finished finished' visited hfinished e e'
      have hdeclared := congrArg (·.declared) (AttributeScope.ofSchemas_relabel plain schemas)
      have hdeclared' := congrArg (·.declared) (AttributeScope.ofSchemas_relabel plain schemas')
      refine AttributeScope.expandName_of_plain ?_ hq visited
      rw [← h] at hdeclared'
      rw [AttributeScope.relabel, AttributeScope.relabel, AttributeScope.mk.injEq]
      exact ⟨hdeclared.symm.trans hdeclared', hfinished⟩

/-- Two elements of one name, a type that refers to an attribute group, and this group, which refers
to itself, all of them with one qualifier. -/
def qualifiedSchemas : List Schema :=
  let name (localName : String) : QName := (QName.inSpace "urn:a" localName).withQualifier "p"
  [{ document := some "a.xsd"
     items := [
      .element { name := some (name "e"), typeName := some (name "T") },
      .element { name := some (name "e"), typeName := some (name "missing") },
      .complexType {
        name := some (name "T")
        content := .direct none { items := [.group (name "g")] } },
      .attributeGroup {
        name := name "g"
        attributes := {
          items := [.attribute { name := some (.unbound "id") }, .group (name "g")] } }] }]

/-- The same schema with other qualifiers, with and without one, and with an empty namespace. -/
def requalifiedSchemas : List Schema :=
  let bare (localName : String) : QName := { space := some "urn:a", localName }
  let name (localName : String) : QName := (bare localName).withQualifier "q"
  [{ document := some "a.xsd"
     items := [
      .element { name := some (bare "e"), typeName := some (name "T") },
      .element { name := some (name "e"), typeName := some (bare "missing") },
      .complexType {
        name := some (name "T")
        content := .direct none { items := [.group (bare "g")] } },
      .attributeGroup {
        name := name "g"
        attributes := {
          items := [
            .attribute { name := some { space := some "", localName := "id" } },
            .group (bare "g")] } }] }]

theorem load_of_requalifiedSchemas :
    qualifiedSchemas.map (·.relabel plain) = requalifiedSchemas.map (·.relabel plain) ∧
      ((Catalog.load qualifiedSchemas).documents
        == (Catalog.load requalifiedSchemas).documents) = true := by
  have hplain : qualifiedSchemas.map (·.relabel plain) = requalifiedSchemas.map (·.relabel plain) :=
    rfl
  exact ⟨hplain, (load_of_requalified {} hplain).1⟩

end XsdCatalog
