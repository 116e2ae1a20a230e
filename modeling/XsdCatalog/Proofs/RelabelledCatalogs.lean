import XsdCatalog.Proofs.LoadDiagnostics
import XsdCatalog.Proofs.Loading
import XsdCatalog.Proofs.RelabelledComponents
import XsdCatalog.Proofs.UnresolvedReferences

/-!
# Catalogs of relabelled schemas

Loading relabelled schemas gives the relabelled documents and registries, and what is asked of the
catalog under a relabelled name is answered with the relabelled answer. Diagnostics are the same up
to the names in warnings about duplicates.
-/

namespace XsdCatalog

def Reference.relabel (r : Relabelling) (ref : Reference) : Reference :=
  { ref with name := r.name ref.name }

private theorem Reference.key_relabel (r : Relabelling) (ref : Reference) :
    (ref.relabel r).key = ref.key :=
  congrArg (ref.kind, ·) (r.key_name ref.name)

private theorem Reference.types_map (r : Relabelling) (name : Option QName) :
    Reference.types (name.map r.name) = (Reference.types name).map (·.relabel r) := by
  cases name <;> rfl

section References

variable (r : Relabelling)

mutual

private theorem SimpleType.references_relabel (t : SimpleType) :
    (t.relabel r).references = t.references.map (·.relabel r) := by
  obtain ⟨name, documentation, source, variety⟩ := t
  exact SimpleType.referencesOfVariety_relabel variety

private theorem SimpleType.referencesOfVariety_relabel (v : Variety SimpleType) :
    referencesOfVariety (relabelVariety r v) = (referencesOfVariety v).map (·.relabel r) := by
  cases v with
  | builtin => rfl
  | restriction base facets => exact Reference.types_map r base
  | list item t =>
    cases t with
    | none => exact Reference.types_map r item
    | some t =>
      simp [relabelVariety, referencesOfVariety, Reference.types_map, references_relabel t]
  | union members ts =>
    simp [relabelVariety, referencesOfVariety, referencesOfAll_relabel ts, Reference.relabel]

private theorem SimpleType.referencesOfAll_relabel (ts : List SimpleType) :
    referencesOfAll (ts.map (·.relabel r)) = (referencesOfAll ts).map (·.relabel r) := by
  cases ts with
  | nil => rfl
  | cons t ts => simp [referencesOfAll, references_relabel t, referencesOfAll_relabel ts]

end

private theorem Attribute.references_relabel (a : Attribute) :
    (a.relabel r).references = a.references.map (·.relabel r) := by
  obtain ⟨name, type, defaultValue, fixedValue, documentation, source⟩ := a
  cases type with
  | none => rfl
  | some type =>
    cases type with
    | named name => rfl
    | anonymous t => exact t.references_relabel r

private theorem AttributeUse.references_relabel (u : AttributeUse) :
    (u.relabel r).references = u.references.map (·.relabel r) := by
  obtain ⟨usage, target⟩ := u
  cases target with
  | reference name => rfl
  | declared a => exact a.references_relabel r

mutual

private theorem Particle.references_relabel (p : Particle) :
    Particle.references (p.relabel r) = (Particle.references p).map (·.relabel r) := by
  obtain ⟨term, occurs, source⟩ := p
  exact Term.references_relabel term

private theorem Term.references_relabel (t : Term Particle) :
    Term.references (t.relabel r) = (Term.references t).map (·.relabel r) := by
  cases t with
  | element e =>
    cases e with
    | reference name nillable isAbstract => rfl
    | declared e =>
      obtain ⟨name, type, nillable, isAbstract, default, fixed⟩ := e
      exact TypeDefinition.referencesOfType_relabel type
  | wildcard w => rfl
  | group name => rfl
  | model g =>
    obtain ⟨kind, particles⟩ := g
    simp [Term.relabel, Term.references, Particle.referencesOfAll_relabel particles]

private theorem Particle.referencesOfAll_relabel (ps : List Particle) :
    Particle.referencesOfAll (ps.map (·.relabel r))
      = (Particle.referencesOfAll ps).map (·.relabel r) := by
  cases ps with
  | nil => rfl
  | cons p ps =>
    simp [Particle.referencesOfAll, Particle.references_relabel p,
      Particle.referencesOfAll_relabel ps]

private theorem TypeDefinition.referencesOfType_relabel
    (type : Option (TypeRef (TypeDefinition Particle))) :
    TypeDefinition.referencesOfType (TypeDefinition.relabelRef r type)
      = (TypeDefinition.referencesOfType type).map (·.relabel r) := by
  cases type with
  | none => rfl
  | some type =>
    cases type with
    | named name => rfl
    | anonymous t =>
      cases t with
      | simple t => exact t.references_relabel r
      | complex t => exact ComplexType.references_relabel t

private theorem ComplexType.references_relabel (t : ComplexType Particle) :
    ComplexType.references (t.relabel r) = (ComplexType.references t).map (·.relabel r) := by
  obtain ⟨name, documentation, source, isAbstract, mixed, base, derivation, content, uses,
    wildcard⟩ := t
  cases content with
  | none =>
    simp [ComplexType.relabel, ComplexType.references, Reference.types_map,
      flatMap_relabelled (AttributeUse.references_relabel r)]
  | some content =>
    simp [ComplexType.relabel, ComplexType.references, Reference.types_map,
      flatMap_relabelled (AttributeUse.references_relabel r), Particle.references_relabel content]

end

end References

def Document.relabel (r : Relabelling) (d : Document) : Document :=
  { d with
    elements := d.elements.map (·.relabel r)
    complexTypes := d.complexTypes.map (·.relabel r)
    simpleTypes := d.simpleTypes.map (·.relabel r)
    attributes := d.attributes.map (·.relabel r)
    groups := d.groups.map (·.relabel r)
    attributeGroups := d.attributeGroups.map (·.relabel r) }

section Documents

variable (r : Relabelling) (scope : AttributeScope)

namespace Written

private theorem Element.interpretGlobal_relabel (e : Element Particle) :
    (e.relabel r).interpretGlobal (scope.relabel r)
      = Option.map (·.relabel r) <$> (e.interpretGlobal scope).moved r := by
  have hname : (e.relabel r).name = e.name.map r.name := by
    cases e
    rfl
  rw [interpretGlobal, interpretGlobal, hname]
  cases e.name with
  | none => rfl
  | some name => simp [interpretAs_relabel]

private theorem Attribute.interpretGlobal_relabel (a : Attribute) :
    (a.relabel r).interpretGlobal = Option.map (·.relabel r) <$> a.interpretGlobal.moved r := by
  have hname : (a.relabel r).name = a.name.map r.name := rfl
  rw [interpretGlobal, interpretGlobal, hname]
  cases a.name with
  | none => rfl
  | some name => simp [interpretAs_relabel]

end Written

private theorem Document.ofSchema_relabel (s : Written.Schema) :
    ofSchema (scope.relabel r) (s.relabel r) = (ofSchema scope s).relabel r := by
  have hheader : header (s.relabel r) = header s := rfl
  rw [ofSchema, ofSchema, hheader, relabel]
  simp only [Written.Schema.elements_relabel, Written.Schema.complexTypes_relabel,
    Written.Schema.simpleTypes_relabel, Written.Schema.attributes_relabel,
    Written.Schema.groups_relabel, Written.Schema.attributeGroups_relabel, List.filterMap_map,
    List.map_filterMap, List.map_map, Function.comp_def,
    Written.Element.interpretGlobal_relabel, Written.ComplexType.interpret_relabel,
    Written.SimpleType.interpret_relabel, Written.Attribute.interpretGlobal_relabel,
    Written.Group.interpret_relabel, Written.AttributeGroup.interpret_relabel,
    Noted.value_map, Noted.value_moved]

theorem AttributeScope.ofSchemas_relabel (schemas : List Written.Schema) :
    ofSchemas (schemas.map (·.relabel r)) = (ofSchemas schemas).relabel r := by
  have hgroups : (schemas.map (·.relabel r)).flatMap (·.attributeGroups)
      = (schemas.flatMap (·.attributeGroups)).map (·.relabel r) := by
    exact flatMap_relabelled (fun s => s.attributeGroups_relabel r) schemas
  have hkey (g : Written.AttributeGroup) : (g.relabel r).name.key = g.name.key :=
    r.key_name g.name
  rw [ofSchemas, ofSchemas, relabel, hgroups]
  simp only [Registry.map_ofList, List.map_map, Function.comp_def, hkey]
  rfl

private theorem Element.references_relabel (e : Element) :
    (e.relabel r).references = e.references.map (·.relabel r) := by
  have hhead : (e.substitutionHead.map r.name).toList.map (Reference.mk .element)
      = (e.substitutionHead.toList.map (Reference.mk .element)).map (·.relabel r) := by
    cases e.substitutionHead <;> rfl
  rw [references, references, List.map_append, ← hhead, ← TypeDefinition.referencesOfType_relabel]
  rfl

private theorem Document.references_relabel (d : Document) :
    (d.relabel r).references = d.references.map (·.relabel r) := by
  have hgroups : (d.groups.map (·.relabel r)).flatMap
        (fun g => Particle.referencesOfAll g.content.particles)
      = (d.groups.flatMap fun g => Particle.referencesOfAll g.content.particles).map
        (·.relabel r) := by
    refine flatMap_relabelled ?_ d.groups
    intro g
    exact Particle.referencesOfAll_relabel r g.content.particles
  have hattributeGroups : (d.attributeGroups.map (·.relabel r)).flatMap
        (fun g => g.attributes.flatMap (·.references))
      = (d.attributeGroups.flatMap fun g => g.attributes.flatMap (·.references)).map
        (·.relabel r) := by
    refine flatMap_relabelled ?_ d.attributeGroups
    intro g
    exact flatMap_relabelled (AttributeUse.references_relabel r) g.attributes
  simp only [references, relabel, List.map_append, hgroups, hattributeGroups,
    flatMap_relabelled (Element.references_relabel r),
    flatMap_relabelled (ComplexType.references_relabel r),
    flatMap_relabelled (SimpleType.references_relabel r),
    flatMap_relabelled (Attribute.references_relabel r)]

end Documents

namespace Entry

variable {α : Type}

/-- The entry with another component. -/
def map (f : α → α) (e : Entry α) : Entry α :=
  { e with component := f e.component }

private theorem collect_map {f : α → α} {name : α → Option QName}
    (h : ∀ a, (name (f a)).map (·.key) = (name a).map (·.key)) (lists : List (List α)) :
    collect name (lists.map (List.map f)) = (collect name lists).map fun p => (p.1, p.2.map f) := by
  rw [collect, collect, List.zipIdx_map, List.flatMap_map, List.map_flatMap]
  refine List.flatMap_congr fun row _ => ?_
  obtain ⟨row, document⟩ := row
  simp only [Prod.map_apply, id_eq]
  rw [List.zipIdx_map, List.filterMap_map, List.map_filterMap]
  refine List.filterMap_congr fun p _ => ?_
  obtain ⟨component, slot⟩ := p
  have hentry (a : α) (e : Entry α) : (name a).map (fun n => (n.key, e))
      = ((name a).map (·.key)).map fun key => (key, e) := by
    rw [Option.map_map]
    rfl
  show (name (f component)).map _ = ((name component).map _).map _
  rw [hentry, h, hentry]
  cases name component <;> rfl

end Entry

namespace Catalog

/-- A catalog has the relabelled documents and registries of another one. Diagnostics are left out
of account. -/
structure Relabels (r : Relabelling) (c c' : Catalog) : Prop where
  documents : c'.documents = c.documents.map (·.relabel r)
  elements : c'.elements = c.elements.map (.map (·.relabel r))
  complexTypes : c'.complexTypes = c.complexTypes.map (.map (·.relabel r))
  simpleTypes : c'.simpleTypes = c.simpleTypes.map (.map (·.relabel r))
  attributes : c'.attributes = c.attributes.map (.map (·.relabel r))
  groups : c'.groups = c.groups.map (.map (·.relabel r))
  attributeGroups : c'.attributeGroups = c.attributeGroups.map (.map (·.relabel r))

theorem relabels_load (r : Relabelling) (schemas : List Written.Schema) (options : LoadOptions) :
    Relabels r (load schemas options) (load (schemas.map (·.relabel r)) options) := by
  have hdocuments : (schemas.map (·.relabel r)).map
        (Document.ofSchema (.ofSchemas (schemas.map (·.relabel r))))
      = (schemas.map (Document.ofSchema (.ofSchemas schemas))).map (·.relabel r) := by
    rw [AttributeScope.ofSchemas_relabel, List.map_map, List.map_map]
    exact List.map_congr_left fun s _ => Document.ofSchema_relabel r (.ofSchemas schemas) s
  have hregistry {α : Type} {list : Document → List α} {f : α → α} {name : α → Option QName}
      (hlist : ∀ d : Document, list (d.relabel r) = (list d).map f)
      (hname : ∀ a, (name (f a)).map (·.key) = (name a).map (·.key)) (documents : List Document) :
      Registry.ofList (Entry.collect name ((documents.map (·.relabel r)).map list))
        = (Registry.ofList (Entry.collect name (documents.map list))).map (.map f) := by
    have hlists : (documents.map (·.relabel r)).map list
        = (documents.map list).map (List.map f) := by
      rw [List.map_map, List.map_map]
      exact List.map_congr_left fun d _ => hlist d
    rw [hlists, Entry.collect_map hname, Registry.map_ofList]
  have hkey (name : QName) : (some (r.name name)).map (·.key) = (some name).map (·.key) :=
    congrArg some (r.key_name name)
  have hkeys (name : Option QName) : (name.map r.name).map (·.key) = name.map (·.key) := by
    cases name with
    | none => rfl
    | some name => exact hkey name
  rw [load_eq schemas options, load_eq (schemas.map (·.relabel r)) options]
  simp only [hdocuments]
  constructor
  · rfl
  · exact hregistry (fun _ => rfl) (fun e => hkey e.name) _
  · exact hregistry (fun _ => rfl) (fun t => by cases t; exact hkeys _) _
  · exact hregistry (fun _ => rfl) (fun t => by cases t; exact hkeys _) _
  · exact hregistry (fun _ => rfl) (fun a => hkey a.name) _
  · exact hregistry (fun _ => rfl) (fun g => hkey g.name) _
  · exact hregistry (fun _ => rfl) (fun g => hkey g.name) _

def ResolvedType.relabel (r : Relabelling) : ResolvedType → ResolvedType
  | complex t => complex (t.relabel r)
  | simple t => simple (t.relabel r)
  | builtin name => builtin (r.name name)
  | unresolved name => unresolved (r.name name)

def Resolution.relabel {α : Type} (r : Relabelling) (f : α → α) : Resolution α → Resolution α
  | found component => found (f component)
  | unresolved name => unresolved (r.name name)

private theorem ResolvedType.isResolved_relabel (r : Relabelling) (t : ResolvedType) :
    (t.relabel r).isResolved = t.isResolved := by
  cases t <;> rfl

namespace Relabels

section Registries

variable {α : Type} {registry registry' : Registry (Entry α)} {f : α → α}
  (h : registry' = registry.map (.map f)) (r : Relabelling) (name : QName)

include h

/-- What is filed under a name is filed, relabelled, under the relabelled name. -/
theorem get?_eq :
    (registry'.get? (r.name name).key).map (·.component)
      = ((registry.get? name.key).map (·.component)).map f := by
  rw [h, r.key_name, Registry.get?_map, Option.map_map, Option.map_map]
  rfl

private theorem contains_eq :
    registry'.contains (r.name name).key = registry.contains name.key := by
  rw [h, r.key_name, Registry.contains, Registry.contains, Registry.get?_map, Option.isSome_map]

end Registries

variable {r : Relabelling} {c c' : Catalog} (h : Relabels r c c') (name : QName)

include h

theorem element?_eq : c'.element? (r.name name) = (c.element? name).map (·.relabel r) :=
  get?_eq h.elements r name

theorem complexType?_eq :
    c'.complexType? (r.name name) = (c.complexType? name).map (·.relabel r) :=
  get?_eq h.complexTypes r name

theorem simpleType?_eq : c'.simpleType? (r.name name) = (c.simpleType? name).map (·.relabel r) :=
  get?_eq h.simpleTypes r name

theorem attribute?_eq : c'.attribute? (r.name name) = (c.attribute? name).map (·.relabel r) :=
  get?_eq h.attributes r name

theorem group?_eq : c'.group? (r.name name) = (c.group? name).map (·.relabel r) :=
  get?_eq h.groups r name

theorem attributeGroup?_eq :
    c'.attributeGroup? (r.name name) = (c.attributeGroup? name).map (·.relabel r) :=
  get?_eq h.attributeGroups r name

theorem resolveType_eq : c'.resolveType (r.name name) = (c.resolveType name).relabel r := by
  rw [resolveType, resolveType, h.complexType?_eq, h.simpleType?_eq, r.isBuiltin_name]
  cases c.complexType? name with
  | some t => rfl
  | none =>
    cases c.simpleType? name with
    | some t => rfl
    | none => cases hbuiltin : name.isBuiltin <;> rfl

theorem resolveElement_eq :
    c'.resolveElement (r.name name) = (c.resolveElement name).relabel r (·.relabel r) := by
  rw [resolveElement, resolveElement, h.element?_eq]
  cases c.element? name <;> rfl

theorem resolveGroup_eq :
    c'.resolveGroup (r.name name) = (c.resolveGroup name).relabel r (·.relabel r) := by
  rw [resolveGroup, resolveGroup, h.group?_eq]
  cases c.group? name <;> rfl

theorem expandAttributeGroup_eq :
    c'.expandAttributeGroup (r.name name) = (c.expandAttributeGroup name).map (·.relabel r) := by
  let finished : Registry AttributeGroup := c.attributeGroups.map (·.component)
  have hfinished : c'.attributeGroups.map (·.component) = finished.map (·.relabel r) := by
    rw [h.attributeGroups]
    simp only [finished, Registry.map, List.map_map]
    rfl
  have hexpand := AttributeScope.expand_relabel r { finished } [] [.group name]
  have huses := congrArg (·.value.uses) hexpand
  show (AttributeScope.expandName { finished := c'.attributeGroups.map (·.component) } []
    (r.name name)).value.uses = _
  rw [hfinished]
  exact huses

private theorem resolves_eq (ref : Reference) : c'.resolves (ref.relabel r) = c.resolves ref := by
  obtain ⟨kind, name⟩ := ref
  cases kind with
  | element => exact contains_eq h.elements r name
  | type =>
    show (c'.resolveType (r.name name)).isResolved = (c.resolveType name).isResolved
    rw [h.resolveType_eq, ResolvedType.isResolved_relabel]
  | «attribute» =>
    show ((r.name name).spaceText == xmlSpace || c'.attributes.contains (r.name name).key) = _
    rw [r.spaceText_name, contains_eq h.attributes]
    rfl
  | group => exact contains_eq h.groups r name

private theorem unresolvedAmong_eq (seen : List (ReferenceKind × String)) (refs : List Reference) :
    c'.unresolvedAmong seen (refs.map (·.relabel r))
      = (c.unresolvedAmong seen refs).map (·.relabel r) := by
  induction refs generalizing seen with
  | nil => rfl
  | cons ref refs ih =>
    rw [List.map_cons, unresolvedAmong, unresolvedAmong, h.resolves_eq, ref.key_relabel]
    split
    · exact ih seen
    · rw [ih, List.map_cons]

theorem unresolved_eq : c'.unresolved = c.unresolved.map (·.relabel r) := by
  have hreferences : c'.documents.flatMap (·.references)
      = (c.documents.flatMap (·.references)).map (·.relabel r) := by
    rw [h.documents]
    exact flatMap_relabelled (Document.references_relabel r) c.documents
  rw [unresolved, unresolved, hreferences, h.unresolvedAmong_eq]

end Relabels

end Catalog

def Registration.relabel (r : Relabelling) (registration : Registration) : Registration :=
  { registration with
    name := r.name registration.name
    source := registration.source.map r.place }

namespace Registration

variable (r : Relabelling)

private theorem id_relabel (registration : Registration) :
    (registration.relabel r).id = registration.id :=
  congrArg (registration.kind, ·) (r.key_name registration.name)

theorem repeated_relabel (seen : List (ComponentKind × String)) (rs : List Registration) :
    repeated seen (rs.map (·.relabel r)) = (repeated seen rs).map (·.relabel r) := by
  induction rs generalizing seen with
  | nil => rfl
  | cons registration rs ih =>
    rw [List.map_cons, repeated, repeated, id_relabel, ih]
    split <;> rfl

end Registration

namespace Written

variable (r : Relabelling) (scope : AttributeScope)

namespace Item

private theorem groupRegistration?_relabel (item : Item) :
    (item.relabel r).groupRegistration? = item.groupRegistration?.map (·.relabel r) := by
  cases item <;> rfl

private theorem typeRegistration?_relabel (item : Item) :
    (item.relabel r).typeRegistration? = item.typeRegistration?.map (·.relabel r) := by
  cases item with
  | simpleType t =>
    obtain ⟨name, documentation, source, variety⟩ := t
    cases name <;> rfl
  | complexType t =>
    obtain ⟨name, documentation, source, isAbstract, mixed, content⟩ := t
    cases name <;> rfl
  | «attribute» a =>
    show (a.name.map r.name).map _ = (a.name.map _).map _
    cases a.name <;> rfl
  | _ => rfl

private theorem elementRegistration?_relabel (item : Item) :
    (item.relabel r).elementRegistration? = item.elementRegistration?.map (·.relabel r) := by
  cases item with
  | element e =>
    obtain ⟨name, reference, typeName, anonymous, isAbstract, nillable, defaultValue, fixedValue,
      substitutionHead, documentation, source⟩ := e
    cases name <;> rfl
  | _ => rfl

private theorem groupNotes_relabel (item : Item) :
    (item.relabel r).groupNotes (scope.relabel r)
      = (item.groupNotes scope).map (·.relabel r) := by
  cases item with
  | group g => simp [relabel, groupNotes, g.interpret_relabel]
  | _ => rfl

private theorem typeNotes_relabel (item : Item) :
    (item.relabel r).typeNotes (scope.relabel r) = (item.typeNotes scope).map (·.relabel r) := by
  cases item with
  | simpleType t => simp [relabel, typeNotes, t.interpret_relabel]
  | complexType t => simp [relabel, typeNotes, t.interpret_relabel]
  | «attribute» a => simp [relabel, typeNotes, a.interpretGlobal_relabel]
  | _ => rfl

private theorem elementNotes_relabel (item : Item) :
    (item.relabel r).elementNotes (scope.relabel r)
      = (item.elementNotes scope).map (·.relabel r) := by
  cases item with
  | element e => simp [relabel, elementNotes, e.interpretGlobal_relabel]
  | _ => rfl

end Item

namespace Schema

theorem registrations_relabel (schemas : List Schema) :
    registrations (schemas.map (·.relabel r)) = (registrations schemas).map (·.relabel r) := by
  rw [registrations, registrations, List.map_append]
  refine congrArg₂ (· ++ ·) (flatMap_relabelled ?_ schemas) (flatMap_relabelled ?_ schemas)
  · intro s
    exact picked_relabel r s (Item.groupRegistration?_relabel r)
  · intro s
    rw [List.map_append, picked_relabel r s (Item.typeRegistration?_relabel r),
      picked_relabel r s (Item.elementRegistration?_relabel r)]

theorem notesOf_relabel (schemas : List Schema) :
    notesOf (scope.relabel r) (schemas.map (·.relabel r))
      = (notesOf scope schemas).map (·.relabel r) := by
  have hgroups (s : Schema) := flatMap_relabelled (Item.groupNotes_relabel r scope) s.items
  have htypes (s : Schema) := flatMap_relabelled (Item.typeNotes_relabel r scope) s.items
  have helements (s : Schema) := flatMap_relabelled (Item.elementNotes_relabel r scope) s.items
  have hfill (s : Schema) : (s.relabel r).attributeGroups.flatMap
        (fun g => (g.expand (scope.relabel r)).notes)
      = (s.attributeGroups.flatMap fun g => (g.expand scope).notes).map (·.relabel r) := by
    rw [s.attributeGroups_relabel]
    refine flatMap_relabelled (fun g => ?_) s.attributeGroups
    rw [g.expand_relabel, Noted.notes_map, Noted.notes_moved]
  have hothers (s : Schema) :
      (s.relabel r).items.flatMap (Item.typeNotes (scope.relabel r))
          ++ (s.relabel r).attributeGroups.flatMap (fun g => (g.expand (scope.relabel r)).notes)
          ++ (s.relabel r).items.flatMap (Item.elementNotes (scope.relabel r))
        = (s.items.flatMap (Item.typeNotes scope)
          ++ s.attributeGroups.flatMap (fun g => (g.expand scope).notes)
          ++ s.items.flatMap (Item.elementNotes scope)).map (·.relabel r) := by
    rw [List.map_append, List.map_append, hfill]
    exact congrArg₂ (· ++ _ ++ ·) (htypes s) (helements s)
  rw [notesOf, notesOf, List.map_append]
  exact congrArg₂ (· ++ ·) (flatMap_relabelled hgroups schemas) (flatMap_relabelled hothers schemas)

end Schema

end Written

end XsdCatalog
