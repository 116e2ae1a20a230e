import Mathlib.Data.List.Basic
import XsdCatalog.Catalog.Reference

/-!
# References and their targets

Where a component refers to a name is said here place by place: which part of it has the name, or
which part has a part that has it. The rows of references that components are asked for hold these
and no others, however deep they stand.

Of all references of a catalog, those that have no target are reported, each kind and key at its
first place.
-/

namespace XsdCatalog

namespace SimpleType

/-- A simple type refers to a type, itself or in a type inside it. -/
inductive Refers : SimpleType → Reference → Prop
  | base {t : SimpleType} {name : QName} {facets : List Facet} :
      t.variety = .restriction (some name) facets → Refers t ⟨.type, name⟩
  | item {t : SimpleType} {name : QName} {inner : Option SimpleType} :
      t.variety = .list (some name) inner → Refers t ⟨.type, name⟩
  | inItem {t inner : SimpleType} {name : Option QName} {r : Reference} :
      t.variety = .list name (some inner) → Refers inner r → Refers t r
  | member {t : SimpleType} {name : QName} {members : List QName} {inner : List SimpleType} :
      t.variety = .union members inner → name ∈ members → Refers t ⟨.type, name⟩
  | inMember {t u : SimpleType} {members : List QName} {inner : List SimpleType} {r : Reference} :
      t.variety = .union members inner → u ∈ inner → Refers u r → Refers t r

mutual

private theorem refers_of_mem_references {r : Reference} :
    (t : SimpleType) → r ∈ t.references → t.Refers r
  | ⟨_, _, _, variety⟩, h => refers_of_mem_referencesOfVariety variety rfl h

private theorem refers_of_mem_referencesOfVariety {t : SimpleType} {r : Reference} :
    (v : Variety SimpleType) → t.variety = v → r ∈ referencesOfVariety v → t.Refers r
  | .builtin, _, h => nomatch h
  | .restriction none _, _, h => nomatch h
  | .restriction (some name) _, hv, h => List.mem_singleton.1 h ▸ .base hv
  | .list none none, _, h => nomatch h
  | .list (some name) none, hv, h => List.mem_singleton.1 h ▸ .item hv
  | .list item (some inner), hv, h => by
    rcases List.mem_append.1 h with h | h
    · cases item with
      | none => cases h
      | some name => exact List.mem_singleton.1 h ▸ .item hv
    · exact .inItem hv (refers_of_mem_references inner h)
  | .union members inner, hv, h => by
    rcases List.mem_append.1 h with h | h
    · obtain ⟨name, hname, rfl⟩ := List.mem_map.1 h
      exact .member hv hname
    · obtain ⟨u, hu, hr⟩ := exists_refers_of_mem_referencesOfAll inner h
      exact .inMember hv hu hr

private theorem exists_refers_of_mem_referencesOfAll {r : Reference} :
    (ts : List SimpleType) → r ∈ referencesOfAll ts → ∃ t ∈ ts, t.Refers r
  | [], h => nomatch h
  | t :: ts, h => by
    rcases List.mem_append.1 h with h | h
    · exact ⟨t, List.mem_cons_self, refers_of_mem_references t h⟩
    · obtain ⟨u, hu, hr⟩ := exists_refers_of_mem_referencesOfAll ts h
      exact ⟨u, List.mem_cons_of_mem _ hu, hr⟩

end

private theorem referencesOfAll_eq (ts : List SimpleType) :
    referencesOfAll ts = ts.flatMap (·.references) := by
  induction ts with
  | nil => rfl
  | cons t ts ih => rw [referencesOfAll, ih, List.flatMap_cons]

private theorem references_eq (t : SimpleType) : t.references = referencesOfVariety t.variety := by
  obtain ⟨name, documentation, source, variety⟩ := t
  rw [references]

private theorem mem_references_iff {t : SimpleType} {r : Reference} :
    r ∈ t.references ↔ t.Refers r := by
  refine ⟨refers_of_mem_references t, fun h => ?_⟩
  induction h with
  | base hv =>
    rw [references_eq, hv]
    exact List.mem_singleton.2 rfl
  | item hv =>
    rename_i inner
    rw [references_eq, hv]
    cases inner with
    | none => exact List.mem_singleton.2 rfl
    | some u => exact List.mem_append_left _ (List.mem_singleton.2 rfl)
  | inItem hv _ ih =>
    rw [references_eq, hv]
    exact List.mem_append_right _ ih
  | member hv hname =>
    rw [references_eq, hv]
    exact List.mem_append_left _ (List.mem_map_of_mem hname)
  | inMember hv hu _ ih =>
    rw [references_eq, hv, referencesOfVariety, referencesOfAll_eq]
    exact List.mem_append_right _ (List.mem_flatMap.2 ⟨_, hu, ih⟩)

end SimpleType

/-- An attribute refers to a type by its own type. -/
inductive Attribute.Refers (a : Attribute) : Reference → Prop
  | type {name : QName} : a.type = some (.named name) → Refers a ⟨.type, name⟩
  | inType {t : SimpleType} {r : Reference} :
      a.type = some (.anonymous t) → t.Refers r → Refers a r

private theorem Attribute.mem_references_iff {a : Attribute} {r : Reference} :
    r ∈ a.references ↔ a.Refers r := by
  constructor
  · intro h
    rw [references] at h
    split at h
    · next name ht => exact List.mem_singleton.1 h ▸ .type ht
    · next t ht => exact .inType ht (SimpleType.mem_references_iff.1 h)
    · cases h
  · intro h
    rw [references]
    cases h with
    | type ht =>
      rw [ht]
      exact List.mem_singleton.2 rfl
    | inType ht hr =>
      rw [ht]
      exact SimpleType.mem_references_iff.2 hr

/-- The use of an attribute refers to it, or to the types of one declared in place. -/
inductive AttributeUse.Refers (u : AttributeUse) : Reference → Prop
  | reference {name : QName} : u.target = .reference name → Refers u ⟨.attribute, name⟩
  | declared {a : Attribute} {r : Reference} :
      u.target = .declared a → a.Refers r → Refers u r

private theorem AttributeUse.mem_references_iff {u : AttributeUse} {r : Reference} :
    r ∈ u.references ↔ u.Refers r := by
  obtain ⟨usage, target⟩ := u
  cases target with
  | reference name =>
    constructor
    · exact fun h => List.mem_singleton.1 h ▸ .reference rfl
    · intro h
      cases h with
      | reference ht =>
        cases ht
        exact List.mem_singleton.2 rfl
      | declared ht _ => cases ht
  | declared a =>
    constructor
    · exact fun h => .declared rfl (Attribute.mem_references_iff.1 h)
    · intro h
      cases h with
      | reference ht => cases ht
      | declared ht hr =>
        cases ht
        exact Attribute.mem_references_iff.2 hr

mutual

/-- A particle refers to elements, types and groups by its term, or by a particle below it. -/
inductive Particle.Refers : Particle → Reference → Prop
  | element {p : Particle} {name : QName} {nillable isAbstract : Bool} :
      p.term = .element (.reference name nillable isAbstract) → Particle.Refers p ⟨.element, name⟩
  | elementType {p : Particle} {e : LocalElement Particle}
      {type : TypeRef (TypeDefinition Particle)} {r : Reference} :
      p.term = .element (.declared e) → e.type = some type → TypeDefinition.RefRefers type r →
        Particle.Refers p r
  | group {p : Particle} {name : QName} : p.term = .group name → Particle.Refers p ⟨.group, name⟩
  | child {p q : Particle} {g : ModelGroup Particle} {r : Reference} :
      p.term = .model g → q ∈ g.particles → Particle.Refers q r → Particle.Refers p r

/-- The type of an element refers to a type by its name, or by a type that stands there. -/
inductive TypeDefinition.RefRefers : TypeRef (TypeDefinition Particle) → Reference → Prop
  | named {name : QName} : TypeDefinition.RefRefers (.named name) ⟨.type, name⟩
  | simple {t : SimpleType} {r : Reference} : t.Refers r → TypeDefinition.RefRefers (.anonymous (.simple t)) r
  | complex {t : ComplexType Particle} {r : Reference} :
      ComplexType.Refers t r → TypeDefinition.RefRefers (.anonymous (.complex t)) r

/-- A complex type refers to its base, and to what its content and its attributes refer to. -/
inductive ComplexType.Refers : ComplexType Particle → Reference → Prop
  | base {t : ComplexType Particle} {name : QName} :
      t.base = some name → ComplexType.Refers t ⟨.type, name⟩
  | content {t : ComplexType Particle} {p : Particle} {r : Reference} :
      t.content = some p → Particle.Refers p r → ComplexType.Refers t r
  | attributeUse {t : ComplexType Particle} {u : AttributeUse} {r : Reference} :
      u ∈ t.attributes → u.Refers r → ComplexType.Refers t r

end

private theorem AttributeUse.mem_flatMap_references {us : List AttributeUse} {r : Reference} :
    r ∈ us.flatMap (·.references) ↔ ∃ u ∈ us, u.Refers r := by
  simp only [List.mem_flatMap, mem_references_iff]

mutual

private theorem Particle.refers_of_mem_references {r : Reference} :
    (p : Particle) → r ∈ p.references → p.Refers r
  | ⟨term, _, _⟩, h => Term.refers_of_mem_references term rfl h

private theorem Term.refers_of_mem_references {p : Particle} {r : Reference} :
    (t : Term Particle) → p.term = t → r ∈ Term.references t → p.Refers r
  | .element (.reference _ _ _), ht, h => List.mem_singleton.1 h ▸ .element ht
  | .element (.declared ⟨_, type, _, _, _, _⟩), ht, h => by
    obtain ⟨ref, htype, hr⟩ := TypeDefinition.refers_of_mem_referencesOfType type h
    exact .elementType ht htype hr
  | .wildcard _, _, h => nomatch h
  | .group _, ht, h => List.mem_singleton.1 h ▸ .group ht
  | .model ⟨_, particles⟩, ht, h => by
    obtain ⟨q, hq, hr⟩ := Particle.exists_refers_of_mem_referencesOfAll particles h
    exact .child ht hq hr

private theorem Particle.exists_refers_of_mem_referencesOfAll {r : Reference} :
    (ps : List Particle) → r ∈ Particle.referencesOfAll ps → ∃ p ∈ ps, p.Refers r
  | [], h => nomatch h
  | p :: ps, h => by
    rcases List.mem_append.1 h with h | h
    · exact ⟨p, List.mem_cons_self, Particle.refers_of_mem_references p h⟩
    · obtain ⟨q, hq, hr⟩ := Particle.exists_refers_of_mem_referencesOfAll ps h
      exact ⟨q, List.mem_cons_of_mem _ hq, hr⟩

private theorem TypeDefinition.refers_of_mem_referencesOfType {r : Reference} :
    (type : Option (TypeRef (TypeDefinition Particle))) →
      r ∈ TypeDefinition.referencesOfType type →
        ∃ ref, type = some ref ∧ TypeDefinition.RefRefers ref r
  | none, h => nomatch h
  | some (.named _), h => ⟨_, rfl, List.mem_singleton.1 h ▸ .named⟩
  | some (.anonymous (.simple _)), h => ⟨_, rfl, .simple (SimpleType.mem_references_iff.1 h)⟩
  | some (.anonymous (.complex t)), h => ⟨_, rfl, .complex (ComplexType.refers_of_mem_references t h)⟩

private theorem ComplexType.refers_of_mem_references {r : Reference} :
    (t : ComplexType Particle) → r ∈ ComplexType.references t → t.Refers r
  | ⟨_, _, _, _, _, base, _, none, attributes, _⟩, h => by
    rcases List.mem_append.1 h with h | h
    · obtain ⟨name, hname, rfl⟩ := List.mem_map.1 h
      exact .base (Option.mem_toList.1 hname)
    · obtain ⟨u, hu, hr⟩ := AttributeUse.mem_flatMap_references.1 h
      exact .attributeUse hu hr
  | ⟨_, _, _, _, _, base, _, some content, attributes, _⟩, h => by
    rcases List.mem_append.1 h with h | h
    · rcases List.mem_append.1 h with h | h
      · obtain ⟨name, hname, rfl⟩ := List.mem_map.1 h
        exact .base (Option.mem_toList.1 hname)
      · exact .content rfl (Particle.refers_of_mem_references content h)
    · obtain ⟨u, hu, hr⟩ := AttributeUse.mem_flatMap_references.1 h
      exact .attributeUse hu hr

end

private theorem Particle.referencesOfAll_eq (ps : List Particle) :
    Particle.referencesOfAll ps = ps.flatMap (·.references) := by
  induction ps with
  | nil => rfl
  | cons p ps ih => rw [referencesOfAll, ih, List.flatMap_cons]

private theorem Particle.references_eq (p : Particle) : p.references = Term.references p.term := by
  obtain ⟨term, occurs, source⟩ := p
  rw [references]

private theorem Term.references_declared (e : LocalElement Particle) :
    Term.references (.element (.declared e)) = TypeDefinition.referencesOfType e.type := by
  obtain ⟨name, type, nillable, isAbstract, defaultValue, fixedValue⟩ := e
  rw [references]

private theorem Term.references_model (g : ModelGroup Particle) :
    Term.references (.model g) = g.particles.flatMap (·.references) := by
  obtain ⟨kind, particles⟩ := g
  rw [references, Particle.referencesOfAll_eq]

/-- A complex type names its base first, then what its content refers to, then its attributes. -/
theorem ComplexType.references_eq (t : ComplexType Particle) :
    t.references = Reference.types t.base ++ t.content.toList.flatMap (·.references)
      ++ t.attributes.flatMap (·.references) := by
  obtain ⟨name, documentation, source, isAbstract, mixed, base, derivation, content, attributes,
    wildcard⟩ := t
  cases content with
  | none => simp [references]
  | some p => simp [references]

mutual

private theorem Particle.mem_references_of_refers {r : Reference} :
    {p : Particle} → p.Refers r → r ∈ p.references
  | _, .element ht => by
    rw [Particle.references_eq, ht]
    exact List.mem_singleton.2 rfl
  | _, .elementType ht htype hr => by
    have hmem := TypeDefinition.mem_referencesOfType_of_refers hr
    rw [Particle.references_eq, ht, Term.references_declared, htype]
    exact hmem
  | _, .group ht => by
    rw [Particle.references_eq, ht]
    exact List.mem_singleton.2 rfl
  | _, .child ht hq hr => by
    have hmem := Particle.mem_references_of_refers hr
    rw [Particle.references_eq, ht, Term.references_model]
    exact List.mem_flatMap.2 ⟨_, hq, hmem⟩

private theorem TypeDefinition.mem_referencesOfType_of_refers {r : Reference} :
    {type : TypeRef (TypeDefinition Particle)} → TypeDefinition.RefRefers type r →
      r ∈ TypeDefinition.referencesOfType (some type)
  | _, .named => List.mem_singleton.2 rfl
  | _, .simple hr => SimpleType.mem_references_iff.2 hr
  | _, .complex hr => ComplexType.mem_references_of_refers hr

private theorem ComplexType.mem_references_of_refers {r : Reference} :
    {t : ComplexType Particle} → t.Refers r → r ∈ t.references
  | _, .base hb => by
    rw [ComplexType.references_eq, hb]
    exact List.mem_append_left _ (List.mem_append_left _ (List.mem_singleton.2 rfl))
  | _, .content hc hr => by
    have hmem := Particle.mem_references_of_refers hr
    rw [ComplexType.references_eq, hc]
    refine List.mem_append_left _ (List.mem_append_right _ ?_)
    exact List.mem_flatMap.2 ⟨_, List.mem_singleton.2 rfl, hmem⟩
  | _, .attributeUse hu hr => by
    rw [ComplexType.references_eq]
    exact List.mem_append_right _ (AttributeUse.mem_flatMap_references.2 ⟨_, hu, hr⟩)

end

private theorem Particle.mem_references_iff {p : Particle} {r : Reference} :
    r ∈ p.references ↔ p.Refers r :=
  ⟨refers_of_mem_references p, mem_references_of_refers⟩

private theorem ComplexType.mem_references_iff {t : ComplexType Particle} {r : Reference} :
    r ∈ t.references ↔ t.Refers r :=
  ⟨refers_of_mem_references t, mem_references_of_refers⟩

/-- An element refers by its type, and to the head of its substitution group. -/
inductive Element.Refers (e : Element) : Reference → Prop
  | type {type : TypeRef (TypeDefinition Particle)} {r : Reference} :
      e.type = some type → TypeDefinition.RefRefers type r → Refers e r
  | head {name : QName} : e.substitutionHead = some name → Refers e ⟨.element, name⟩

private theorem Element.mem_references_iff {e : Element} {r : Reference} :
    r ∈ e.references ↔ e.Refers r := by
  rw [references, List.mem_append]
  constructor
  · rintro (h | h)
    · obtain ⟨type, htype, hr⟩ := TypeDefinition.refers_of_mem_referencesOfType e.type h
      exact .type htype hr
    · obtain ⟨name, hname, rfl⟩ := List.mem_map.1 h
      exact .head (Option.mem_toList.1 hname)
  · intro h
    cases h with
    | type htype hr => exact .inl (htype ▸ TypeDefinition.mem_referencesOfType_of_refers hr)
    | head hhead => exact .inr (List.mem_map.2 ⟨_, Option.mem_toList.2 hhead, rfl⟩)

/-- A document refers by each of its components. -/
inductive Document.Refers (d : Document) : Reference → Prop
  | element {e : Element} {r : Reference} : e ∈ d.elements → e.Refers r → Refers d r
  | complexType {t : ComplexType Particle} {r : Reference} :
      t ∈ d.complexTypes → t.Refers r → Refers d r
  | simpleType {t : SimpleType} {r : Reference} : t ∈ d.simpleTypes → t.Refers r → Refers d r
  | attributeDeclaration {a : Attribute} {r : Reference} :
      a ∈ d.attributes → a.Refers r → Refers d r
  | group {g : Group} {p : Particle} {r : Reference} :
      g ∈ d.groups → p ∈ g.content.particles → p.Refers r → Refers d r
  | attributeGroup {g : AttributeGroup} {u : AttributeUse} {r : Reference} :
      g ∈ d.attributeGroups → u ∈ g.attributes → u.Refers r → Refers d r

private theorem Document.mem_references_iff {d : Document} {r : Reference} :
    r ∈ d.references ↔ d.Refers r := by
  simp only [references, List.mem_append, List.mem_flatMap, Particle.referencesOfAll_eq,
    Element.mem_references_iff, ComplexType.mem_references_iff, SimpleType.mem_references_iff,
    Attribute.mem_references_iff, Particle.mem_references_iff, AttributeUse.mem_references_iff]
  constructor
  · rintro (((((⟨e, he, h⟩ | ⟨t, ht, h⟩) | ⟨t, ht, h⟩) | ⟨a, ha, h⟩) | ⟨g, hg, p, hp, h⟩)
      | ⟨g, hg, u, hu, h⟩)
    · exact .element he h
    · exact .complexType ht h
    · exact .simpleType ht h
    · exact .attributeDeclaration ha h
    · exact .group hg hp h
    · exact .attributeGroup hg hu h
  · intro h
    cases h with
    | element he h => exact .inl (.inl (.inl (.inl (.inl ⟨_, he, h⟩))))
    | complexType ht h => exact .inl (.inl (.inl (.inl (.inr ⟨_, ht, h⟩))))
    | simpleType ht h => exact .inl (.inl (.inl (.inr ⟨_, ht, h⟩)))
    | attributeDeclaration ha h => exact .inl (.inl (.inr ⟨_, ha, h⟩))
    | group hg hp h => exact .inl (.inr ⟨_, hg, _, hp, h⟩)
    | attributeGroup hg hu h => exact .inr ⟨_, hg, _, hu, h⟩

/-- What a term refers to without the particles below it. -/
def Term.ownReferences : Term Particle → List Reference
  | .model _ => []
  | t => Term.references t

/-- The references of a particle are met on the way through the terms of its content model. -/
theorem Particle.references_eq_flatMap_terms (p : Particle) :
    p.references = p.terms.flatMap (·.ownReferences) := by
  have hwalk (stack : List Particle) :
      (walk stack).flatMap (·.term.ownReferences) = referencesOfAll stack := by
    fun_induction walk stack with
    | case1 => rfl
    | case2 p stack _ ih =>
      rw [List.flatMap_cons, ih, referencesOfAll_eq, referencesOfAll_eq, List.flatMap_append,
        List.flatMap_cons, ← List.append_assoc, references_eq]
      congr 1
      obtain ⟨term, occurs, source⟩ := p
      cases term with
      | model g => exact (referencesOfAll_eq g.particles).symm
      | _ => exact List.append_nil _
  rw [terms, List.flatMap_map, hwalk, referencesOfAll, referencesOfAll, List.append_nil]

namespace Catalog

variable {c : Catalog}

/-- The registries have what a reference refers to, or it needs no declaration: a type of the schema
namespace, or an attribute of the namespace `xml`. -/
def HasTarget (c : Catalog) (r : Reference) : Prop :=
  match r.kind with
  | .element => r.name.key ∈ c.elements.keys
  | .type =>
    r.name.key ∈ c.complexTypes.keys ∨ r.name.key ∈ c.simpleTypes.keys
      ∨ r.name.spaceText = schemaSpace
  | .attribute => r.name.spaceText = xmlSpace ∨ r.name.key ∈ c.attributes.keys
  | .group => r.name.key ∈ c.groups.keys

theorem contains_iff {α : Type} {registry : Registry α} {key : String} :
    registry.contains key = true ↔ key ∈ registry.keys := by
  rw [Registry.contains, Registry.get?, Registry.keys, List.lookup_isSome_iff, List.mem_map]
  constructor
  · rintro ⟨p, hp, hk⟩
    exact ⟨p, hp, (eq_of_beq hk).symm⟩
  · rintro ⟨p, hp, rfl⟩
    exact ⟨p, hp, beq_self_eq_true _⟩

private theorem isResolved_resolveType_iff {name : QName} :
    (c.resolveType name).isResolved = true ↔
      name.key ∈ c.complexTypes.keys ∨ name.key ∈ c.simpleTypes.keys
        ∨ name.spaceText = schemaSpace := by
  rw [← contains_iff, ← contains_iff, Registry.contains, Registry.contains, resolveType,
    complexType?, simpleType?]
  cases c.complexTypes.get? name.key with
  | some e => simp [ResolvedType.isResolved]
  | none =>
    cases c.simpleTypes.get? name.key with
    | some e => simp [ResolvedType.isResolved]
    | none =>
      by_cases hb : name.isBuiltin = true
      · simp [ResolvedType.isResolved, hb, beq_iff_eq.1 hb]
      · have hs : name.spaceText ≠ schemaSpace := fun h => hb (beq_iff_eq.2 h)
        simp [ResolvedType.isResolved, hb, hs]

private theorem resolves_iff {r : Reference} : c.resolves r = true ↔ c.HasTarget r := by
  obtain ⟨kind, name⟩ := r
  cases kind with
  | element => exact contains_iff
  | type => exact isResolved_resolveType_iff
  | «attribute» =>
    rw [resolves, HasTarget, Bool.or_eq_true, beq_iff_eq, contains_iff]
  | group => exact contains_iff

instance : DecidablePred c.HasTarget :=
  fun _ => decidable_of_iff _ resolves_iff

/-- The keys reported are those of the references without a target that were not seen before, in
their order. -/
theorem map_key_unresolvedAmong (seen : List (ReferenceKind × String)) (rs : List Reference) :
    (c.unresolvedAmong seen rs).map (·.key)
      = (((rs.filter fun r => ¬ c.HasTarget r).map (·.key)).filter (· ∉ seen)).eraseDups := by
  induction rs generalizing seen with
  | nil => rfl
  | cons r rs ih =>
    rw [unresolvedAmong]
    by_cases ht : c.HasTarget r
    · rw [resolves_iff.2 ht, Bool.true_or, if_pos rfl, ih, List.filter_cons_of_neg (by simpa using ht)]
    · have hr : c.resolves r = false := Bool.eq_false_iff.2 fun h => ht (resolves_iff.1 h)
      rw [hr, Bool.false_or, List.filter_cons_of_pos (by simpa using ht), List.map_cons]
      by_cases hs : r.key ∈ seen
      · rw [if_pos (List.contains_iff_mem.2 hs), ih, List.filter_cons_of_neg (by simpa using hs)]
      · rw [if_neg fun h => hs (List.contains_iff_mem.1 h), List.map_cons, ih,
          List.filter_cons_of_pos (by simpa using hs), List.eraseDups_cons, List.filter_filter]
        congr 3
        funext key
        by_cases hk : key = r.key <;> simp [hk]

/-- What is reported stands before all others with its key that have no target. -/
theorem first_of_mem_unresolvedAmong {seen : List (ReferenceKind × String)} {rs : List Reference}
    {r : Reference} (h : r ∈ c.unresolvedAmong seen rs) :
    ∃ before after, rs = before ++ r :: after ∧ ¬ c.HasTarget r ∧ r.key ∉ seen ∧
      ∀ r' ∈ before, r'.key = r.key → c.HasTarget r' := by
  induction rs generalizing seen with
  | nil => cases h
  | cons a rs ih =>
    rw [unresolvedAmong] at h
    split at h
    · next hskip =>
      obtain ⟨before, after, rfl, ht, hs, hb⟩ := ih h
      refine ⟨a :: before, after, rfl, ht, hs, fun r' hr' hk => ?_⟩
      rcases List.mem_cons.1 hr' with rfl | hr'
      · rw [Bool.or_eq_true] at hskip
        rcases hskip with hres | hseen
        · exact resolves_iff.1 hres
        · exact absurd (List.contains_iff_mem.1 hseen) (hk ▸ hs)
      · exact hb r' hr' hk
    · next hkeep =>
      rcases List.mem_cons.1 h with rfl | h
      · refine ⟨[], rs, rfl, fun ht => hkeep ?_, fun hs => hkeep ?_, fun _ hr' => nomatch hr'⟩
        · rw [resolves_iff.2 ht, Bool.true_or]
        · rw [List.contains_iff_mem.2 hs, Bool.or_true]
      · obtain ⟨before, after, rfl, ht, hs, hb⟩ := ih h
        refine ⟨a :: before, after, rfl, ht, fun hm => hs (List.mem_cons_of_mem _ hm), ?_⟩
        intro r' hr' hk
        rcases List.mem_cons.1 hr' with rfl | hr'
        · exact absurd (hk ▸ List.mem_cons_self) hs
        · exact hb r' hr' hk

private theorem nodup_eraseDups {α : Type} [BEq α] [LawfulBEq α] (as : List α) :
    as.eraseDups.Nodup := by
  induction h : as.length using Nat.strongRecOn generalizing as with
  | ind n ih =>
    cases as with
    | nil => exact List.nodup_nil
    | cons a as =>
      rw [List.eraseDups_cons, List.nodup_cons]
      have hlt : (as.filter fun b => !b == a).length < n := by
        have hle := List.length_filter_le (fun b => !b == a) as
        rw [List.length_cons] at h
        omega
      refine ⟨fun hm => ?_, ih _ hlt _ rfl⟩
      have hm := List.mem_eraseDups.1 hm
      simp at hm

/-- The references of documents, kind of component after kind, and term after term in a content
model. -/
theorem flatMap_references_eq (documents : List Document) :
    documents.flatMap (·.references) = documents.flatMap fun d =>
      d.elements.flatMap (·.references) ++ d.complexTypes.flatMap (·.references)
        ++ d.simpleTypes.flatMap (·.references) ++ d.attributes.flatMap (·.references)
        ++ d.groups.flatMap (fun g => g.content.particles.flatMap fun p =>
          p.terms.flatMap (·.ownReferences))
        ++ d.attributeGroups.flatMap fun g => g.attributes.flatMap (·.references) := by
  refine List.flatMap_congr fun d _ => ?_
  simp only [Document.references, Particle.referencesOfAll_eq,
    ← Particle.references_eq_flatMap_terms]

private theorem mem_flatMap_references {r : Reference} :
    r ∈ c.documents.flatMap (·.references) ↔ ∃ d ∈ c.documents, d.Refers r := by
  simp only [List.mem_flatMap, Document.mem_references_iff]

private theorem map_key_unresolved (c : Catalog) :
    c.unresolved.map (·.key)
      = (((c.documents.flatMap (·.references)).filter fun r => ¬ c.HasTarget r).map
          (·.key)).eraseDups := by
  rw [unresolved, map_key_unresolvedAmong]
  exact congrArg List.eraseDups (List.filter_eq_self.2 fun key _ => by simp)

theorem exists_mem_unresolved_iff {kind : ReferenceKind} {key : String} :
    (∃ r ∈ c.unresolved, r.kind = kind ∧ r.name.key = key) ↔
      ∃ d ∈ c.documents, ∃ r, d.Refers r ∧ r.kind = kind ∧ r.name.key = key ∧ ¬ c.HasTarget r := by
  have hkey (r : Reference) : r.key = (kind, key) ↔ r.kind = kind ∧ r.name.key = key :=
    Prod.mk.injEq .. ▸ Iff.rfl
  calc (∃ r ∈ c.unresolved, r.kind = kind ∧ r.name.key = key)
      ↔ (kind, key) ∈ c.unresolved.map (·.key) := by simp only [List.mem_map, hkey]
    _ ↔ ∃ r ∈ c.documents.flatMap (·.references), ¬ c.HasTarget r ∧ r.key = (kind, key) := by
      rw [map_key_unresolved, List.mem_eraseDups, List.mem_map]
      simp only [List.mem_filter, decide_eq_true_eq, and_assoc]
    _ ↔ ∃ d ∈ c.documents, ∃ r, d.Refers r ∧ r.kind = kind ∧ r.name.key = key ∧
        ¬ c.HasTarget r := by
      simp only [mem_flatMap_references, hkey]
      constructor
      · rintro ⟨r, ⟨d, hd, hr⟩, ht, hkind, hname⟩
        exact ⟨d, hd, r, hr, hkind, hname, ht⟩
      · rintro ⟨d, hd, r, hr, hkind, hname, ht⟩
        exact ⟨r, ⟨d, hd, hr⟩, ht, hkind, hname⟩

/-- A kind and key are reported exactly if somewhere in the documents a reference has them and the
catalog has no target for it. No kind and key are reported twice; they stand in the order in which
the documents have them first, and each with the first reference that has no target. -/
theorem unresolved_of_documents (c : Catalog) :
    let traversal := c.documents.flatMap fun d =>
      d.elements.flatMap (·.references) ++ d.complexTypes.flatMap (·.references)
        ++ d.simpleTypes.flatMap (·.references) ++ d.attributes.flatMap (·.references)
        ++ d.groups.flatMap (fun g => g.content.particles.flatMap fun p =>
          p.terms.flatMap (·.ownReferences))
        ++ d.attributeGroups.flatMap fun g => g.attributes.flatMap (·.references)
    (∀ kind key, (∃ r ∈ c.unresolved, r.kind = kind ∧ r.name.key = key) ↔
      ∃ d ∈ c.documents, ∃ r, d.Refers r ∧ r.kind = kind ∧ r.name.key = key ∧ ¬ c.HasTarget r) ∧
    (c.unresolved.map (·.key)).Nodup ∧
    (∀ r, r ∈ traversal ↔ ∃ d ∈ c.documents, d.Refers r) ∧
    c.unresolved.map (·.key)
      = ((traversal.filter fun r => ¬ c.HasTarget r).map (·.key)).eraseDups ∧
    ∀ r ∈ c.unresolved, ∃ before after, traversal = before ++ r :: after ∧ ¬ c.HasTarget r ∧
      ∀ r' ∈ before, r'.key = r.key → c.HasTarget r' := by
  intro traversal
  have htraversal : c.documents.flatMap (·.references) = traversal :=
    flatMap_references_eq c.documents
  refine ⟨fun kind key => exists_mem_unresolved_iff, ?_, fun r => ?_, ?_, fun r hr => ?_⟩
  · rw [map_key_unresolved]
    exact nodup_eraseDups _
  · rw [← htraversal]
    exact mem_flatMap_references
  · rw [← htraversal]
    exact map_key_unresolved c
  · rw [unresolved, htraversal] at hr
    obtain ⟨before, after, hs, ht, -, hb⟩ := first_of_mem_unresolvedAmong hr
    exact ⟨before, after, hs, ht, hb⟩

end Catalog

end XsdCatalog
