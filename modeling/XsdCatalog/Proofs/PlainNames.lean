import XsdCatalog.Proofs.NameKeys
import XsdCatalog.Proofs.RelabelledCatalogs

/-!
# Plain names

A plain name has no qualifier, and no namespace where another one has an empty one. It is what
comparison looks at in a name, and all comparison of components comes down to names: components
that are equal once their names are plain compare equal.
-/

namespace XsdCatalog

namespace QName

/-- The name as comparison looks at it: without a qualifier, and without a namespace if that is
empty. -/
def plain (q : QName) : QName :=
  make q.space q.localName

private theorem spaceText_plain (q : QName) : q.plain.spaceText = q.spaceText := by
  obtain ⟨space, localName, qualifier⟩ := q
  cases space with
  | none => rfl
  | some s =>
    by_cases hs : s = ""
    · rw [hs]
      rfl
    · have hkept : (some s).filter (· != "") = some s := by simp [Option.filter, hs]
      rw [plain, make, spaceText, hkept]
      rfl

theorem plain_eq_plain_iff {a b : QName} : a.plain = b.plain ↔ (a == b) = true := by
  rw [beq_iff]
  constructor
  · intro h
    rw [← spaceText_plain a, ← spaceText_plain b, h]
    exact ⟨rfl, congrArg (·.localName) h⟩
  · rintro ⟨hspace, hlocal⟩
    have hfilter (space : Option String) :
        space.filter (· != "") = (some (space.getD "")).filter (· != "") := by
      cases space <;> rfl
    rw [spaceText, spaceText] at hspace
    rw [plain, plain, make, make, hfilter, hfilter b.space, hspace, hlocal]

end QName

/-- Names without qualifiers, at their places. -/
def Relabelling.plain : Relabelling where
  name := QName.plain
  place := id
  expanded_name q := congrArg (·, q.localName) q.spaceText_plain
  name_unbound := rfl

open Relabelling (plain)

theorem Diagnostic.relabel_plain (d : Diagnostic) : d.relabel plain = d := by
  simp [relabel, plain]

/-- Comparison takes what a function makes equal for equal. -/
structure Respects {α : Type} [BEq α] (f : α → α) : Prop where
  beq {a b : α} : f a = f b → (a == b) = true

namespace Respects

variable {α : Type} [BEq α] {f : α → α}

/-- Rows are compared part by part. -/
theorem list_beq {as bs : List α} (h : ∀ a ∈ as, ∀ b, f a = f b → (a == b) = true)
    (hab : as.map f = bs.map f) : (as == bs) = true := by
  induction as generalizing bs with
  | nil =>
    rw [List.map_nil, eq_comm, List.map_eq_nil_iff] at hab
    rw [hab]
    rfl
  | cons a as ih =>
    cases bs with
    | nil => cases hab
    | cons b bs =>
      rw [List.map_cons, List.map_cons, List.cons.injEq] at hab
      have hrest := ih (fun a' ha' => h a' (List.mem_cons_of_mem a ha')) hab.2
      rw [List.cons_beq_cons, h a List.mem_cons_self b hab.1, hrest]
      rfl

theorem list (h : Respects f) : Respects (List.map f) :=
  ⟨list_beq fun _ _ _ => h.beq⟩

theorem option (h : Respects f) : Respects (Option.map f) := by
  constructor
  intro a b hab
  cases a with
  | none =>
    cases b with
    | none => rfl
    | some b => cases hab
  | some a =>
    cases b with
    | none => cases hab
    | some b => exact h.beq (Option.some.inj hab)

private theorem typeRef (h : Respects f) : Respects (TypeRef.relabel plain f) := by
  constructor
  intro a b hab
  cases a with
  | named name =>
    cases b with
    | named name' => exact QName.plain_eq_plain_iff.1 (TypeRef.named.inj hab)
    | anonymous t => cases hab
  | anonymous t =>
    cases b with
    | named name => cases hab
    | anonymous t' => exact h.beq (TypeRef.anonymous.inj hab)

theorem entry (h : Respects f) : Respects (Entry.map f) := by
  constructor
  intro a b hab
  exact h.beq (congrArg (·.component) hab)

end Respects

theorem respects_name : Respects plain.name :=
  ⟨QName.plain_eq_plain_iff.1⟩

theorem source_eq {source source' : Option Location}
    (h : source.map plain.place = source'.map plain.place) : source = source' := by
  simpa [plain] using h

mutual

private theorem SimpleType.same_of_relabel {a b : SimpleType}
    (h : a.relabel plain = b.relabel plain) : a.same b = true := by
  obtain ⟨name, documentation, source, variety⟩ := a
  obtain ⟨name', documentation', source', variety'⟩ := b
  simp only [relabel, SimpleType.mk.injEq] at h
  obtain ⟨hname, rfl, hsource, hvariety⟩ := h
  simp [same, respects_name.option.beq hname, source_eq hsource, sameVariety_of_relabel hvariety]

private theorem SimpleType.sameVariety_of_relabel {a b : Variety SimpleType}
    (h : relabelVariety plain a = relabelVariety plain b) : sameVariety a b = true := by
  cases a with
  | builtin =>
    cases b with
    | builtin => rfl
    | _ => cases h
  | restriction base facets =>
    cases b with
    | restriction base' facets' =>
      simp only [relabelVariety, Variety.restriction.injEq] at h
      simp [sameVariety, respects_name.option.beq h.1, h.2]
    | _ => cases h
  | list item t =>
    cases b with
    | list item' t' =>
      simp only [relabelVariety, Variety.list.injEq] at h
      obtain ⟨hitem, ht⟩ := h
      cases t with
      | none =>
        cases t' with
        | none => simp [sameVariety, respects_name.option.beq hitem]
        | some t' => cases ht
      | some t =>
        cases t' with
        | none => cases ht
        | some t' =>
          have ht := same_of_relabel (Option.some.inj ht)
          simp [sameVariety, respects_name.option.beq hitem, ht]
    | _ => cases h
  | union members ts =>
    cases b with
    | union members' ts' =>
      simp only [relabelVariety, Variety.union.injEq] at h
      simp [sameVariety, respects_name.list.beq h.1, sameAll_of_relabel h.2]
    | _ => cases h

private theorem SimpleType.sameAll_of_relabel {as bs : List SimpleType}
    (h : relabelAll plain as = relabelAll plain bs) : sameAll as bs = true := by
  cases as with
  | nil =>
    cases bs with
    | nil => rfl
    | cons b bs => cases h
  | cons a as =>
    cases bs with
    | nil => cases h
    | cons b bs =>
      rw [relabelAll, relabelAll, List.cons.injEq] at h
      simp [sameAll, same_of_relabel h.1, sameAll_of_relabel h.2]

end

theorem SimpleType.respects : Respects (SimpleType.relabel plain) :=
  ⟨SimpleType.same_of_relabel⟩

theorem Attribute.respects : Respects (Attribute.relabel plain) := by
  constructor
  intro a b h
  obtain ⟨name, type, defaultValue, fixedValue, documentation, source⟩ := a
  obtain ⟨name', type', defaultValue', fixedValue', documentation', source'⟩ := b
  simp only [relabel, Attribute.mk.injEq] at h
  obtain ⟨hname, htype, rfl, rfl, rfl, hsource⟩ := h
  have htype := SimpleType.respects.typeRef.option.beq htype
  show instBEqAttribute.beq _ _ = true
  simp [instBEqAttribute.beq, respects_name.beq hname, htype, source_eq hsource]

private theorem AttributeTarget.respects : Respects (AttributeTarget.relabel plain) := by
  constructor
  intro a b h
  cases a with
  | reference name =>
    cases b with
    | reference name' => exact respects_name.beq (AttributeTarget.reference.inj h)
    | declared b => cases h
  | declared a =>
    cases b with
    | reference name => cases h
    | declared b => exact Attribute.respects.beq (AttributeTarget.declared.inj h)

theorem AttributeUse.respects : Respects (AttributeUse.relabel plain) := by
  constructor
  intro a b h
  obtain ⟨usage, target⟩ := a
  obtain ⟨usage', target'⟩ := b
  simp only [relabel, AttributeUse.mk.injEq] at h
  obtain ⟨rfl, htarget⟩ := h
  show instBEqAttributeUse.beq _ _ = true
  simp [instBEqAttributeUse.beq, AttributeTarget.respects.beq htarget]

theorem AttributeGroup.respects : Respects (AttributeGroup.relabel plain) := by
  constructor
  intro a b h
  obtain ⟨name, attributes, wildcard, documentation, source⟩ := a
  obtain ⟨name', attributes', wildcard', documentation', source'⟩ := b
  simp only [relabel, AttributeGroup.mk.injEq] at h
  obtain ⟨hname, hattributes, rfl, rfl, hsource⟩ := h
  show instBEqAttributeGroup.beq _ _ = true
  simp [instBEqAttributeGroup.beq, respects_name.beq hname,
    AttributeUse.respects.list.beq hattributes, source_eq hsource]

mutual

private theorem Particle.same_of_relabel {a b : Particle} (h : a.relabel plain = b.relabel plain) :
    a.same b = true := by
  obtain ⟨term, occurs, source⟩ := a
  obtain ⟨term', occurs', source'⟩ := b
  simp only [Particle.relabel, Particle.mk.injEq] at h
  obtain ⟨hterm, rfl, hsource⟩ := h
  simp [Particle.same, Term.same_of_relabel hterm, source_eq hsource]
termination_by structural a

private theorem Term.same_of_relabel {a b : Term Particle} (h : a.relabel plain = b.relabel plain) :
    Term.same a b = true := by
  cases a with
  | element e =>
    cases b with
    | element e' =>
      have h := Term.element.inj h
      cases e with
      | reference name nillable isAbstract =>
        cases e' with
        | reference name' nillable' isAbstract' =>
          obtain ⟨hname, rfl, rfl⟩ := ElementUse.reference.inj h
          simp [Term.same, respects_name.beq hname]
        | declared e' => cases h
      | declared e =>
        obtain ⟨name, type, nillable, isAbstract, default, fixed⟩ := e
        cases e' with
        | reference name' nillable' isAbstract' => cases h
        | declared e' =>
          obtain ⟨name', type', nillable', isAbstract', default', fixed'⟩ := e'
          simp only [ElementUse.relabel, ElementUse.declared.injEq, LocalElement.mk.injEq] at h
          obtain ⟨rfl, htype, rfl, rfl, rfl, rfl⟩ := h
          simp [Term.same, TypeDefinition.sameRef_of_relabel htype]
    | _ => cases h
  | wildcard w =>
    cases b with
    | wildcard w' =>
      obtain rfl := Term.wildcard.inj h
      simp [Term.same]
    | _ => cases h
  | group name =>
    cases b with
    | group name' =>
      rw [Term.same]
      exact respects_name.beq (Term.group.inj h)
    | _ => cases h
  | model g =>
    cases b with
    | model g' =>
      obtain ⟨kind, particles⟩ := g
      obtain ⟨kind', particles'⟩ := g'
      simp only [Term.relabel, Term.model.injEq, ModelGroup.mk.injEq] at h
      obtain ⟨rfl, hparticles⟩ := h
      simp [Term.same, Particle.sameAll_of_relabel hparticles]
    | _ => cases h
termination_by structural a

private theorem Particle.sameAll_of_relabel {as bs : List Particle}
    (h : Particle.relabelAll plain as = Particle.relabelAll plain bs) :
    Particle.sameAll as bs = true := by
  cases as with
  | nil =>
    cases bs with
    | nil => rw [Particle.sameAll]
    | cons b bs => cases h
  | cons a as =>
    cases bs with
    | nil => cases h
    | cons b bs =>
      rw [Particle.relabelAll, Particle.relabelAll, List.cons.injEq] at h
      simp [Particle.sameAll, Particle.same_of_relabel h.1, Particle.sameAll_of_relabel h.2]
termination_by structural as

private theorem Particle.sameContent_of_relabel {a b : Option Particle}
    (h : Particle.relabelContent plain a = Particle.relabelContent plain b) :
    Particle.sameContent a b = true := by
  cases a with
  | none =>
    cases b with
    | none => rw [Particle.sameContent]
    | some b => cases h
  | some a =>
    cases b with
    | none => cases h
    | some b =>
      rw [Particle.sameContent]
      exact Particle.same_of_relabel (Option.some.inj h)
termination_by structural a

private theorem TypeDefinition.sameRef_of_relabel {a b : Option (TypeRef (TypeDefinition Particle))}
    (h : TypeDefinition.relabelRef plain a = TypeDefinition.relabelRef plain b) :
    TypeDefinition.sameRef a b = true := by
  cases a with
  | none =>
    cases b with
    | none => rw [TypeDefinition.sameRef]
    | some t' => cases t' <;> cases h
  | some t =>
    cases b with
    | none => cases t <;> cases h
    | some t' =>
      cases t with
      | named name =>
        cases t' with
        | named name' =>
          rw [TypeDefinition.sameRef]
          exact respects_name.beq (TypeRef.named.inj (Option.some.inj h))
        | anonymous t' => cases h
      | anonymous t =>
        cases t' with
        | named name' => cases h
        | anonymous t' =>
          rw [TypeDefinition.sameRef]
          exact TypeDefinition.same_of_relabel (TypeRef.anonymous.inj (Option.some.inj h))
termination_by structural a

private theorem TypeDefinition.same_of_relabel {a b : TypeDefinition Particle}
    (h : a.relabel plain = b.relabel plain) : a.same b = true := by
  cases a with
  | simple t =>
    cases b with
    | simple t' =>
      rw [TypeDefinition.same]
      exact SimpleType.same_of_relabel (TypeDefinition.simple.inj h)
    | complex t' => cases h
  | complex t =>
    cases b with
    | simple t' => cases h
    | complex t' =>
      rw [TypeDefinition.same]
      exact ComplexType.same_of_relabel (TypeDefinition.complex.inj h)
termination_by structural a

private theorem ComplexType.same_of_relabel {a b : ComplexType Particle}
    (h : a.relabel plain = b.relabel plain) : a.same b = true := by
  obtain ⟨name, documentation, source, isAbstract, mixed, base, derivation, content, uses,
    wildcard⟩ := a
  obtain ⟨name', documentation', source', isAbstract', mixed', base', derivation', content', uses',
    wildcard'⟩ := b
  simp only [ComplexType.relabel, ComplexType.mk.injEq] at h
  obtain ⟨hname, rfl, hsource, rfl, rfl, hbase, rfl, hcontent, huses, rfl⟩ := h
  simp [ComplexType.same, respects_name.option.beq hname, source_eq hsource,
    respects_name.option.beq hbase, Particle.sameContent_of_relabel hcontent,
    AttributeUse.respects.list.beq huses]
termination_by structural a

end

private theorem Particle.respects : Respects (Particle.relabel plain) :=
  ⟨Particle.same_of_relabel⟩

private theorem TypeDefinition.respects : Respects (TypeDefinition.relabel plain) :=
  ⟨TypeDefinition.same_of_relabel⟩

theorem ComplexType.respects : Respects (ComplexType.relabel plain) :=
  ⟨ComplexType.same_of_relabel⟩

theorem Element.respects : Respects (Element.relabel plain) := by
  constructor
  intro a b h
  obtain ⟨name, type, isAbstract, nillable, defaultValue, fixedValue, documentation, source,
    substitutionHead⟩ := a
  obtain ⟨name', type', isAbstract', nillable', defaultValue', fixedValue', documentation',
    source', substitutionHead'⟩ := b
  simp only [relabel, Element.mk.injEq] at h
  obtain ⟨hname, htype, rfl, rfl, rfl, rfl, rfl, hsource, hhead⟩ := h
  rw [TypeDefinition.relabelRef_eq, TypeDefinition.relabelRef_eq] at htype
  show instBEqElement.beq _ _ = true
  simp [instBEqElement.beq, respects_name.beq hname,
    TypeDefinition.respects.typeRef.option.beq htype, source_eq hsource,
    respects_name.option.beq hhead]

theorem Group.respects : Respects (Group.relabel plain) := by
  constructor
  intro a b h
  obtain ⟨name, ⟨kind, particles⟩, documentation, source⟩ := a
  obtain ⟨name', ⟨kind', particles'⟩, documentation', source'⟩ := b
  simp only [relabel, Group.mk.injEq, ModelGroup.mk.injEq] at h
  obtain ⟨hname, ⟨rfl, hparticles⟩, rfl, hsource⟩ := h
  have hcontent : (ModelGroup.mk kind particles == ⟨kind, particles'⟩) = true := by
    show instBEqModelGroup.beq _ _ = true
    simp [instBEqModelGroup.beq, Particle.respects.list.beq hparticles]
  show instBEqGroup.beq _ _ = true
  simp [instBEqGroup.beq, respects_name.beq hname, source_eq hsource, hcontent]

/-- A registry agrees with itself if no key occurs twice in it. -/
theorem Registry.beq_self {α : Type} [BEq α] [LawfulBEq α] {r : Registry α} (h : r.keys.Nodup) :
    (r == r) = true := by
  have hall : r.entries.all (fun p => r.get? p.1 == some p.2) = true := by
    rw [List.all_eq_true]
    intro p hp
    rw [get?_of_mem h hp, beq_self_eq_true]
  show (r.size == r.size && _) = true
  rw [beq_self_eq_true, hall]
  rfl

theorem Document.beq_of_relabel {a b : Document} (h : a.relabel plain = b.relabel plain)
    (hbindings : a.bindings.keys.Nodup) : (a == b) = true := by
  obtain ⟨name, targetSpace, version, bindings, inclusions, imports, elements, complexTypes,
    simpleTypes, attributes, groups, attributeGroups⟩ := a
  obtain ⟨name', targetSpace', version', bindings', inclusions', imports', elements',
    complexTypes', simpleTypes', attributes', groups', attributeGroups'⟩ := b
  simp only [relabel, Document.mk.injEq] at h
  obtain ⟨rfl, rfl, rfl, rfl, rfl, rfl, helements, hcomplexTypes, hsimpleTypes, hattributes,
    hgroups, hattributeGroups⟩ := h
  show instBEqDocument.beq _ _ = true
  simp [instBEqDocument.beq, Registry.beq_self hbindings, Element.respects.list.beq helements,
    ComplexType.respects.list.beq hcomplexTypes, SimpleType.respects.list.beq hsimpleTypes,
    Attribute.respects.list.beq hattributes, Group.respects.list.beq hgroups,
    AttributeGroup.respects.list.beq hattributeGroups]

theorem Catalog.ResolvedType.respects : Respects (ResolvedType.relabel plain) := by
  constructor
  intro a b h
  cases a with
  | complex t =>
    cases b with
    | complex t' => exact ComplexType.respects.beq (ResolvedType.complex.inj h)
    | _ => cases h
  | simple t =>
    cases b with
    | simple t' => exact SimpleType.respects.beq (ResolvedType.simple.inj h)
    | _ => cases h
  | builtin name =>
    cases b with
    | builtin name' => exact respects_name.beq (ResolvedType.builtin.inj h)
    | _ => cases h
  | unresolved name =>
    cases b with
    | unresolved name' => exact respects_name.beq (ResolvedType.unresolved.inj h)
    | _ => cases h

theorem Catalog.Resolution.respects {α : Type} [BEq α] {f : α → α} (hf : Respects f) :
    Respects (Resolution.relabel plain f) := by
  constructor
  intro a b h
  cases a with
  | found component =>
    cases b with
    | found component' => exact hf.beq (Resolution.found.inj h)
    | unresolved name' => cases h
  | unresolved name =>
    cases b with
    | found component' => cases h
    | unresolved name' => exact respects_name.beq (Resolution.unresolved.inj h)

end XsdCatalog
