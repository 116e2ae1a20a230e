import Mathlib.Data.List.Perm.Subperm
import XsdCatalog.Proofs.Lookups

/-!
# Where the names of a schema come from

The declarations of a schema use names at any depth: of types, of declarations they refer to, of
bases, members and heads. Each use comes from the lookup of one attribute of the element that has
it, and no lookup is used twice.
-/

namespace XsdCatalog.Written

/-- The names that a declaration at some place has from one attribute. -/
structure NameUse where
  source : Option Location
  «attribute» : String
  names : List QName
deriving Repr

mutual

def SimpleType.uses : SimpleType → List NameUse
  | ⟨_, _, source, variety⟩ => SimpleType.usesOfVariety source variety

def SimpleType.usesOfVariety (source : Option Location) : Variety SimpleType → List NameUse
  | .unstated => []
  | .restriction base _ => [⟨source, "base", base.toList⟩]
  | .list item t => ⟨source, "itemType", item.toList⟩ :: SimpleType.usesOfOption t
  | .union members ts => ⟨source, "memberTypes", members⟩ :: SimpleType.usesOfAll ts

def SimpleType.usesOfOption : Option SimpleType → List NameUse
  | none => []
  | some t => t.uses

def SimpleType.usesOfAll : List SimpleType → List NameUse
  | [] => []
  | t :: ts => t.uses ++ SimpleType.usesOfAll ts

end

def Attribute.uses (a : Attribute) : List NameUse :=
  ⟨a.source, "ref", a.reference.toList⟩ :: ⟨a.source, "type", a.typeName.toList⟩
    :: SimpleType.usesOfOption a.anonymous

/-- The names in an item of a declaration with a place. -/
def AttributeItem.uses (source : Option Location) : AttributeItem → List NameUse
  | .attribute a => a.uses
  | .group name => [⟨source, "ref", [name]⟩]

def AttributeList.uses (source : Option Location) (l : AttributeList) : List NameUse :=
  l.items.flatMap (AttributeItem.uses source)

def AttributeGroup.uses (g : AttributeGroup) : List NameUse :=
  g.attributes.uses g.source

mutual

def Particle.uses : Particle → List NameUse
  | ⟨_, _, term, source⟩ => Term.uses source term

def Term.uses (source : Option Location) : Term Particle → List NameUse
  | .element e => Element.uses e
  | .wildcard _ => []
  | .group name => [⟨source, "ref", [name]⟩]
  | .model _ children => Particle.usesOfAll children

def Particle.usesOfAll : List Particle → List NameUse
  | [] => []
  | p :: ps => p.uses ++ Particle.usesOfAll ps

def Particle.usesOfOption : Option Particle → List NameUse
  | none => []
  | some p => p.uses

def ComplexContent.uses (source : Option Location) : ComplexContent Particle → List NameUse
  | .direct particle attributes => Particle.usesOfOption particle ++ attributes.uses source
  | .simple ⟨_, base, particle, attributes⟩ =>
    ⟨source, "base", base.toList⟩ :: (Particle.usesOfOption particle ++ attributes.uses source)
  | .complex ⟨_, base, particle, attributes⟩ =>
    ⟨source, "base", base.toList⟩ :: (Particle.usesOfOption particle ++ attributes.uses source)

def ComplexType.uses : ComplexType Particle → List NameUse
  | ⟨_, _, source, _, _, content⟩ => ComplexContent.uses source content

def TypeDefinition.uses : TypeDefinition Particle → List NameUse
  | .simple t => t.uses
  | .complex t => ComplexType.uses t

def TypeDefinition.usesOfOption : Option (TypeDefinition Particle) → List NameUse
  | none => []
  | some t => TypeDefinition.uses t

def Element.uses : Element Particle → List NameUse
  | ⟨_, reference, typeName, anonymous, _, _, _, _, head, _, source⟩ =>
    ⟨source, "ref", reference.toList⟩ :: ⟨source, "type", typeName.toList⟩
      :: (TypeDefinition.usesOfOption anonymous ++ [⟨source, "substitutionGroup", head.toList⟩])

end

def Item.uses : Item → List NameUse
  | simpleType t => t.uses
  | complexType t => ComplexType.uses t
  | .attribute a => a.uses
  | element e => Element.uses e
  | group g => Particle.usesOfOption g.particle
  | attributeGroup g => g.uses

/-- The names that the components of a schema use, at any depth. -/
def Schema.uses (s : Schema) : List NameUse :=
  s.items.flatMap Item.uses

variable (ctx : Context)

/-- The names that a lookup finds, for the declaration at its holder's place. -/
def Lookup.use (l : Lookup) : NameUse :=
  ⟨some (ctx.location l.holder), l.attribute, l.texts.map (nameOf l.bound)⟩

private theorem use_attribute (holder e : SchemaElement) {name : String}
    (h : name ≠ "memberTypes") : Lookup.use ctx ⟨holder, e, name⟩
      = ⟨some (ctx.location holder), name, (ctx.resolveAttribute e name).value.toList⟩ := by
  rw [Lookup.use, Lookup.texts, if_neg h, Context.resolveAttribute]
  cases hvalue : e.attribute? name with
  | none => rfl
  | some text =>
    rw [Noted.value_map, (ctx.resolve_eq e text).1]
    rfl

private theorem use_memberTypes (holder e : SchemaElement) :
    Lookup.use ctx ⟨holder, e, "memberTypes"⟩
      = ⟨some (ctx.location holder), "memberTypes",
          (ctx.resolveAll e (Text.words ((e.attribute? "memberTypes").getD ""))).value⟩ := by
  have hall (texts : List String) : (ctx.resolveAll e texts).value
      = texts.map (nameOf (Markup.Tag.lookup? e.tag.bindings)) := by
    induction texts with
    | nil => rfl
    | cons text texts ih =>
      rw [Context.resolveAll, Noted.value_bind, Noted.value_bind, ih, (ctx.resolve_eq e text).1]
      rfl
  rw [Lookup.use, Lookup.texts, if_pos rfl, hall]
  rfl

/-- The uses that lookups give. -/
def usesOf (met : List Lookup) : List NameUse :=
  met.map (·.use ctx)

private theorem usesOf_append (met met' : List Lookup) :
    usesOf ctx (met ++ met') = usesOf ctx met ++ usesOf ctx met' :=
  List.map_append

/-- What is read next is used in place of something or beside everything. -/
theorem subperm_step {before new part rest result : List NameUse}
    (hnew : new.Subperm (before ++ part)) (hresult : result.Subperm (new ++ rest)) :
    result.Subperm (before ++ (part ++ rest)) := by
  rw [← List.append_assoc]
  exact hresult.trans ((List.subperm_append_right rest).2 hnew)

private theorem subperm_replace {old new part : List NameUse} (h : new.Subperm part)
    (others : List NameUse) : (new ++ others).Subperm ((old ++ others) ++ part) := by
  have hfront : (new ++ others).Subperm (part ++ others) := (List.subperm_append_right others).2 h
  have hback : (part ++ others).Subperm (others ++ part) := List.perm_append_comm.subperm
  rw [List.append_assoc]
  exact (hfront.trans hback).trans (List.sublist_append_right old _).subperm

mutual

private theorem uses_readSimpleType (name : Option QName) (holder e : SchemaElement) :
    (readSimpleType ctx name e).value.uses.Subperm (usesOf ctx (visits .simpleType holder e)) := by
  obtain ⟨tag, text, children⟩ := e
  let e : SchemaElement := ⟨tag, text, children⟩
  rw [visits_of_first holder e rfl]
  exact uses_readVariety .unstated e children
termination_by structural e

private theorem uses_readVariety (before : Variety SimpleType) (holder : SchemaElement)
    (es : List SchemaElement) :
    (SimpleType.usesOfVariety (some (ctx.location holder))
        (readVariety ctx before es).value).Subperm
      (SimpleType.usesOfVariety (some (ctx.location holder)) before
        ++ usesOf ctx (visitsIn .simpleType holder es)) := by
  cases es with
  | nil => exact (List.sublist_append_left _ _).subperm
  | cons e rest =>
    obtain ⟨tag, text, children⟩ := e
    let e : SchemaElement := ⟨tag, text, children⟩
    have hstep (new : Variety SimpleType)
        (hnew : (SimpleType.usesOfVariety (some (ctx.location holder)) new).Subperm
          (SimpleType.usesOfVariety (some (ctx.location holder)) before
            ++ usesOf ctx (visitsPart Role.simpleType.parts holder e))) :=
      subperm_step hnew (uses_readVariety new holder rest)
    have hreplace {uses : List NameUse} {met : List Lookup} (h : uses.Subperm (usesOf ctx met)) :
        uses.Subperm (SimpleType.usesOfVariety (some (ctx.location holder)) before
          ++ usesOf ctx met) :=
      h.trans (List.sublist_append_right _ _).subperm
    rw [readVariety, visitsIn_cons rfl, usesOf_append]
    split
    · next hkind =>
      refine hstep _ ?_
      rw [visitsPart_of_some (by rw [hkind]; rfl), visits_restriction]
      refine hreplace ?_
      rw [usesOf, List.map_singleton, use_attribute ctx holder e (by decide)]
      exact .refl _
    · next hkind =>
      have hanonymous := uses_readFirstSimple .list rfl rfl holder children
      refine hstep (.list _ (readFirstSimple ctx children).value) ?_
      rw [visitsPart_of_some (by rw [hkind]; rfl), visits_of_first holder e rfl]
      refine hreplace ?_
      rw [usesOf_append, usesOf, Role.attributes, List.map_singleton, List.map_singleton,
        use_attribute ctx _ e (by decide)]
      exact (List.subperm_cons _).2 hanonymous
    · next hkind =>
      have hanonymous := uses_readSimpleTypes holder children
      refine hstep (.union _ (readSimpleTypes ctx children).value) ?_
      rw [visitsPart_of_some (by rw [hkind]; rfl), visits_of_first holder e rfl]
      refine hreplace ?_
      rw [usesOf_append, usesOf, Role.attributes, List.map_singleton, List.map_singleton,
        use_memberTypes ctx _ e]
      exact (List.subperm_cons _).2 hanonymous
    · next hrestriction hlist hunion =>
      exact hstep before (List.sublist_append_left _ _).subperm
termination_by structural es

private theorem uses_readFirstSimple (role : Role)
    (hparts : role.parts = [("simpleType", .simpleType)])
    (hfirst : role.readsFirst = true) (holder : SchemaElement) (es : List SchemaElement) :
    (SimpleType.usesOfOption (readFirstSimple ctx es).value).Subperm
      (usesOf ctx (visitsIn role holder es)) := by
  cases es with
  | nil => exact .refl _
  | cons e rest =>
    rw [readFirstSimple]
    split
    · next hkind =>
      rw [visitsIn_of_first hfirst (by rw [hparts, hkind]; rfl)]
      exact uses_readSimpleType none holder e
    · next hkind =>
      rw [visitsIn_of_none (hparts ▸ Role.lookup_simpleType_of_ne hkind)]
      exact uses_readFirstSimple role hparts hfirst holder rest
termination_by structural es

private theorem uses_readSimpleTypes (holder : SchemaElement) (es : List SchemaElement) :
    (SimpleType.usesOfAll (readSimpleTypes ctx es).value).Subperm
      (usesOf ctx (visitsIn .union holder es)) := by
  cases es with
  | nil => exact .refl _
  | cons e rest =>
    have hrest := uses_readSimpleTypes holder rest
    rw [readSimpleTypes, visitsIn_cons rfl, usesOf_append]
    split
    · next hkind =>
      rw [visitsPart_of_some (by rw [hkind]; rfl)]
      exact (uses_readSimpleType none holder e).append hrest
    · next hkind => exact hrest.trans (List.sublist_append_right _ _).subperm
termination_by structural es

end

/-- The uses of a reference and of a type name. -/
theorem usesOf_declaration (e : SchemaElement) :
    usesOf ctx [⟨e, e, "ref"⟩, ⟨e, e, "type"⟩]
      = [⟨some (ctx.location e), "ref", (ctx.resolveAttribute e "ref").value.toList⟩,
        ⟨some (ctx.location e), "type", (ctx.resolveAttribute e "type").value.toList⟩] := by
  rw [usesOf, List.map_cons, List.map_singleton, use_attribute ctx e e (by decide),
    use_attribute ctx e e (by decide)]

private theorem uses_readAttribute (name : Option QName) (holder e : SchemaElement) :
    (readAttribute ctx name e).value.uses.Subperm (usesOf ctx (visits .attribute holder e)) := by
  have hanonymous := uses_readFirstSimple ctx .attribute rfl rfl e e.children
  have hvisits : visits .attribute holder e
      = [⟨e, e, "ref"⟩, ⟨e, e, "type"⟩] ++ visitsIn .attribute e e.children :=
    visits_of_first holder e rfl
  rw [hvisits, usesOf_append, usesOf_declaration]
  exact (List.subperm_cons _).2 ((List.subperm_cons _).2 hanonymous)

private theorem uses_readAttributeItem (list : AttributeList) (holder e : SchemaElement) :
    ((readAttributeItem ctx list e).value.uses (some (ctx.location holder))).Subperm
      (list.uses (some (ctx.location holder))
        ++ usesOf ctx (visitsPart Role.attributeItems holder e)) := by
  have hitem (item : AttributeItem) : AttributeList.uses (some (ctx.location holder))
      { list with items := list.items ++ [item] }
        = list.uses (some (ctx.location holder)) ++ item.uses (some (ctx.location holder)) := by
    rw [AttributeList.uses, List.flatMap_append, List.flatMap_singleton]
    rfl
  rw [readAttributeItem]
  split
  · next hkind =>
    rw [visitsPart_of_some (by rw [hkind]; rfl)]
    refine hitem (.attribute (readAttribute ctx none e).value) ▸ ?_
    exact (List.subperm_append_left _).2 (uses_readAttribute ctx none holder e)
  · next hkind =>
    rw [visitsPart_of_some (by rw [hkind]; rfl), visits_attributeGroupReference, usesOf,
      List.map_singleton, use_attribute ctx holder e (by decide), Noted.value_bind]
    cases (ctx.resolveAttribute e "ref").value with
    | none => exact (List.sublist_append_left _ _).subperm
    | some name => exact hitem (.group name) ▸ .refl _
  · exact (List.sublist_append_left _ _).subperm
  · exact (List.sublist_append_left _ _).subperm

private theorem uses_readAttributeItems (list : AttributeList) (holder : SchemaElement)
    (es : List SchemaElement) :
    ((readAttributeItems ctx list es).value.uses (some (ctx.location holder))).Subperm
      (list.uses (some (ctx.location holder))
        ++ usesOf ctx (visitsIn .attributeGroup holder es)) := by
  induction es generalizing list with
  | nil => exact (List.sublist_append_left _ _).subperm
  | cons e es ih =>
    rw [visitsIn_cons rfl, usesOf_append]
    exact subperm_step (uses_readAttributeItem ctx list holder e) (ih _)

def Derivation.uses (source : Option Location) (d : Derivation Particle) : List NameUse :=
  ⟨source, "base", d.base.toList⟩ :: (Particle.usesOfOption d.particle ++ d.attributes.uses source)

def ComplexBody.uses (source : Option Location) (b : ComplexBody) : List NameUse :=
  b.derived.toList.flatMap (ComplexContent.uses source)
    ++ (Particle.usesOfOption b.particle ++ b.attributes.uses source)

section Parts

variable {source : Option Location} {part : List NameUse} {p : Option Particle}
  {list : AttributeList}

private theorem Derivation.uses_particle (d : Derivation Particle)
    (h : (Particle.usesOfOption p).Subperm part) :
    (Derivation.uses source { d with particle := p }).Subperm (d.uses source ++ part) := by
  rw [Derivation.uses, Derivation.uses, List.cons_append]
  exact (List.subperm_cons _).2 (subperm_replace h _)

private theorem Derivation.uses_attributes (d : Derivation Particle)
    (h : (list.uses source).Subperm (d.attributes.uses source ++ part)) :
    (Derivation.uses source { d with attributes := list }).Subperm (d.uses source ++ part) := by
  rw [Derivation.uses, Derivation.uses, List.cons_append, List.append_assoc]
  exact (List.subperm_cons _).2 ((List.subperm_append_left _).2 h)

private theorem ComplexBody.uses_derived (b : ComplexBody) (mixed : Bool)
    {content : Derivation Particle → ComplexContent Particle}
    (hcontent : ∀ d, ComplexContent.uses source (content d) = d.uses source)
    {d : Option (Derivation Particle)}
    (h : (d.toList.flatMap (Derivation.uses source)).Subperm part) :
    (ComplexBody.uses source { b with mixed, derived := d.map content }).Subperm
      (b.uses source ++ part) := by
  have hderived : (d.map content).toList.flatMap (ComplexContent.uses source)
      = d.toList.flatMap (Derivation.uses source) := by
    cases d with
    | none => rfl
    | some d => simp [hcontent]
  rw [ComplexBody.uses, hderived]
  exact subperm_replace h _

private theorem ComplexBody.uses_particle (b : ComplexBody)
    (h : (Particle.usesOfOption p).Subperm part) :
    (ComplexBody.uses source { b with particle := p }).Subperm (b.uses source ++ part) := by
  rw [ComplexBody.uses, ComplexBody.uses, List.append_assoc]
  exact (List.subperm_append_left _).2 (subperm_replace h _)

private theorem ComplexBody.uses_attributes (b : ComplexBody)
    (h : (list.uses source).Subperm (b.attributes.uses source ++ part)) :
    (ComplexBody.uses source { b with attributes := list }).Subperm (b.uses source ++ part) := by
  rw [ComplexBody.uses, ComplexBody.uses, List.append_assoc, List.append_assoc]
  exact (List.subperm_append_left _).2 ((List.subperm_append_left _).2 h)

end Parts

private theorem uses_elementOf (name : Option QName) (holder e : SchemaElement)
    {readType : Noted (Option (TypeDefinition Particle))}
    (h : (TypeDefinition.usesOfOption readType.value).Subperm
      (usesOf ctx (visitsIn .element e e.children))) :
    (Element.uses (elementOf ctx name e readType).value).Subperm
      (usesOf ctx (visits .element holder e)) := by
  have hvisits : visits .element holder e
      = [⟨e, e, "ref"⟩, ⟨e, e, "type"⟩] ++ visitsIn .element e e.children
        ++ [⟨e, e, "substitutionGroup"⟩] :=
    visits_eq .element holder e
  have hhead : usesOf ctx [⟨e, e, "substitutionGroup"⟩] = [⟨some (ctx.location e),
      "substitutionGroup", (ctx.resolveAttribute e "substitutionGroup").value.toList⟩] := by
    rw [usesOf, List.map_singleton, use_attribute ctx e e (by decide)]
  rw [hvisits, List.append_assoc, usesOf_append, usesOf_append, usesOf_declaration, hhead]
  exact (List.subperm_cons _).2 ((List.subperm_cons _).2 ((List.subperm_append_right _).2 h))

private theorem uses_complexTypeOf (name : Option QName) (e : SchemaElement) (body : ComplexBody) :
    (ComplexType.uses (complexTypeOf ctx name e body)).Subperm
      (body.uses (some (ctx.location e))) := by
  obtain ⟨mixed, derived, particle, attributes⟩ := body
  cases derived with
  | none => exact .refl _
  | some content =>
    refine List.Sublist.subperm (.trans ?_ (List.sublist_append_left _ _))
    rw [Option.toList_some, List.flatMap_singleton]
    exact .refl _

mutual

private theorem uses_readFirstType (holder : SchemaElement) (es : List SchemaElement) :
    (TypeDefinition.usesOfOption (readFirstType ctx es).value).Subperm
      (usesOf ctx (visitsIn .element holder es)) := by
  cases es with
  | nil => exact .refl _
  | cons e rest =>
    obtain ⟨tag, text, children⟩ := e
    let e : SchemaElement := ⟨tag, text, children⟩
    rw [readFirstType]
    split
    · next hkind =>
      rw [visitsIn_of_first rfl (by rw [hkind]; rfl)]
      exact uses_readSimpleType ctx none holder e
    · next hsimple =>
      split
      · next hkind =>
        have hbody := uses_readComplexBody { mixed := isTrue e "mixed" } e children
        rw [visitsIn_of_first rfl (by rw [hkind]; rfl), visits_of_first holder e rfl]
        exact (uses_complexTypeOf ctx none e _).trans hbody
      · next hcomplex =>
        rw [visitsIn_of_none (Role.lookup_element_of_ne hsimple hcomplex)]
        exact uses_readFirstType holder rest
termination_by structural es

private theorem uses_readComplexBody (body : ComplexBody) (holder : SchemaElement)
    (es : List SchemaElement) :
    ((readComplexBody ctx body es).value.uses (some (ctx.location holder))).Subperm
      (body.uses (some (ctx.location holder))
        ++ usesOf ctx (visitsIn .complexType holder es)) := by
  cases es with
  | nil => exact (List.sublist_append_left _ _).subperm
  | cons e rest =>
    obtain ⟨tag, text, children⟩ := e
    let e : SchemaElement := ⟨tag, text, children⟩
    let source := some (ctx.location holder)
    have hstep (new : ComplexBody) (hnew : (new.uses source).Subperm
        (body.uses source ++ usesOf ctx (visitsPart Role.complexType.parts holder e))) :=
      subperm_step hnew (uses_readComplexBody new holder rest)
    have hderivation (withParticle : Bool) (hpart : visitsPart Role.complexType.parts holder e
        = visitsIn (.content withParticle) holder children) :
        ((readDerivation ctx e withParticle children).value.toList.flatMap
          (Derivation.uses source)).Subperm
            (usesOf ctx (visitsPart Role.complexType.parts holder e)) :=
      hpart ▸ uses_readDerivation e withParticle holder children
    rw [readComplexBody, visitsIn_cons rfl, usesOf_append]
    split
    · next hkind =>
      exact hstep _ (body.uses_derived body.mixed (fun _ => rfl) (hderivation false
        ((visitsPart_of_some (by rw [hkind]; rfl)).trans (visits_of_first holder e rfl))))
    · next hsimple =>
      split
      · next hkind =>
        exact hstep _ (body.uses_derived _ (fun _ => rfl) (hderivation true
          ((visitsPart_of_some (by rw [hkind]; rfl)).trans (visits_of_first holder e rfl))))
      · next hcomplex =>
        split
        · next hkind =>
          refine hstep _ (body.uses_particle ?_)
          rw [visitsPart_congr (lookup_of_isModel hkind).1]
          exact uses_readParticle holder e
        · next hmodel =>
          split
          · next hkind =>
            refine hstep _ (body.uses_attributes ?_)
            rw [visitsPart_congr (lookup_of_isAttributeItem hkind false).1]
            exact uses_readAttributeItem ctx body.attributes holder e
          · next hitem => exact hstep body (List.sublist_append_left _ _).subperm
termination_by structural es

private theorem uses_readDerivation (owner : SchemaElement) (withParticle : Bool)
    (holder : SchemaElement) (es : List SchemaElement) :
    ((readDerivation ctx owner withParticle es).value.toList.flatMap
        (Derivation.uses (some (ctx.location holder)))).Subperm
      (usesOf ctx (visitsIn (.content withParticle) holder es)) := by
  cases es with
  | nil => exact .refl _
  | cons e rest =>
    obtain ⟨tag, text, children⟩ := e
    let e : SchemaElement := ⟨tag, text, children⟩
    rw [readDerivation]
    split
    · next hkind =>
      have hderived (method : DerivationMethod) := uses_readDerived withParticle
        { method, base := (ctx.resolveAttribute e "base").value } holder children
      rw [visitsIn_of_first rfl ((Role.lookup_content _ _).trans (if_pos hkind)),
        visits_of_first holder e rfl, usesOf_append, usesOf, Role.attributes, List.map_singleton,
        List.map_singleton, use_attribute ctx _ e (by decide), Noted.value_bind, Noted.value_bind,
        Noted.value_pure, Option.toList_some, List.flatMap_singleton]
      exact hderived _
    · next hkind =>
      rw [visitsIn_of_none ((Role.lookup_content _ _).trans (if_neg hkind))]
      exact uses_readDerivation owner withParticle holder rest
termination_by structural es

private theorem uses_readDerived (withParticle : Bool) (d : Derivation Particle)
    (holder : SchemaElement) (es : List SchemaElement) :
    ((readDerived ctx withParticle d es).value.uses (some (ctx.location holder))).Subperm
      (d.uses (some (ctx.location holder))
        ++ usesOf ctx (visitsIn (.derivation withParticle) holder es)) := by
  cases es with
  | nil => exact (List.sublist_append_left _ _).subperm
  | cons e rest =>
    let source := some (ctx.location holder)
    have hstep (new : Derivation Particle) (hnew : (new.uses source).Subperm
        (d.uses source ++ usesOf ctx (visitsPart (Role.derivation withParticle).parts holder e))) :=
      subperm_step hnew (uses_readDerived withParticle new holder rest)
    rw [readDerived, visitsIn_cons rfl, usesOf_append]
    split
    · next hkind =>
      obtain ⟨rfl, hkind⟩ := Bool.and_eq_true_iff.1 hkind
      refine hstep _ (d.uses_particle ?_)
      rw [visitsPart_congr (lookup_of_isModel hkind).2]
      exact uses_readParticle holder e
    · next hmodel =>
      split
      · next hkind =>
        refine hstep _ (d.uses_attributes ?_)
        rw [visitsPart_congr (lookup_of_isAttributeItem hkind withParticle).2]
        exact uses_readAttributeItem ctx d.attributes holder e
      · next hitem => exact hstep d (List.sublist_append_left _ _).subperm
termination_by structural es

private theorem uses_readParticle (holder e : SchemaElement) :
    (Particle.usesOfOption (readParticle ctx e).value).Subperm
      (usesOf ctx (visitsPart Role.model.parts holder e)) := by
  obtain ⟨tag, text, children⟩ := e
  let e : SchemaElement := ⟨tag, text, children⟩
  have hmodel (h : e.kind = "sequence" ∨ e.kind = "choice" ∨ e.kind = "all") :
      (Particle.usesOfAll (readParticles ctx children).value).Subperm
        (usesOf ctx (visitsPart Role.model.parts holder e)) := by
    rw [visitsPart_model holder h, visits_of_first holder e rfl]
    exact uses_readParticles holder children
  rw [readParticle]
  split
  · next hkind =>
    rw [visitsPart_of_some (by rw [hkind]; rfl)]
    exact uses_elementOf ctx none holder e (uses_readFirstType e children)
  · exact List.nil_subperm
  · next hkind =>
    rw [visitsPart_of_some (by rw [hkind]; rfl), visits_groupReference, usesOf,
      List.map_singleton, use_attribute ctx e e (by decide), Noted.value_bind]
    cases (ctx.resolveAttribute e "ref").value with
    | none => exact List.nil_subperm
    | some name => exact .refl _
  · next hkind => exact hmodel (.inl hkind)
  · next hkind => exact hmodel (.inr (.inl hkind))
  · next hkind => exact hmodel (.inr (.inr hkind))
  · exact List.nil_subperm
termination_by structural e

private theorem uses_readParticles (holder : SchemaElement) (es : List SchemaElement) :
    (Particle.usesOfAll (readParticles ctx es).value).Subperm
      (usesOf ctx (visitsIn .model holder es)) := by
  cases es with
  | nil => exact .refl _
  | cons e rest =>
    have he := uses_readParticle holder e
    have hrest := uses_readParticles holder rest
    rw [readParticles, visitsIn_cons rfl, usesOf_append, Noted.value_bind, Noted.value_bind,
      Noted.value_pure]
    cases hvalue : (readParticle ctx e).value with
    | none => exact hrest.trans (List.sublist_append_right _ _).subperm
    | some p =>
      rw [hvalue] at he
      exact he.append hrest
termination_by structural es

end

private theorem uses_readFirstModel (holder : SchemaElement) (es : List SchemaElement) :
    (Particle.usesOfOption (readFirstModel ctx es).value).Subperm
      (usesOf ctx (visitsIn .group holder es)) := by
  induction es with
  | nil => exact .refl _
  | cons e es ih =>
    rw [readFirstModel]
    split
    · next hkind =>
      rw [visitsIn_of_first rfl ((Role.lookup_models _).trans (if_pos hkind)),
        ← visitsPart_model holder hkind]
      exact uses_readParticle ctx holder e
    · next hkind =>
      rw [visitsIn_of_none ((Role.lookup_models _).trans (if_neg hkind))]
      exact ih

private theorem uses_readNamed (name : QName) {e : SchemaElement} (h : isGlobal e.kind = true) :
    (Item.uses (readNamed ctx name e).value).Subperm
      (usesOf ctx (visitsPart Role.globals e e)) := by
  rw [readNamed]
  split
  · next hkind =>
    rw [visitsPart_of_some (by rw [hkind]; rfl)]
    exact uses_elementOf ctx (some name) e e (uses_readFirstType ctx e e.children)
  · next hkind =>
    rw [visitsPart_of_some (by rw [hkind]; rfl)]
    exact uses_readSimpleType ctx (some name) e e
  · next hkind =>
    have hbody := uses_readComplexBody ctx { mixed := isTrue e "mixed" } e e.children
    rw [visitsPart_of_some (by rw [hkind]; rfl), visits_of_first e e rfl]
    exact (uses_complexTypeOf ctx (some name) e _).trans hbody
  · next hkind =>
    rw [visitsPart_of_some (by rw [hkind]; rfl)]
    exact uses_readAttribute ctx (some name) e e
  · next hkind =>
    rw [visitsPart_of_some (by rw [hkind]; rfl), visits_of_first e e rfl]
    exact uses_readFirstModel ctx e e.children
  · next helement hsimple hcomplex hattribute hgroup =>
    have hkind := eq_attributeGroup h helement hsimple hcomplex hattribute hgroup
    rw [visitsPart_of_some (by rw [hkind]; rfl), visits_of_first e e rfl]
    exact uses_readAttributeItems ctx {} e e.children

/-- What is looked up in a global component with a name. -/
def globalLookups (e : SchemaElement) : List Lookup :=
  if (e.attribute? "name").isSome then visitsPart Role.globals e e else []

private theorem uses_readItem (e : SchemaElement) :
    ((readItem ctx e).value.toList.flatMap Item.uses).Subperm (usesOf ctx (globalLookups e)) := by
  rw [readItem]
  split
  · exact List.nil_subperm
  · split
    · next hglobal =>
      split
      · next name hname =>
        rw [globalLookups, if_pos (by rw [hname]; rfl), Noted.value_map, Option.toList_some,
          List.flatMap_singleton]
        exact uses_readNamed ctx _ hglobal
      · exact List.nil_subperm
    · exact List.nil_subperm

theorem uses_readItems (es : List SchemaElement) :
    ((readItems ctx es).value.flatMap Item.uses).Subperm
      (usesOf ctx (es.flatMap globalLookups)) := by
  induction es with
  | nil => exact .refl _
  | cons e es ih =>
    rw [readItems, Noted.value_bind, Noted.value_bind, Noted.value_pure, List.flatMap_append,
      List.flatMap_cons, usesOf_append]
    exact (uses_readItem ctx e).append ih

/-- The error about a global component without name. -/
def missingName (e : SchemaElement) : List Diagnostic :=
  if isGlobal e.kind = true ∧ e.attribute? "name" = none then
    [ctx.error e ("Global xs:" ++ e.kind ++ " missing name")]
  else []

private theorem errors_readItem (e : SchemaElement) :
    (readItem ctx e).notes.filter (·.severity = .error)
      = missingName ctx e ++ (globalLookups e).flatMap (·.errors ctx) := by
  have hnone (h : ¬ isGlobal e.kind = true) : globalLookups e = [] := by
    have hlookup : Role.globals.lookup e.kind = none := by
      rw [List.lookup_eq_none_iff]
      simp [isGlobal] at h
      simp_all [Role.globals]
    rw [globalLookups, visitsPart_of_none hlookup, ite_self]
  rw [readItem, missingName]
  split
  · next hsilent =>
    have hglobal : ¬ isGlobal e.kind = true := by
      rcases hsilent with h | h <;> rw [h] <;> decide
    rw [if_neg fun h => hglobal h.1, hnone hglobal]
    rfl
  · split
    · next hglobal =>
      split
      · next name hname =>
        have herrors := (logs_readNamed ctx (QName.inSpace ctx.targetSpace name) hglobal).errors
        rw [if_neg (by simp [hname]), globalLookups, if_pos (by rw [hname]; rfl), Noted.notes_map,
          herrors]
        rfl
      · next hname =>
        rw [if_pos ⟨hglobal, hname⟩, globalLookups, if_neg (by simp [hname])]
        rfl
    · next hglobal =>
      rw [if_neg fun h => hglobal h.1, hnone hglobal]
      rfl

theorem errors_readItems (es : List SchemaElement) :
    (readItems ctx es).notes.filter (·.severity = .error)
      = es.flatMap fun e => missingName ctx e ++ (globalLookups e).flatMap (·.errors ctx) := by
  induction es with
  | nil => rfl
  | cons e es ih =>
    rw [readItems, Noted.notes_bind, Noted.notes_bind, Noted.notes_pure, List.append_nil,
      List.filter_append, errors_readItem, ih, List.flatMap_cons]

end XsdCatalog.Written
