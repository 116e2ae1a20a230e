import XsdCatalog.Written.Reader

/-!
# Components and their elements

A schema consists of components at any depth: its items, the particles of content models, local
elements and attributes, the types that stand inside them, facets and wildcards. Each of them is
what its kind of reader gives for one element of the document, carries the place of this element,
and has the components inside it from elements inside this element (`readsIn_of_readFrom`,
`reads_readSchema`).
-/

namespace XsdCatalog

namespace SchemaElement

mutual

/-- An element and the elements inside it. -/
def elements : SchemaElement → List SchemaElement
  | ⟨tag, text, children⟩ => ⟨tag, text, children⟩ :: elementsOfAll children

def elementsOfAll : List SchemaElement → List SchemaElement
  | [] => []
  | e :: es => e.elements ++ elementsOfAll es

end

mutual

/-- The tags of an element and of the elements inside it. -/
def tags : SchemaElement → List Markup.Tag
  | ⟨tag, _, children⟩ => tag :: tagsOfAll children

def tagsOfAll : List SchemaElement → List Markup.Tag
  | [] => []
  | e :: es => e.tags ++ tagsOfAll es

end

theorem tagsOfAll_append (es ds : List SchemaElement) :
    tagsOfAll (es ++ ds) = tagsOfAll es ++ tagsOfAll ds := by
  induction es with
  | nil => rfl
  | cons e es ih => rw [List.cons_append, tagsOfAll, ih, tagsOfAll, List.append_assoc]

theorem tag_mem_tags (e : SchemaElement) : e.tag ∈ e.tags := by
  obtain ⟨tag, text, children⟩ := e
  exact List.mem_cons_self

theorem tagsOfAll_subset_tags (e : SchemaElement) : tagsOfAll e.children ⊆ e.tags := by
  obtain ⟨tag, text, children⟩ := e
  exact List.subset_cons_self tag _

theorem elementsOfAll_append (es ds : List SchemaElement) :
    elementsOfAll (es ++ ds) = elementsOfAll es ++ elementsOfAll ds := by
  induction es with
  | nil => rfl
  | cons e es ih => rw [List.cons_append, elementsOfAll, ih, elementsOfAll, List.append_assoc]

mutual

theorem tags_eq (e : SchemaElement) : e.tags = e.elements.map (·.tag) := by
  obtain ⟨tag, text, children⟩ := e
  rw [tags, elements, List.map_cons, tagsOfAll_eq children]

private theorem tagsOfAll_eq (es : List SchemaElement) :
    tagsOfAll es = (elementsOfAll es).map (·.tag) := by
  cases es with
  | nil => rfl
  | cons e es => rw [tagsOfAll, elementsOfAll, List.map_append, tags_eq e, tagsOfAll_eq es]

end

private theorem mem_elements_self (e : SchemaElement) : e ∈ e.elements := by
  obtain ⟨tag, text, children⟩ := e
  exact List.mem_cons_self

private theorem elementsOfAll_subset_elements (e : SchemaElement) :
    elementsOfAll e.children ⊆ e.elements := by
  obtain ⟨tag, text, children⟩ := e
  exact List.subset_cons_self _ _

end SchemaElement

namespace Written

/-- A part of a schema that carries a location. -/
inductive Component
  | facet (f : Facet)
  | simpleType (t : SimpleType)
  | wildcard (w : Wildcard)
  | «attribute» (a : Attribute)
  | attributeGroup (g : AttributeGroup)
  | element (e : Element Particle)
  | complexType (t : ComplexType Particle)
  | particle (p : Particle)
  | group (g : Group)

def Component.source : Component → Option Location
  | facet f => f.source
  | simpleType t => t.source
  | wildcard w => w.source
  | .attribute a => a.source
  | attributeGroup g => g.source
  | element e => e.source
  | complexType t => t.source
  | particle p => p.source
  | group g => g.source

mutual

def SimpleType.components : SimpleType → List Component
  | ⟨name, documentation, source, variety⟩ =>
    .simpleType ⟨name, documentation, source, variety⟩ :: SimpleType.componentsOfVariety variety

def SimpleType.componentsOfVariety : Variety SimpleType → List Component
  | .unstated => []
  | .restriction _ facets => facets.map .facet
  | .list _ t => SimpleType.componentsOfOption t
  | .union _ ts => SimpleType.componentsOfAll ts

def SimpleType.componentsOfOption : Option SimpleType → List Component
  | none => []
  | some t => t.components

def SimpleType.componentsOfAll : List SimpleType → List Component
  | [] => []
  | t :: ts => t.components ++ SimpleType.componentsOfAll ts

end

def Attribute.components (a : Attribute) : List Component :=
  .attribute a :: SimpleType.componentsOfOption a.anonymous

def AttributeItem.components : AttributeItem → List Component
  | .attribute a => a.components
  | .group _ => []

def AttributeList.components (l : AttributeList) : List Component :=
  l.items.flatMap AttributeItem.components ++ l.wildcard.toList.map .wildcard

def AttributeGroup.components (g : AttributeGroup) : List Component :=
  .attributeGroup g :: g.attributes.components

mutual

def Particle.components : Particle → List Component
  | ⟨min, max, term, source⟩ => .particle ⟨min, max, term, source⟩ :: Term.components term

def Term.components : Term Particle → List Component
  | .element e => Element.components e
  | .wildcard w => [.wildcard w]
  | .group _ => []
  | .model _ children => Particle.componentsOfAll children

def Particle.componentsOfAll : List Particle → List Component
  | [] => []
  | p :: ps => p.components ++ Particle.componentsOfAll ps

def Particle.componentsOfOption : Option Particle → List Component
  | none => []
  | some p => p.components

def ComplexContent.components : ComplexContent Particle → List Component
  | .direct particle attributes => Particle.componentsOfOption particle ++ attributes.components
  | .simple ⟨_, _, particle, attributes⟩ =>
    Particle.componentsOfOption particle ++ attributes.components
  | .complex ⟨_, _, particle, attributes⟩ =>
    Particle.componentsOfOption particle ++ attributes.components

def ComplexType.components : ComplexType Particle → List Component
  | ⟨name, documentation, source, isAbstract, mixed, content⟩ =>
    .complexType ⟨name, documentation, source, isAbstract, mixed, content⟩
      :: ComplexContent.components content

def TypeDefinition.components : TypeDefinition Particle → List Component
  | .simple t => t.components
  | .complex t => ComplexType.components t

def TypeDefinition.componentsOfOption : Option (TypeDefinition Particle) → List Component
  | none => []
  | some t => TypeDefinition.components t

def Element.components : Element Particle → List Component
  | ⟨name, reference, typeName, anonymous, isAbstract, nillable, default, fixed, head,
      documentation, source⟩ =>
    .element ⟨name, reference, typeName, anonymous, isAbstract, nillable, default, fixed, head,
      documentation, source⟩ :: TypeDefinition.componentsOfOption anonymous

end

def Group.components (g : Group) : List Component :=
  .group g :: Particle.componentsOfOption g.particle

def Item.components : Item → List Component
  | simpleType t => t.components
  | complexType t => ComplexType.components t
  | .attribute a => a.components
  | element e => Element.components e
  | group g => g.components
  | attributeGroup g => g.components

/-- The components of a schema, at any depth. -/
def Schema.components (s : Schema) : List Component :=
  s.items.flatMap Item.components

/-- The locations that the components of a schema carry. -/
def Schema.locations (s : Schema) : List Location :=
  s.components.filterMap Component.source

/-- A component and the components inside it. -/
def Component.components : Component → List Component
  | facet f => [.facet f]
  | simpleType t => t.components
  | wildcard w => [.wildcard w]
  | .attribute a => a.components
  | attributeGroup g => g.components
  | element e => Element.components e
  | complexType t => ComplexType.components t
  | particle p => p.components
  | group g => g.components

/-- A component is what its kind of reader gives for an element of the kind that declares it.
Global declarations are read with their names, local ones without. -/
inductive ReadFrom (ctx : Context) (e : SchemaElement) : Component → Prop
  | facet (kind : e.kind ≠ "annotation" ∧ e.kind ≠ "simpleType") :
    ReadFrom ctx e (.facet (readFacet ctx e))
  | simpleType (kind : e.kind = "simpleType") (name : Option QName) :
    ReadFrom ctx e (.simpleType (readSimpleType ctx name e).value)
  | wildcard (kind : e.kind = "any" ∨ e.kind = "anyAttribute") :
    ReadFrom ctx e (.wildcard (readWildcard ctx e).value)
  | «attribute» (kind : e.kind = "attribute") (name : Option QName) :
    ReadFrom ctx e (.attribute (readAttribute ctx name e).value)
  | attributeGroup (kind : e.kind = "attributeGroup") (name : QName) :
    ReadFrom ctx e (.attributeGroup (readAttributeGroup ctx name e).value)
  | element (kind : e.kind = "element") (name : Option QName) :
    ReadFrom ctx e (.element (readElement ctx name e).value)
  | complexType (kind : e.kind = "complexType") (name : Option QName) :
    ReadFrom ctx e (.complexType (readComplexType ctx name e).value)
  | particle {p : Particle} (read : (readParticle ctx e).value = some p) :
    ReadFrom ctx e (.particle p)
  | group (kind : e.kind = "group") (name : QName) :
    ReadFrom ctx e (.group (readGroup ctx name e).value)

variable (ctx : Context)

/-- A component is read from an element or from one inside it. -/
def ReadsIn (e : SchemaElement) (c : Component) : Prop :=
  ∃ d ∈ e.elements, ReadFrom ctx d c

/-- A component is read from one of a row of elements or from one inside them. -/
def ReadsInAll (es : List SchemaElement) (c : Component) : Prop :=
  ∃ d ∈ SchemaElement.elementsOfAll es, ReadFrom ctx d c

variable {ctx}

private theorem ReadFrom.readsIn {e : SchemaElement} {c : Component} (h : ReadFrom ctx e c) :
    ReadsIn ctx e c :=
  ⟨e, e.mem_elements_self, h⟩

private theorem ReadsInAll.children {e : SchemaElement} {c : Component}
    (h : ReadsInAll ctx e.children c) : ReadsIn ctx e c := by
  obtain ⟨d, hd, hc⟩ := h
  exact ⟨d, e.elementsOfAll_subset_elements hd, hc⟩

private theorem ReadsIn.head {e : SchemaElement} {c : Component} (h : ReadsIn ctx e c)
    (es : List SchemaElement) : ReadsInAll ctx (e :: es) c := by
  obtain ⟨d, hd, hc⟩ := h
  exact ⟨d, List.mem_append_left _ hd, hc⟩

private theorem ReadsInAll.tail {es : List SchemaElement} {c : Component} (h : ReadsInAll ctx es c)
    (e : SchemaElement) : ReadsInAll ctx (e :: es) c := by
  obtain ⟨d, hd, hc⟩ := h
  exact ⟨d, List.mem_append_right _ hd, hc⟩

private theorem readsInAll_of_mem {e : SchemaElement} {es : List SchemaElement} {c : Component}
    (he : e ∈ es) (h : ReadsIn ctx e c) : ReadsInAll ctx es c := by
  induction es with
  | nil => cases he
  | cons d es ih =>
    rcases List.mem_cons.1 he with rfl | he
    · exact h.head es
    · exact (ih he).tail d

/-- What is read from an element and then from those behind it adds components of all of them. -/
private theorem reads_step {before new result : List Component} {e : SchemaElement}
    {es : List SchemaElement} (hnew : ∀ c ∈ new, c ∈ before ∨ ReadsIn ctx e c)
    (hresult : ∀ c ∈ result, c ∈ new ∨ ReadsInAll ctx es c) :
    ∀ c ∈ result, c ∈ before ∨ ReadsInAll ctx (e :: es) c := by
  intro c hc
  rcases hresult c hc with hc | hc
  · exact (hnew c hc).imp_right fun h => h.head es
  · exact .inr (hc.tail e)

/-- A component is read from the element that it is a component of, if those inside it are. -/
private theorem reads_cons {e : SchemaElement} {c : Component} {cs : List Component}
    (h : ReadFrom ctx e c) (hinside : ∀ d ∈ cs, ReadsInAll ctx e.children d) :
    ∀ d ∈ c :: cs, ReadsIn ctx e d := by
  intro d hd
  rcases List.mem_cons.1 hd with rfl | hd
  · exact h.readsIn
  · exact (hinside d hd).children

variable (ctx)

private theorem reads_readFacets (children : List SchemaElement) :
    ∀ c ∈ (readFacets ctx children).map .facet, ReadsInAll ctx children c := by
  intro c hc
  obtain ⟨facet, hf, rfl⟩ := List.mem_map.1 hc
  obtain ⟨e, he, rfl⟩ := List.mem_map.1 hf
  obtain ⟨hmem, hkind⟩ := List.mem_filter.1 he
  have hkind : e.kind ≠ "annotation" ∧ e.kind ≠ "simpleType" := by simpa using hkind
  exact readsInAll_of_mem hmem (ReadFrom.facet hkind).readsIn

mutual

private theorem reads_readSimpleType (name : Option QName) (e : SchemaElement)
    (hkind : e.kind = "simpleType") :
    ∀ c ∈ (readSimpleType ctx name e).value.components, ReadsIn ctx e c := by
  obtain ⟨tag, text, children⟩ := e
  have hvariety := reads_readVariety .unstated children
  refine reads_cons (.simpleType hkind name) fun c hc => ?_
  exact (hvariety c hc).resolve_left (List.not_mem_nil)

private theorem reads_readVariety (before : Variety SimpleType) (es : List SchemaElement) :
    ∀ c ∈ SimpleType.componentsOfVariety (readVariety ctx before es).value,
      c ∈ SimpleType.componentsOfVariety before ∨ ReadsInAll ctx es c := by
  cases es with
  | nil => exact fun c hc => .inl hc
  | cons e rest =>
    obtain ⟨tag, text, children⟩ := e
    let e : SchemaElement := ⟨tag, text, children⟩
    have hstep (new : Variety SimpleType)
        (hnew : ∀ c ∈ SimpleType.componentsOfVariety new, ReadsInAll ctx children c) :
        ∀ c ∈ SimpleType.componentsOfVariety (readVariety ctx new rest).value,
          c ∈ SimpleType.componentsOfVariety before ∨ ReadsInAll ctx (e :: rest) c := by
      refine reads_step (fun c hc => .inr ?_) (reads_readVariety new rest)
      exact ReadsInAll.children (e := e) (hnew c hc)
    rw [readVariety]
    split
    · exact hstep _ (reads_readFacets ctx children)
    · exact hstep (.list _ (readFirstSimple ctx children).value) (reads_readFirstSimple children)
    · exact hstep _ (reads_readSimpleTypes children)
    · exact reads_step (fun c hc => .inl hc) (reads_readVariety before rest)

private theorem reads_readFirstSimple (es : List SchemaElement) :
    ∀ c ∈ SimpleType.componentsOfOption (readFirstSimple ctx es).value, ReadsInAll ctx es c := by
  cases es with
  | nil => exact List.forall_mem_nil _
  | cons e rest =>
    rw [readFirstSimple]
    split
    · next hkind => exact fun c hc => (reads_readSimpleType none e hkind c hc).head rest
    · exact fun c hc => (reads_readFirstSimple rest c hc).tail e

private theorem reads_readSimpleTypes (es : List SchemaElement) :
    ∀ c ∈ SimpleType.componentsOfAll (readSimpleTypes ctx es).value, ReadsInAll ctx es c := by
  cases es with
  | nil => exact List.forall_mem_nil _
  | cons e rest =>
    have hrest := reads_readSimpleTypes rest
    rw [readSimpleTypes]
    split
    · next hkind =>
      intro c hc
      rcases List.mem_append.1 hc with hc | hc
      · exact (reads_readSimpleType none e hkind c hc).head rest
      · exact (hrest c hc).tail e
    · exact fun c hc => (hrest c hc).tail e

end

private theorem reads_readAttribute (name : Option QName) (e : SchemaElement)
    (hkind : e.kind = "attribute") :
    ∀ c ∈ (readAttribute ctx name e).value.components, ReadsIn ctx e c :=
  reads_cons (.attribute hkind name) (reads_readFirstSimple ctx e.children)

private theorem reads_readAttributeItem (list : AttributeList) (e : SchemaElement) :
    ∀ c ∈ (readAttributeItem ctx list e).value.components, c ∈ list.components ∨ ReadsIn ctx e c := by
  intro c hc
  rw [readAttributeItem] at hc
  split at hc
  · next hkind =>
    have ha := reads_readAttribute ctx none e hkind
    simp only [Noted.value_bind, Noted.value_pure, AttributeList.components, List.flatMap_append,
      List.mem_append] at hc
    rcases hc with (hc | hc) | hc
    · exact .inl (List.mem_append_left _ hc)
    · exact .inr (ha c (by simpa [AttributeItem.components] using hc))
    · exact .inl (List.mem_append_right _ hc)
  · rw [Noted.value_bind] at hc
    split at hc
    · refine .inl ?_
      simpa [AttributeList.components, AttributeItem.components] using hc
    · exact .inl hc
  · next hkind =>
    simp only [Noted.value_bind, Noted.value_pure, AttributeList.components, List.mem_append] at hc
    rcases hc with hc | hc
    · exact .inl (List.mem_append_left _ hc)
    · obtain rfl := List.mem_singleton.1 hc
      exact .inr (ReadFrom.wildcard (.inr hkind)).readsIn
  · exact .inl hc

private theorem reads_readAttributeItems (list : AttributeList) (es : List SchemaElement) :
    ∀ c ∈ (readAttributeItems ctx list es).value.components,
      c ∈ list.components ∨ ReadsInAll ctx es c := by
  induction es generalizing list with
  | nil => exact fun c hc => .inl hc
  | cons e es ih =>
    exact reads_step (reads_readAttributeItem ctx list e) (ih (readAttributeItem ctx list e).value)

private theorem reads_readAttributeGroup (name : QName) (e : SchemaElement)
    (hkind : e.kind = "attributeGroup") :
    ∀ c ∈ (readAttributeGroup ctx name e).value.components, ReadsIn ctx e c := by
  have hitems := reads_readAttributeItems ctx {} e.children
  refine reads_cons (.attributeGroup hkind name) fun c hc => ?_
  exact (hitems c hc).resolve_left List.not_mem_nil

def Derivation.components (d : Derivation Particle) : List Component :=
  Particle.componentsOfOption d.particle ++ d.attributes.components

def ComplexBody.components (b : ComplexBody) : List Component :=
  b.derived.toList.flatMap ComplexContent.components
    ++ (Particle.componentsOfOption b.particle ++ b.attributes.components)

section Parts

variable {P : Component → Prop} {p : Option Particle} {list : AttributeList}

private theorem Derivation.components_particle (d : Derivation Particle)
    (h : ∀ c ∈ Particle.componentsOfOption p, P c) :
    ∀ c ∈ Derivation.components { d with particle := p }, c ∈ d.components ∨ P c := by
  intro c hc
  simp only [Derivation.components, List.mem_append] at hc ⊢
  rcases hc with hc | hc
  · exact .inr (h c hc)
  · exact .inl (.inr hc)

private theorem Derivation.components_attributes (d : Derivation Particle)
    (h : ∀ c ∈ list.components, c ∈ d.attributes.components ∨ P c) :
    ∀ c ∈ Derivation.components { d with attributes := list }, c ∈ d.components ∨ P c := by
  intro c hc
  simp only [Derivation.components, List.mem_append] at hc ⊢
  rcases hc with hc | hc
  · exact .inl (.inl hc)
  · exact (h c hc).imp_left .inr

private theorem ComplexBody.components_derived (b : ComplexBody) (mixed : Bool)
    {content : Derivation Particle → ComplexContent Particle}
    (hcontent : ∀ d, ComplexContent.components (content d) = d.components)
    {d : Option (Derivation Particle)}
    (h : ∀ c ∈ d.toList.flatMap Derivation.components, P c) :
    ∀ c ∈ ComplexBody.components { b with mixed, derived := d.map content },
      c ∈ b.components ∨ P c := by
  have hderived : (d.map content).toList.flatMap ComplexContent.components
      = d.toList.flatMap Derivation.components := by
    cases d with
    | none => rfl
    | some d => simp [hcontent]
  intro c hc
  simp only [ComplexBody.components, hderived, List.mem_append] at hc ⊢
  rcases hc with hc | hc
  · exact .inr (h c hc)
  · exact .inl (.inr hc)

private theorem ComplexBody.components_particle (b : ComplexBody)
    (h : ∀ c ∈ Particle.componentsOfOption p, P c) :
    ∀ c ∈ ComplexBody.components { b with particle := p }, c ∈ b.components ∨ P c := by
  intro c hc
  simp only [ComplexBody.components, List.mem_append] at hc ⊢
  rcases hc with hc | hc | hc
  · exact .inl (.inl hc)
  · exact .inr (h c hc)
  · exact .inl (.inr (.inr hc))

private theorem ComplexBody.components_attributes (b : ComplexBody)
    (h : ∀ c ∈ list.components, c ∈ b.attributes.components ∨ P c) :
    ∀ c ∈ ComplexBody.components { b with attributes := list }, c ∈ b.components ∨ P c := by
  intro c hc
  simp only [ComplexBody.components, List.mem_append] at hc ⊢
  rcases hc with hc | hc | hc
  · exact .inl (.inl hc)
  · exact .inl (.inr (.inl hc))
  · exact (h c hc).imp_left fun hc => .inr (.inr hc)

end Parts

private theorem components_complexTypeOf (name : Option QName) (e : SchemaElement)
    (body : ComplexBody) :
    ∀ c ∈ ComplexContent.components (complexTypeOf ctx name e body).content,
      c ∈ body.components := by
  obtain ⟨mixed, derived, particle, attributes⟩ := body
  intro c hc
  cases derived with
  | none => exact List.mem_append_right _ hc
  | some content =>
    refine List.mem_append_left _ ?_
    rw [Option.toList_some, List.flatMap_singleton]
    exact hc

private theorem reads_readElement (name : Option QName) {e : SchemaElement}
    (hkind : e.kind = "element")
    (h : ∀ c ∈ TypeDefinition.componentsOfOption (readFirstType ctx e.children).value,
      ReadsInAll ctx e.children c) :
    ∀ c ∈ Element.components (readElement ctx name e).value, ReadsIn ctx e c :=
  reads_cons (.element hkind name) h

private theorem reads_readComplexType (name : Option QName) {e : SchemaElement}
    (hkind : e.kind = "complexType")
    (h : ∀ body, ∀ c ∈ (readComplexBody ctx body e.children).value.components,
      c ∈ body.components ∨ ReadsInAll ctx e.children c) :
    ∀ c ∈ ComplexType.components (readComplexType ctx name e).value, ReadsIn ctx e c := by
  refine reads_cons (.complexType hkind name) fun c hc => ?_
  have hbody := components_complexTypeOf ctx name e _ c hc
  exact (h _ c hbody).resolve_left List.not_mem_nil

mutual

private theorem reads_readFirstType (es : List SchemaElement) :
    ∀ c ∈ TypeDefinition.componentsOfOption (readFirstType ctx es).value, ReadsInAll ctx es c := by
  cases es with
  | nil => exact List.forall_mem_nil _
  | cons e rest =>
    obtain ⟨tag, text, children⟩ := e
    let e : SchemaElement := ⟨tag, text, children⟩
    rw [readFirstType]
    split
    · next hkind => exact fun c hc => (reads_readSimpleType ctx none e hkind c hc).head rest
    · split
      · next hkind =>
        have he := reads_readComplexType ctx none (e := e) hkind
          fun body => reads_readComplexBody body children
        exact fun c hc => (he c hc).head rest
      · exact fun c hc => (reads_readFirstType rest c hc).tail e

private theorem reads_readComplexBody (body : ComplexBody) (es : List SchemaElement) :
    ∀ c ∈ (readComplexBody ctx body es).value.components,
      c ∈ body.components ∨ ReadsInAll ctx es c := by
  cases es with
  | nil => exact fun c hc => .inl hc
  | cons e rest =>
    obtain ⟨tag, text, children⟩ := e
    let e : SchemaElement := ⟨tag, text, children⟩
    have hstep (new : ComplexBody)
        (hnew : ∀ c ∈ new.components, c ∈ body.components ∨ ReadsIn ctx e c) :
        ∀ c ∈ (readComplexBody ctx new rest).value.components,
          c ∈ body.components ∨ ReadsInAll ctx (e :: rest) c :=
      reads_step hnew (reads_readComplexBody new rest)
    have hderivation (withParticle : Bool) :
        ∀ c ∈ (readDerivation ctx e withParticle children).value.toList.flatMap
          Derivation.components, ReadsIn ctx e c := by
      intro c hc
      exact ReadsInAll.children (e := e) (reads_readDerivation e withParticle children c hc)
    rw [readComplexBody]
    split
    · exact hstep _ (body.components_derived body.mixed (fun _ => rfl) (hderivation false))
    · split
      · exact hstep _ (body.components_derived _ (fun _ => rfl) (hderivation true))
      · split
        · exact hstep _ (body.components_particle (reads_readParticle e))
        · split
          · exact hstep _
              (body.components_attributes (reads_readAttributeItem ctx body.attributes e))
          · exact hstep body fun c hc => .inl hc

private theorem reads_readDerivation (owner : SchemaElement) (withParticle : Bool)
    (es : List SchemaElement) :
    ∀ c ∈ (readDerivation ctx owner withParticle es).value.toList.flatMap Derivation.components,
      ReadsInAll ctx es c := by
  cases es with
  | nil => exact List.forall_mem_nil _
  | cons e rest =>
    obtain ⟨tag, text, children⟩ := e
    let e : SchemaElement := ⟨tag, text, children⟩
    rw [readDerivation]
    split
    · have hd (method : DerivationMethod) (base : Option QName) :
          ∀ c ∈ (readDerived ctx withParticle { method, base } children).value.components,
            ReadsIn ctx e c := by
        intro c hc
        have hall := reads_readDerived withParticle { method, base } children c hc
        exact ReadsInAll.children (e := e) (hall.resolve_left List.not_mem_nil)
      intro c hc
      exact (hd _ _ c (by simpa using hc)).head rest
    · exact fun c hc => (reads_readDerivation owner withParticle rest c hc).tail e

private theorem reads_readDerived (withParticle : Bool) (d : Derivation Particle)
    (es : List SchemaElement) :
    ∀ c ∈ (readDerived ctx withParticle d es).value.components,
      c ∈ d.components ∨ ReadsInAll ctx es c := by
  cases es with
  | nil => exact fun c hc => .inl hc
  | cons e rest =>
    have hstep (new : Derivation Particle)
        (hnew : ∀ c ∈ new.components, c ∈ d.components ∨ ReadsIn ctx e c) :
        ∀ c ∈ (readDerived ctx withParticle new rest).value.components,
          c ∈ d.components ∨ ReadsInAll ctx (e :: rest) c :=
      reads_step hnew (reads_readDerived withParticle new rest)
    rw [readDerived]
    split
    · exact hstep _ (d.components_particle (reads_readParticle e))
    · split
      · exact hstep _ (d.components_attributes (reads_readAttributeItem ctx d.attributes e))
      · exact hstep d fun c hc => .inl hc

private theorem reads_readParticle (e : SchemaElement) :
    ∀ c ∈ Particle.componentsOfOption (readParticle ctx e).value, ReadsIn ctx e c := by
  cases hread : (readParticle ctx e).value with
  | none => exact List.forall_mem_nil _
  | some p =>
    obtain ⟨min, max, term, source⟩ := p
    intro c hc
    rcases List.mem_cons.1 hc with rfl | hc
    · exact (ReadFrom.particle hread).readsIn
    · -- what is inside the particle is inside its term
      obtain ⟨tag, text, children⟩ := e
      let e : SchemaElement := ⟨tag, text, children⟩
      have hmodel (h : term = .model .sequence (readParticles ctx children).value ∨
          term = .model .choice (readParticles ctx children).value ∨
          term = .model .all (readParticles ctx children).value) : ReadsIn ctx e c := by
        refine ReadsInAll.children (e := e) (reads_readParticles children c ?_)
        rcases h with rfl | rfl | rfl <;> exact hc
      rw [readParticle] at hread
      split at hread
      · next hkind =>
        obtain rfl : Term.element _ = term := congrArg (·.term) (Option.some.inj hread)
        exact reads_readElement ctx none (e := e) hkind (reads_readFirstType children) c hc
      · next hkind =>
        obtain rfl : Term.wildcard _ = term := congrArg (·.term) (Option.some.inj hread)
        obtain rfl := List.mem_singleton.1 hc
        exact (ReadFrom.wildcard (.inl hkind)).readsIn
      · rw [Noted.value_bind] at hread
        split at hread
        · obtain rfl : Term.group _ = term := congrArg (·.term) (Option.some.inj hread)
          cases hc
        · cases hread
      · exact hmodel (.inl (congrArg (·.term) (Option.some.inj hread)).symm)
      · exact hmodel (.inr (.inl (congrArg (·.term) (Option.some.inj hread)).symm))
      · exact hmodel (.inr (.inr (congrArg (·.term) (Option.some.inj hread)).symm))
      · cases hread

private theorem reads_readParticles (es : List SchemaElement) :
    ∀ c ∈ Particle.componentsOfAll (readParticles ctx es).value, ReadsInAll ctx es c := by
  cases es with
  | nil => exact List.forall_mem_nil _
  | cons e rest =>
    have he := reads_readParticle e
    have hrest := reads_readParticles rest
    rw [readParticles, Noted.value_bind, Noted.value_bind, Noted.value_pure]
    cases hvalue : (readParticle ctx e).value with
    | none => exact fun c hc => (hrest c hc).tail e
    | some p =>
      rw [hvalue] at he
      intro c hc
      rcases List.mem_append.1 hc with hc | hc
      · exact (he c hc).head rest
      · exact (hrest c hc).tail e

end

private theorem reads_readFirstModel (es : List SchemaElement) :
    ∀ c ∈ Particle.componentsOfOption (readFirstModel ctx es).value, ReadsInAll ctx es c := by
  induction es with
  | nil => exact List.forall_mem_nil _
  | cons e es ih =>
    rw [readFirstModel]
    split
    · exact fun c hc => (reads_readParticle ctx e c hc).head es
    · exact fun c hc => (ih c hc).tail e

private theorem reads_readGroup (name : QName) (e : SchemaElement) (hkind : e.kind = "group") :
    ∀ c ∈ (readGroup ctx name e).value.components, ReadsIn ctx e c :=
  reads_cons (.group hkind name) (reads_readFirstModel ctx e.children)

/-- The components inside a component are read from elements inside its element. -/
theorem readsIn_of_readFrom {e : SchemaElement} {c : Component} (h : ReadFrom ctx e c) :
    ∀ d ∈ c.components, ReadsIn ctx e d := by
  cases h with
  | facet kind => exact List.forall_mem_singleton.2 (ReadFrom.facet kind).readsIn
  | simpleType kind name => exact reads_readSimpleType ctx name e kind
  | wildcard kind => exact List.forall_mem_singleton.2 (ReadFrom.wildcard kind).readsIn
  | «attribute» kind name => exact reads_readAttribute ctx name e kind
  | attributeGroup kind name => exact reads_readAttributeGroup ctx name e kind
  | element kind name => exact reads_readElement ctx name kind (reads_readFirstType ctx e.children)
  | complexType kind name =>
    exact reads_readComplexType ctx name kind fun body =>
      reads_readComplexBody ctx body e.children
  | particle read =>
    have hparticle := reads_readParticle ctx e
    rw [read] at hparticle
    exact hparticle
  | group kind name => exact reads_readGroup ctx name e kind

/-- A component carries the place of the element that it is read from. -/
theorem source_of_readFrom {e : SchemaElement} {c : Component} (h : ReadFrom ctx e c) :
    c.source = some (ctx.location e) := by
  cases h with
  | facet kind => rfl
  | simpleType kind name =>
    obtain ⟨tag, text, children⟩ := e
    rfl
  | wildcard kind => rfl
  | «attribute» kind name => rfl
  | attributeGroup kind name => rfl
  | element kind name => rfl
  | complexType kind name => rfl
  | @particle p read =>
    obtain ⟨tag, text, children⟩ := e
    rw [readParticle] at read
    split at read
    · exact congrArg (·.source) (Option.some.inj read).symm
    · exact congrArg (·.source) (Option.some.inj read).symm
    · rw [Noted.value_bind] at read
      split at read
      · exact congrArg (·.source) (Option.some.inj read).symm
      · cases read
    · exact congrArg (·.source) (Option.some.inj read).symm
    · exact congrArg (·.source) (Option.some.inj read).symm
    · exact congrArg (·.source) (Option.some.inj read).symm
    · cases read
  | group kind name => rfl

theorem eq_attributeGroup {kind : String} (h : isGlobal kind = true) (helement : kind ≠ "element")
    (hsimple : kind ≠ "simpleType") (hcomplex : kind ≠ "complexType")
    (hattribute : kind ≠ "attribute") (hgroup : kind ≠ "group") : kind = "attributeGroup" := by
  simp only [isGlobal, Bool.or_eq_true, beq_iff_eq] at h
  rcases h with ((((h | h) | h) | h) | h) | h
  · exact absurd h helement
  · exact absurd h hsimple
  · exact absurd h hcomplex
  · exact absurd h hattribute
  · exact absurd h hgroup
  · exact h

private theorem reads_readNamed (name : QName) {e : SchemaElement} (h : isGlobal e.kind = true) :
    ∀ c ∈ (readNamed ctx name e).value.components, ReadsIn ctx e c := by
  rw [readNamed]
  split
  · next hkind => exact readsIn_of_readFrom ctx (.element hkind (some name))
  · next hkind => exact readsIn_of_readFrom ctx (.simpleType hkind (some name))
  · next hkind => exact readsIn_of_readFrom ctx (.complexType hkind (some name))
  · next hkind => exact readsIn_of_readFrom ctx (.attribute hkind (some name))
  · next hkind => exact readsIn_of_readFrom ctx (.group hkind name)
  · next helement hsimple hcomplex hattribute hgroup =>
    have hkind := eq_attributeGroup h helement hsimple hcomplex hattribute hgroup
    exact readsIn_of_readFrom ctx (.attributeGroup hkind name)

private theorem reads_readItem (e : SchemaElement) :
    ∀ c ∈ (readItem ctx e).value.toList.flatMap Item.components, ReadsIn ctx e c := by
  rw [readItem]
  split
  · exact List.forall_mem_nil _
  · split
    · next hglobal =>
      split
      · next name _ =>
        intro c hc
        exact reads_readNamed ctx (QName.inSpace ctx.targetSpace name) hglobal c (by simpa using hc)
      · exact List.forall_mem_nil _
    · exact List.forall_mem_nil _

private theorem reads_readItems (es : List SchemaElement) :
    ∀ c ∈ (readItems ctx es).value.flatMap Item.components, ReadsInAll ctx es c := by
  induction es with
  | nil => exact List.forall_mem_nil _
  | cons e es ih =>
    rw [readItems, Noted.value_bind, Noted.value_bind, Noted.value_pure, List.flatMap_append]
    intro c hc
    rcases List.mem_append.1 hc with hc | hc
    · exact (reads_readItem ctx e c hc).head es
    · exact (ih c hc).tail e

private theorem elementsOfAll_candidates (es : List SchemaElement) :
    SchemaElement.elementsOfAll (candidates es) ⊆ SchemaElement.elementsOfAll es := by
  induction es with
  | nil => exact List.nil_subset _
  | cons e es ih =>
    rw [candidates, List.flatMap_cons, SchemaElement.elementsOfAll_append,
      SchemaElement.elementsOfAll]
    refine List.append_subset.2 ⟨List.subset_append_of_subset_left _ ?_,
      List.subset_append_of_subset_right _ ih⟩
    split
    · exact e.elementsOfAll_subset_elements
    · exact List.nil_subset _
    · rw [SchemaElement.elementsOfAll, SchemaElement.elementsOfAll, List.append_nil]
      exact List.Subset.refl _

theorem tagsOfAll_candidates (es : List SchemaElement) :
    SchemaElement.tagsOfAll (candidates es) ⊆ SchemaElement.tagsOfAll es := by
  rw [SchemaElement.tagsOfAll_eq, SchemaElement.tagsOfAll_eq]
  exact List.map_subset _ (elementsOfAll_candidates es)

/-- Every component of a schema is read from an element of its document. -/
theorem reads_readSchema (document : Option String) (root : SchemaElement) {c : Component}
    (h : c ∈ (readSchema document root).components) :
    ∃ e ∈ root.elements, ReadFrom (contextOf document root) e c := by
  obtain ⟨e, he, hc⟩ := reads_readItems (contextOf document root) (candidates root.children) c h
  exact ⟨e, root.elementsOfAll_subset_elements (elementsOfAll_candidates root.children he), hc⟩

/-- The locations of tags. -/
def Context.places (ctx : Context) (tags : List Markup.Tag) : List Location :=
  tags.map fun tag => ⟨ctx.document, tag.position⟩

theorem Context.location_mem (ctx : Context) (e : SchemaElement) :
    ctx.location e ∈ ctx.places e.tags :=
  List.mem_map_of_mem e.tag_mem_tags

end Written

end XsdCatalog
