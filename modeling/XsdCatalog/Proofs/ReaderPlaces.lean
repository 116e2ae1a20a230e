import XsdCatalog.Proofs.Relabelling
import XsdCatalog.Written.Reader

/-!
# Reading without places

The reader looks at the kinds, attributes, bindings and texts of elements. Their places only label
what it reads, so elements without places are read as the same declarations without places, and the
same is noted. The lemmas follow the functions of the reader; one that adds to what was read before
is given that without places as well.
-/

namespace XsdCatalog

/-- Names as they are, all at the start of their documents. -/
def Relabelling.unplaced : Relabelling where
  name := id
  place l := ⟨l.document, .start⟩
  expanded_name _ := rfl
  name_unbound := rfl

open Relabelling (unplaced)

@[simp] private theorem Relabelling.name_unplaced : unplaced.name = id := rfl

/-- The tag at the start of its document. -/
def Markup.Tag.unplaced (tag : Markup.Tag) : Markup.Tag :=
  { tag with position := .start }

namespace SchemaElement

mutual

/-- The element with it and all elements in it at the start of their document. -/
def unplaced : SchemaElement → SchemaElement
  | ⟨tag, text, children⟩ => ⟨tag.unplaced, text, unplacedAll children⟩

def unplacedAll : List SchemaElement → List SchemaElement
  | [] => []
  | e :: es => e.unplaced :: unplacedAll es

end

@[simp] theorem unplacedAll_eq (es : List SchemaElement) :
    unplacedAll es = es.map (·.unplaced) := by
  induction es with
  | nil => rfl
  | cons e es ih => exact congrArg (e.unplaced :: ·) ih

variable (e : SchemaElement)

@[simp] private theorem kind_unplaced : e.unplaced.kind = e.kind := by
  cases e
  rfl

@[simp] private theorem text_unplaced : e.unplaced.text = e.text := by
  cases e
  rfl

@[simp] private theorem attribute?_unplaced (name : String) :
    e.unplaced.attribute? name = e.attribute? name := by
  cases e
  rfl

@[simp] private theorem children_unplaced : e.unplaced.children = e.children.map (·.unplaced) := by
  cases e
  exact unplacedAll_eq _

private theorem unplaced_eq :
    e.unplaced = ⟨e.tag.unplaced, e.text, e.children.map (·.unplaced)⟩ := by
  obtain ⟨tag, text, children⟩ := e
  rw [unplaced, unplacedAll_eq]

@[simp] private theorem documentation_unplaced : e.unplaced.documentation = e.documentation := by
  simp only [documentation, children_unplaced, List.filter_map, List.flatMap_map, List.map_map,
    Function.comp_def, kind_unplaced, text_unplaced]

end SchemaElement

namespace Written

namespace Context

variable (ctx : Context) (e : SchemaElement)

@[simp] private theorem source_unplaced :
    some (ctx.location e.unplaced) = (some (ctx.location e)).map unplaced.place := by
  cases e
  rfl

private theorem warning_unplaced (message : String) :
    ctx.warning e.unplaced message = (ctx.warning e message).relabel unplaced := by
  cases e
  rfl

private theorem error_unplaced (message : String) :
    ctx.error e.unplaced message = (ctx.error e message).relabel unplaced := by
  cases e
  rfl

private theorem resolve_unplaced (text : String) :
    ctx.resolve e.unplaced text = (ctx.resolve e text).moved unplaced := by
  have hbindings : e.unplaced.tag.bindings = e.tag.bindings := by
    cases e
    rfl
  rw [resolve, resolve]
  simp only [hbindings, error_unplaced]
  split
  · split
    · rfl
    · split <;> rfl
  · rfl

private theorem resolveAttribute_unplaced (name : String) :
    ctx.resolveAttribute e.unplaced name = (ctx.resolveAttribute e name).moved unplaced := by
  rw [resolveAttribute, resolveAttribute, SchemaElement.attribute?_unplaced]
  cases e.attribute? name with
  | none => rfl
  | some text => simp only [resolve_unplaced, Noted.moved_map]

private theorem resolveAll_unplaced (texts : List String) :
    ctx.resolveAll e.unplaced texts = (ctx.resolveAll e texts).moved unplaced := by
  induction texts with
  | nil => rfl
  | cons text texts ih => simp [resolveAll, resolve_unplaced, ih]

private theorem localName_unplaced (qualified : Bool) :
    ctx.localName e.unplaced qualified = ctx.localName e qualified := by
  rw [localName, localName, SchemaElement.attribute?_unplaced, SchemaElement.attribute?_unplaced]

end Context

private theorem isTrue_unplaced (e : SchemaElement) (name : String) :
    isTrue e.unplaced name = isTrue e name := by
  rw [isTrue, isTrue, SchemaElement.attribute?_unplaced]

variable (ctx : Context)

private theorem readFacets_unplaced (es : List SchemaElement) :
    readFacets ctx (es.map (·.unplaced)) = (readFacets ctx es).map (·.relabel unplaced) := by
  rw [readFacets, readFacets, List.filter_map, List.map_map, List.map_map]
  simp only [Function.comp_def, SchemaElement.kind_unplaced]
  refine List.map_congr_left fun e _ => ?_
  simp [readFacet, Facet.relabel, isTrue_unplaced]

mutual

private theorem readSimpleType_unplaced (name : Option QName) (e : SchemaElement) :
    readSimpleType ctx name e.unplaced
      = (·.relabel unplaced) <$> (readSimpleType ctx name e).moved unplaced := by
  obtain ⟨tag, text, children⟩ := e
  have hvariety := readVariety_unplaced .unstated children
  have hdocumentation := SchemaElement.documentation_unplaced ⟨tag, text, children⟩
  have hsource := ctx.source_unplaced ⟨tag, text, children⟩
  rw [SchemaElement.unplaced, SchemaElement.unplacedAll_eq] at hdocumentation hsource ⊢
  rw [readSimpleType, readSimpleType]
  simp only [hdocumentation, hsource]
  rw [SimpleType.relabelVariety] at hvariety
  simp [hvariety, SimpleType.relabel]

private theorem readVariety_unplaced (before : Variety SimpleType) (es : List SchemaElement) :
    readVariety ctx (SimpleType.relabelVariety unplaced before) (es.map (·.unplaced))
      = SimpleType.relabelVariety unplaced <$> (readVariety ctx before es).moved unplaced := by
  cases es with
  | nil => rfl
  | cons e rest =>
    obtain ⟨tag, text, children⟩ := e
    have hkind := SchemaElement.kind_unplaced ⟨tag, text, children⟩
    have hattribute := ctx.resolveAttribute_unplaced ⟨tag, text, children⟩
    have hall := ctx.resolveAll_unplaced ⟨tag, text, children⟩
    have hvalue := SchemaElement.attribute?_unplaced ⟨tag, text, children⟩
    rw [List.map_cons, readVariety]
    rw [SchemaElement.unplaced, SchemaElement.unplacedAll_eq] at hkind hattribute hall hvalue ⊢
    rw [readVariety]
    simp only [hkind, hattribute, hall, hvalue]
    split
    · simp [← readVariety_unplaced _ rest, SimpleType.relabelVariety, readFacets_unplaced]
    · simp [← readVariety_unplaced _ rest, SimpleType.relabelVariety,
        readFirstSimple_unplaced children]
    · simp [← readVariety_unplaced _ rest, SimpleType.relabelVariety,
        readSimpleTypes_unplaced children]
    · exact readVariety_unplaced before rest

private theorem readFirstSimple_unplaced (es : List SchemaElement) :
    readFirstSimple ctx (es.map (·.unplaced))
      = Option.map (·.relabel unplaced) <$> (readFirstSimple ctx es).moved unplaced := by
  cases es with
  | nil => rfl
  | cons e rest =>
    rw [List.map_cons, readFirstSimple, readFirstSimple, e.kind_unplaced]
    split
    · simp [readSimpleType_unplaced none e]
    · exact readFirstSimple_unplaced rest

private theorem readSimpleTypes_unplaced (es : List SchemaElement) :
    readSimpleTypes ctx (es.map (·.unplaced))
      = List.map (·.relabel unplaced) <$> (readSimpleTypes ctx es).moved unplaced := by
  cases es with
  | nil => rfl
  | cons e rest =>
    have hrest := readSimpleTypes_unplaced rest
    rw [List.map_cons, readSimpleTypes, readSimpleTypes, e.kind_unplaced]
    split
    · simp [readSimpleType_unplaced none e, hrest]
    · exact hrest

end

private theorem readUsage_unplaced (e : SchemaElement) :
    readUsage ctx e.unplaced = (readUsage ctx e).moved unplaced := by
  rw [readUsage, readUsage, e.attribute?_unplaced]
  cases e.attribute? "use" with
  | none => rfl
  | some word =>
    simp only
    split
    · rfl
    · simp [ctx.warning_unplaced]

private theorem readAttribute_unplaced (name : Option QName) (e : SchemaElement) :
    readAttribute ctx name e.unplaced
      = (·.relabel unplaced) <$> (readAttribute ctx name e).moved unplaced := by
  simp [readAttribute, readUsage_unplaced, ctx.resolveAttribute_unplaced,
    readFirstSimple_unplaced, ctx.localName_unplaced, Attribute.relabel]

private theorem readWildcard_unplaced (e : SchemaElement) :
    readWildcard ctx e.unplaced
      = (·.relabel unplaced) <$> (readWildcard ctx e).moved unplaced := by
  simp [readWildcard, ctx.warning_unplaced, Wildcard.relabel]

private theorem readAttributeItem_unplaced (list : AttributeList) (e : SchemaElement) :
    readAttributeItem ctx (list.relabel unplaced) e.unplaced
      = (·.relabel unplaced) <$> (readAttributeItem ctx list e).moved unplaced := by
  rw [readAttributeItem, readAttributeItem, e.kind_unplaced]
  split
  · simp [readAttribute_unplaced, AttributeList.relabel, AttributeItem.relabel]
  · rw [ctx.resolveAttribute_unplaced, Noted.moved_bind, map_bind]
    refine bind_congr fun name => ?_
    cases name with
    | some name => simp [AttributeList.relabel, AttributeItem.relabel]
    | none => simp [ctx.warning_unplaced]
  · simp [readWildcard_unplaced, AttributeList.relabel]
  · rfl

private theorem readAttributeItems_unplaced (list : AttributeList) (es : List SchemaElement) :
    readAttributeItems ctx (list.relabel unplaced) (es.map (·.unplaced))
      = (·.relabel unplaced) <$> (readAttributeItems ctx list es).moved unplaced := by
  induction es generalizing list with
  | nil => rfl
  | cons e es ih => simp [readAttributeItems, readAttributeItem_unplaced, ih]

private theorem readAttributeGroup_unplaced (name : QName) (e : SchemaElement) :
    readAttributeGroup ctx name e.unplaced
      = (·.relabel unplaced) <$> (readAttributeGroup ctx name e).moved unplaced := by
  have hitems := readAttributeItems_unplaced ctx {} e.children
  rw [show AttributeList.relabel unplaced {} = {} from rfl] at hitems
  simp [readAttributeGroup, hitems, AttributeGroup.relabel]

/-- What the children of a complex type have said so far, without places. -/
def ComplexBody.relabel : ComplexBody → ComplexBody
  | ⟨mixed, derived, particle, attributes⟩ =>
    ⟨mixed, derived.map (·.relabel unplaced), particle.map (·.relabel unplaced),
      attributes.relabel unplaced⟩

private theorem elementOf_unplaced (name : Option QName) (e : SchemaElement)
    (readType : Noted (Option (TypeDefinition Particle))) :
    elementOf ctx name e.unplaced (Option.map (·.relabel unplaced) <$> readType.moved unplaced)
      = (·.relabel unplaced) <$> (elementOf ctx name e readType).moved unplaced := by
  simp [elementOf, ctx.resolveAttribute_unplaced, ctx.localName_unplaced, ctx.warning_unplaced,
    isTrue_unplaced, Element.relabel]

private theorem complexTypeOf_unplaced (name : Option QName) (e : SchemaElement)
    (body : ComplexBody) : complexTypeOf ctx name e.unplaced body.relabel
      = (complexTypeOf ctx name e body).relabel unplaced := by
  obtain ⟨mixed, derived, particle, attributes⟩ := body
  cases derived <;>
    simp [complexTypeOf, isTrue_unplaced, ComplexBody.relabel, ComplexType.relabel,
      ComplexContent.relabel]

private theorem particleOf_unplaced (e : SchemaElement) (term : Term Particle) :
    particleOf ctx e.unplaced (term.relabel unplaced)
      = (particleOf ctx e term).relabel unplaced := by
  simp [particleOf, Particle.relabel]

mutual

private theorem readFirstType_unplaced (es : List SchemaElement) :
    readFirstType ctx (es.map (·.unplaced))
      = Option.map (·.relabel unplaced) <$> (readFirstType ctx es).moved unplaced := by
  cases es with
  | nil => rfl
  | cons e rest =>
    obtain ⟨tag, text, children⟩ := e
    have he := SchemaElement.unplaced_eq ⟨tag, text, children⟩
    have hkind := SchemaElement.kind_unplaced ⟨tag, text, children⟩
    have hmixed := isTrue_unplaced ⟨tag, text, children⟩
    have hsimple := readSimpleType_unplaced ctx none ⟨tag, text, children⟩
    have hcomplex := complexTypeOf_unplaced ctx none ⟨tag, text, children⟩
    rw [List.map_cons, he, readFirstType, readFirstType]
    rw [he] at hkind hmixed hsimple hcomplex
    simp only [hkind, hmixed]
    split
    · simp [hsimple, TypeDefinition.relabel]
    · split
      · have hbody := readComplexBody_unplaced
          { mixed := isTrue ⟨tag, text, children⟩ "mixed" } children
        have hempty (mixed : Bool) : ComplexBody.relabel { mixed } = { mixed } := rfl
        rw [hempty] at hbody
        simp [hbody, hcomplex, TypeDefinition.relabel]
      · exact readFirstType_unplaced rest

private theorem readComplexBody_unplaced (body : ComplexBody) (es : List SchemaElement) :
    readComplexBody ctx body.relabel (es.map (·.unplaced))
      = (·.relabel) <$> (readComplexBody ctx body es).moved unplaced := by
  cases es with
  | nil => rfl
  | cons e rest =>
    obtain ⟨tag, text, children⟩ := e
    have he := SchemaElement.unplaced_eq ⟨tag, text, children⟩
    have hkind := SchemaElement.kind_unplaced ⟨tag, text, children⟩
    have hmixed := isTrue_unplaced ⟨tag, text, children⟩
    have hderivation (withParticle : Bool) :=
      readDerivation_unplaced ⟨tag, text, children⟩ withParticle children
    have hparticle := readParticle_unplaced ⟨tag, text, children⟩
    have hitem := readAttributeItem_unplaced ctx body.attributes ⟨tag, text, children⟩
    have hrest (body : ComplexBody) := readComplexBody_unplaced body rest
    rw [List.map_cons, he, readComplexBody, readComplexBody]
    rw [he] at hkind hmixed hderivation hparticle hitem
    simp only [hkind, hmixed]
    obtain ⟨mixed, derived, particle, attributes⟩ := body
    split
    · simp only [hderivation, Noted.moved_bind, map_bind, bind_map_left, ← hrest]
      simp [ComplexBody.relabel, ComplexContent.relabel, Function.comp_def]
    · split
      · simp only [hderivation, Noted.moved_bind, map_bind, bind_map_left, ← hrest]
        simp [ComplexBody.relabel, ComplexContent.relabel, Function.comp_def]
      · split
        · simp only [hparticle, Noted.moved_bind, map_bind, bind_map_left, ← hrest]
          rfl
        · split
          · have hattributes : (ComplexBody.mk mixed derived particle attributes).relabel.attributes
                = attributes.relabel unplaced := rfl
            simp only [hattributes, hitem, Noted.moved_bind, map_bind, bind_map_left, ← hrest]
            rfl
          · exact hrest ⟨mixed, derived, particle, attributes⟩

private theorem readDerivation_unplaced (owner : SchemaElement) (withParticle : Bool)
    (es : List SchemaElement) :
    readDerivation ctx owner.unplaced withParticle (es.map (·.unplaced))
      = Option.map (·.relabel unplaced)
          <$> (readDerivation ctx owner withParticle es).moved unplaced := by
  cases es with
  | nil => simp [readDerivation, ctx.warning_unplaced]
  | cons e rest =>
    obtain ⟨tag, text, children⟩ := e
    have he := SchemaElement.unplaced_eq ⟨tag, text, children⟩
    have hkind := SchemaElement.kind_unplaced ⟨tag, text, children⟩
    have hbase := ctx.resolveAttribute_unplaced ⟨tag, text, children⟩ "base"
    rw [List.map_cons, he, readDerivation, readDerivation]
    rw [he] at hkind hbase
    simp only [hkind, hbase]
    split
    · -- the children are read into a derivation that has no places yet
      have hempty (method : DerivationMethod) (base : Option QName) :
          Derivation.relabel unplaced { method, base } = { method, base } := by
        rw [Derivation.relabel_eq, Relabelling.name_unplaced, Option.map_id]
        rfl
      have hderived (method : DerivationMethod) (base : Option QName) :=
        readDerived_unplaced withParticle { method, base } children
      simp only [hempty] at hderived
      simp [hderived]
    · exact readDerivation_unplaced owner withParticle rest

private theorem readDerived_unplaced (withParticle : Bool) (d : Derivation Particle)
    (es : List SchemaElement) :
    readDerived ctx withParticle (d.relabel unplaced) (es.map (·.unplaced))
      = (·.relabel unplaced) <$> (readDerived ctx withParticle d es).moved unplaced := by
  cases es with
  | nil => rfl
  | cons e rest =>
    have hrest (d : Derivation Particle) := readDerived_unplaced withParticle d rest
    rw [List.map_cons, readDerived, readDerived, e.kind_unplaced]
    obtain ⟨method, base, particle, attributes⟩ := d
    split
    · simp [readParticle_unplaced e, ← hrest, Derivation.relabel]
    · split
      · have hitem := readAttributeItem_unplaced ctx attributes e
        simp [← hrest, Derivation.relabel, hitem]
      · exact hrest ⟨method, base, particle, attributes⟩

private theorem readParticle_unplaced (e : SchemaElement) :
    readParticle ctx e.unplaced
      = Option.map (·.relabel unplaced) <$> (readParticle ctx e).moved unplaced := by
  obtain ⟨tag, text, children⟩ := e
  have he := SchemaElement.unplaced_eq ⟨tag, text, children⟩
  have hkind := SchemaElement.kind_unplaced ⟨tag, text, children⟩
  have hparticle := particleOf_unplaced ctx ⟨tag, text, children⟩
  have hwildcard := readWildcard_unplaced ctx ⟨tag, text, children⟩
  have href := ctx.resolveAttribute_unplaced ⟨tag, text, children⟩ "ref"
  have hwarning := ctx.warning_unplaced ⟨tag, text, children⟩
  rw [he, readParticle, readParticle]
  rw [he] at hkind hparticle hwildcard href hwarning
  simp only [hkind]
  split
  · have helement := elementOf_unplaced ctx none ⟨tag, text, children⟩ (readFirstType ctx children)
    rw [he, ← readFirstType_unplaced children] at helement
    simp [helement, ← hparticle, Term.relabel]
  · simp [hwildcard, ← hparticle, Term.relabel]
  · rw [href, Noted.moved_bind, map_bind]
    refine bind_congr fun name => ?_
    cases name with
    | some name => simp [← hparticle, Term.relabel]
    | none => simp [hwarning]
  · simp [readParticles_unplaced children, ← hparticle, Term.relabel]
  · simp [readParticles_unplaced children, ← hparticle, Term.relabel]
  · simp [readParticles_unplaced children, ← hparticle, Term.relabel]
  · rfl

private theorem readParticles_unplaced (es : List SchemaElement) :
    readParticles ctx (es.map (·.unplaced))
      = List.map (·.relabel unplaced) <$> (readParticles ctx es).moved unplaced := by
  cases es with
  | nil => rfl
  | cons e rest =>
    simp [readParticles, readParticle_unplaced e, readParticles_unplaced rest, Option.toList_map]

end

private theorem readElement_unplaced (name : Option QName) (e : SchemaElement) :
    readElement ctx name e.unplaced
      = (·.relabel unplaced) <$> (readElement ctx name e).moved unplaced := by
  rw [readElement, readElement, e.children_unplaced, readFirstType_unplaced, elementOf_unplaced]

private theorem readComplexType_unplaced (name : Option QName) (e : SchemaElement) :
    readComplexType ctx name e.unplaced
      = (·.relabel unplaced) <$> (readComplexType ctx name e).moved unplaced := by
  have hbody := readComplexBody_unplaced ctx { mixed := isTrue e "mixed" } e.children
  rw [show ComplexBody.relabel { mixed := isTrue e "mixed" } = { mixed := isTrue e "mixed" }
    from rfl] at hbody
  simp [readComplexType, isTrue_unplaced, hbody, complexTypeOf_unplaced]

private theorem readFirstModel_unplaced (es : List SchemaElement) :
    readFirstModel ctx (es.map (·.unplaced))
      = Option.map (·.relabel unplaced) <$> (readFirstModel ctx es).moved unplaced := by
  induction es with
  | nil => rfl
  | cons e es ih =>
    rw [List.map_cons, readFirstModel, readFirstModel, e.kind_unplaced]
    split
    · exact readParticle_unplaced ctx e
    · exact ih

private theorem readGroup_unplaced (name : QName) (e : SchemaElement) :
    readGroup ctx name e.unplaced
      = (·.relabel unplaced) <$> (readGroup ctx name e).moved unplaced := by
  simp [readGroup, readFirstModel_unplaced, Group.relabel]

private theorem readNamed_unplaced (name : QName) (e : SchemaElement) :
    readNamed ctx name e.unplaced
      = (·.relabel unplaced) <$> (readNamed ctx name e).moved unplaced := by
  rw [readNamed, readNamed, e.kind_unplaced]
  split
  · simp [readElement_unplaced, Item.relabel]
  · simp [readSimpleType_unplaced, Item.relabel]
  · simp [readComplexType_unplaced, Item.relabel]
  · simp [readAttribute_unplaced, Item.relabel]
  · simp [readGroup_unplaced, Item.relabel]
  · simp [readAttributeGroup_unplaced, Item.relabel]

private theorem readItem_unplaced (e : SchemaElement) :
    readItem ctx e.unplaced
      = Option.map (·.relabel unplaced) <$> (readItem ctx e).moved unplaced := by
  rw [readItem, readItem, e.kind_unplaced, e.attribute?_unplaced]
  split
  · rfl
  · split
    · cases e.attribute? "name" with
      | some name => simp [readNamed_unplaced]
      | none => simp [ctx.error_unplaced]
    · simp [ctx.warning_unplaced]

private theorem readItems_unplaced (es : List SchemaElement) :
    readItems ctx (es.map (·.unplaced))
      = List.map (·.relabel unplaced) <$> (readItems ctx es).moved unplaced := by
  induction es with
  | nil => rfl
  | cons e es ih => simp [readItems, readItem_unplaced, ih, Option.toList_map]

private theorem reference?_unplaced (e : SchemaElement) : reference? e.unplaced = reference? e := by
  simp only [reference?, SchemaElement.kind_unplaced, SchemaElement.attribute?_unplaced]

private theorem candidates_unplaced (es : List SchemaElement) :
    candidates (es.map (·.unplaced)) = (candidates es).map (·.unplaced) :=
  flatMap_relabelled (fun e => by
    simp only [reference?_unplaced, SchemaElement.children_unplaced]
    cases reference? e with
    | none => rfl
    | some reference => cases reference <;> rfl) es

private theorem contextOf_unplaced (document : Option String) (root : SchemaElement) :
    contextOf document root.unplaced = contextOf document root := by
  simp only [contextOf, SchemaElement.attribute?_unplaced]

/-- A schema is read alike wherever its elements stand. -/
theorem readSchema_unplaced (document : Option String) (root : SchemaElement) :
    readSchema document root.unplaced = (readSchema document root).relabel unplaced := by
  have hitems := readItems_unplaced (contextOf document root) (candidates root.children)
  have hbindings : root.unplaced.tag.bindings = root.tag.bindings := by
    cases root
    rfl
  have hreferences : (root.children.map (·.unplaced)).filterMap reference?
      = root.children.filterMap reference? := by
    rw [List.filterMap_map]
    exact List.filterMap_congr fun e _ => reference?_unplaced e
  simp [readSchema, Schema.relabel, contextOf_unplaced, candidates_unplaced, hitems, hbindings,
    hreferences]

end Written

end XsdCatalog
