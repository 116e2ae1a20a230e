import XsdCatalog.Proofs.Components

/-!
# What the reader looks up

Reading an element looks up the names in some of its attributes and reads some of its children. In
what order, and which they are, is a matter of what the element is read as. Nothing but these names
leads to an error, and whatever is noted has the place of an element that was read.
-/

namespace XsdCatalog.Written

/-- The namespace that a qualifier stands for where qualifiers are bound in this way. -/
def spaceOf? (bound : String → Option String) (qualifier : String) : Option String :=
  if qualifier = "xml" then some xmlSpace else if qualifier = "" then none else bound qualifier

/-- The name that a text spells. The qualifier is what stands in front of the first colon. -/
def nameOf (bound : String → Option String) (text : String) : QName :=
  match Text.cut? ':' (Text.trim text) with
  | some (qualifier, localName) =>
    { space := (spaceOf? bound qualifier).filter (· != "")
      localName
      qualifier := if qualifier = "" then none else some qualifier }
  | none => { space := (bound "").filter (· != ""), localName := Text.trim text }

/-- The qualifier of a text if it stands for no namespace. -/
def undeclared? (bound : String → Option String) (text : String) : Option String :=
  (Text.cut? ':' (Text.trim text)).bind fun (qualifier, _) =>
    if spaceOf? bound qualifier = none then some qualifier else none

/-- The error about an undeclared qualifier. -/
def Context.unknownPrefix (ctx : Context) (e : SchemaElement) (text qualifier : String) :
    Diagnostic :=
  ctx.error e ("Unknown prefix '" ++ qualifier ++ "' in '" ++ Text.trim text ++ "'")

theorem Context.resolve_eq (ctx : Context) (e : SchemaElement) (text : String) :
    let bound := Markup.Tag.lookup? e.tag.bindings
    (ctx.resolve e text).value = nameOf bound text ∧
      (ctx.resolve e text).notes
        = ((undeclared? bound text).map (ctx.unknownPrefix e text)).toList := by
  intro bound
  rw [resolve, nameOf, undeclared?]
  cases hcut : Text.cut? ':' (Text.trim text) with
  | none =>
    refine ⟨?_, rfl⟩
    show QName.make (some ((bound "").getD "")) (Text.trim text) = _
    cases bound "" <;> rfl
  | some p =>
    obtain ⟨qualifier, localName⟩ := p
    by_cases hxml : qualifier = "xml"
    · subst hxml
      exact ⟨rfl, rfl⟩
    · simp only [hxml, if_false, spaceOf?, Option.bind_some]
      by_cases hempty : qualifier = ""
      · subst hempty
        exact ⟨rfl, rfl⟩
      · simp only [hempty, if_false]
        cases hbound : bound qualifier with
        | none => simp [bound, hbound, QName.unbound, QName.make, QName.withQualifier, hempty,
            unknownPrefix, Noted.note]
        | some space => simp [bound, hbound, QName.inSpace, QName.make, QName.withQualifier, hempty]

/-- The names in an attribute of an element, which belong to what `holder` declares. -/
structure Lookup where
  holder : SchemaElement
  owner : SchemaElement
  «attribute» : String

namespace Lookup

/-- The texts that spell names. Only member types are several. -/
def texts (l : Lookup) : List String :=
  if l.attribute = "memberTypes" then Text.words ((l.owner.attribute? l.attribute).getD "")
  else (l.owner.attribute? l.attribute).toList

/-- The binding of qualifiers at the element with the attribute. -/
def bound (l : Lookup) : String → Option String :=
  Markup.Tag.lookup? l.owner.tag.bindings

def errors (ctx : Context) (l : Lookup) : List Diagnostic :=
  l.texts.filterMap fun text => (undeclared? l.bound text).map (ctx.unknownPrefix l.owner text)

end Lookup

/-- What an element is read as. -/
inductive Role
  | element
  | attribute
  | simpleType
  | restriction
  | list
  | union
  | complexType
  | content (withParticle : Bool)
  | derivation (withParticle : Bool)
  | model
  | group
  | groupReference
  | attributeGroup
  | attributeGroupReference
deriving DecidableEq, Repr

namespace Role

/-- The attributes with names that are looked up before the children are read. -/
def attributes : Role → List String
  | element => ["ref", "type"]
  | .attribute => ["ref", "type"]
  | restriction => ["base"]
  | list => ["itemType"]
  | union => ["memberTypes"]
  | derivation _ => ["base"]
  | groupReference => ["ref"]
  | attributeGroupReference => ["ref"]
  | _ => []

/-- The attributes with names that are looked up behind the children. -/
def lastAttributes : Role → List String
  | element => ["substitutionGroup"]
  | _ => []

/-- Model groups and what they are read as. -/
def models : List (String × Role) :=
  [("sequence", model), ("choice", model), ("all", model)]

/-- What belongs to a list of attributes, and what it is read as. -/
def attributeItems : List (String × Role) :=
  [("attribute", .attribute), ("attributeGroup", attributeGroupReference)]

/-- The children that are read, by their kinds, and what they are read as. -/
def parts : Role → List (String × Role)
  | element => [("simpleType", simpleType), ("complexType", complexType)]
  | .attribute => [("simpleType", simpleType)]
  | simpleType => [("restriction", restriction), ("list", list), ("union", union)]
  | list => [("simpleType", simpleType)]
  | union => [("simpleType", simpleType)]
  | complexType =>
    [("simpleContent", content false), ("complexContent", content true)] ++ models
      ++ [("group", groupReference)] ++ attributeItems
  | content p => [("extension", derivation p), ("restriction", derivation p)]
  | derivation p =>
    (if p then models ++ [("group", groupReference)] else []) ++ attributeItems
  | model => [("element", element), ("group", groupReference)] ++ models
  | group => models
  | attributeGroup => attributeItems
  | restriction => []
  | groupReference => []
  | attributeGroupReference => []

/-- Only the first of these children is read. -/
def readsFirst : Role → Bool
  | element | .attribute | list | content _ | group => true
  | _ => false

/-- The names belong to what the element itself declares. -/
def holds : Role → Bool
  | element | .attribute | simpleType | complexType | group | groupReference
  | attributeGroup => true
  | _ => false

end Role

theorem Role.lookup_content (withParticle : Bool) (kind : String) :
    (content withParticle).parts.lookup kind
      = if kind = "extension" ∨ kind = "restriction" then some (derivation withParticle)
        else none := by
  split
  · next h => rcases h with rfl | rfl <;> rfl
  · next h =>
    rw [not_or] at h
    rw [List.lookup_eq_none_iff]
    simp only [parts, List.forall_mem_cons, bne_iff_ne]
    exact ⟨h.1, h.2, List.forall_mem_nil _⟩

theorem Role.lookup_models (kind : String) :
    models.lookup kind
      = if kind = "sequence" ∨ kind = "choice" ∨ kind = "all" then some model else none := by
  split
  · next h => rcases h with rfl | rfl | rfl <;> rfl
  · next h =>
    rw [not_or, not_or] at h
    rw [List.lookup_eq_none_iff]
    simp only [models, List.forall_mem_cons, bne_iff_ne]
    exact ⟨h.1, h.2.1, h.2.2, List.forall_mem_nil _⟩

theorem Role.lookup_simpleType_of_ne {kind : String} (h : kind ≠ "simpleType") :
    [("simpleType", simpleType)].lookup kind = none := by
  rw [List.lookup_eq_none_iff, List.forall_mem_singleton, bne_iff_ne]
  exact h

theorem Role.lookup_element_of_ne {kind : String} (hsimple : kind ≠ "simpleType")
    (hcomplex : kind ≠ "complexType") : element.parts.lookup kind = none := by
  rw [List.lookup_eq_none_iff]
  simp only [parts, List.forall_mem_cons, bne_iff_ne]
  exact ⟨hsimple, hcomplex, List.forall_mem_nil _⟩

mutual

/-- What is looked up when an element inside a declaration is read, in this order. -/
def visits (role : Role) (holder : SchemaElement) : SchemaElement → List Lookup
  | ⟨tag, text, children⟩ =>
    let e : SchemaElement := ⟨tag, text, children⟩
    let holder := if role.holds then e else holder
    role.attributes.map (⟨holder, e, ·⟩) ++ visitsIn role holder children
      ++ role.lastAttributes.map (⟨holder, e, ·⟩)

/-- What is looked up in children. -/
def visitsIn (role : Role) (holder : SchemaElement) : List SchemaElement → List Lookup
  | [] => []
  | e :: rest =>
    match role.parts.lookup e.kind with
    | some part =>
      visits part holder e ++ if role.readsFirst then [] else visitsIn role holder rest
    | none => visitsIn role holder rest

end

theorem visits_eq (role : Role) (holder e : SchemaElement) :
    visits role holder e
      = role.attributes.map (⟨if role.holds then e else holder, e, ·⟩)
        ++ visitsIn role (if role.holds then e else holder) e.children
        ++ role.lastAttributes.map (⟨if role.holds then e else holder, e, ·⟩) := by
  obtain ⟨tag, text, children⟩ := e
  rw [visits]

/-- What is looked up in a child, if it is one of the parts. -/
def visitsPart (parts : List (String × Role)) (holder e : SchemaElement) : List Lookup :=
  match parts.lookup e.kind with
  | some part => visits part holder e
  | none => []

section Parts

variable {role part : Role} {e : SchemaElement} {holder : SchemaElement}
  {rest : List SchemaElement} {parts parts' : List (String × Role)}

theorem visitsPart_of_some (h : parts.lookup e.kind = some part) :
    visitsPart parts holder e = visits part holder e := by
  rw [visitsPart, h]

theorem visitsPart_of_none (h : parts.lookup e.kind = none) : visitsPart parts holder e = [] := by
  rw [visitsPart, h]

theorem visitsPart_congr (h : parts.lookup e.kind = parts'.lookup e.kind) :
    visitsPart parts holder e = visitsPart parts' holder e := by
  rw [visitsPart, h, visitsPart]

theorem visitsIn_cons (hall : role.readsFirst = false) :
    visitsIn role holder (e :: rest)
      = visitsPart role.parts holder e ++ visitsIn role holder rest := by
  rw [visitsIn, visitsPart]
  cases role.parts.lookup e.kind with
  | none => rfl
  | some part => simp only [hall, Bool.false_eq_true, if_false]

theorem visitsIn_of_none (h : role.parts.lookup e.kind = none) :
    visitsIn role holder (e :: rest) = visitsIn role holder rest := by
  rw [visitsIn, h]

theorem visitsIn_of_first (hfirst : role.readsFirst = true)
    (h : role.parts.lookup e.kind = some part) :
    visitsIn role holder (e :: rest) = visits part holder e := by
  rw [visitsIn, h]
  simp only [hfirst, if_true, List.append_nil]

/-- Without parts nothing is looked up in children. -/
theorem visitsIn_of_nil (h : role.parts = []) (es : List SchemaElement) :
    visitsIn role holder es = [] := by
  induction es with
  | nil => rfl
  | cons e es ih => rw [visitsIn_of_none (by rw [h]; rfl), ih]

end Parts

/-- What a computation notes: the errors of what it looks up, and everything at places of these
tags. -/
structure Logs {α : Type} (ctx : Context) (x : Noted α) (met : List Lookup)
    (tags : List Markup.Tag) : Prop where
  errors : x.notes.filter (·.severity = .error) = met.flatMap (·.errors ctx)
  places : ∀ d ∈ x.notes, d.location ∈ (ctx.places tags).map some

namespace Logs

variable {α β : Type} {ctx : Context} {x : Noted α} {met met' : List Lookup}
  {tags tags' : List Markup.Tag}

protected theorem pure (a : α) : Logs ctx (pure a : Noted α) [] tags :=
  ⟨rfl, List.forall_mem_nil _⟩

protected theorem bind (hx : Logs ctx x met tags) {f : α → Noted β}
    (hf : ∀ a, Logs ctx (f a) met' tags) : Logs ctx (x >>= f) (met ++ met') tags where
  errors := by
    rw [Noted.notes_bind, List.filter_append, hx.errors, (hf x.value).errors, List.flatMap_append]
  places := by
    rw [Noted.notes_bind]
    exact List.forall_mem_append.2 ⟨hx.places, (hf x.value).places⟩

/-- A step that looks up nothing. -/
theorem andThen (hx : Logs ctx x [] tags) {f : α → Noted β} (hf : ∀ a, Logs ctx (f a) met tags) :
    Logs ctx (x >>= f) met tags :=
  hx.bind hf

/-- A last step that looks up nothing. -/
theorem last (hx : Logs ctx x met tags) {f : α → Noted β} (hf : ∀ a, Logs ctx (f a) [] tags) :
    Logs ctx (x >>= f) met tags :=
  List.append_nil met ▸ hx.bind hf

protected theorem map (hx : Logs ctx x met tags) (f : α → β) : Logs ctx (f <$> x) met tags :=
  ⟨hx.errors, hx.places⟩

private theorem mono (hx : Logs ctx x met tags) (h : tags ⊆ tags') : Logs ctx x met tags' where
  errors := hx.errors
  places d hd := List.map_subset _ (List.map_subset _ h) (hx.places d hd)

private theorem congr (hx : Logs ctx x met tags) (h : met = met') : Logs ctx x met' tags :=
  h ▸ hx

end Logs

variable (ctx : Context)

private theorem Context.some_location_mem (e : SchemaElement) :
    some (ctx.location e) ∈ (ctx.places e.tags).map some :=
  List.mem_map_of_mem (ctx.location_mem e)

private theorem logs_warning (e : SchemaElement) (message : String) :
    Logs ctx (Noted.note (ctx.warning e message)) [] e.tags where
  errors := rfl
  places := List.forall_mem_singleton.2 (ctx.some_location_mem e)

private theorem logs_warningIf (condition : Bool) (e : SchemaElement) (message : String) :
    Logs ctx (Noted.noteIf condition (ctx.warning e message)) [] e.tags := by
  cases condition with
  | false => exact .pure ()
  | true => exact logs_warning ctx e message

private theorem notes_resolveAll (e : SchemaElement) (texts : List String) :
    (ctx.resolveAll e texts).notes = texts.filterMap fun text =>
      (undeclared? (Markup.Tag.lookup? e.tag.bindings) text).map (ctx.unknownPrefix e text) := by
  induction texts with
  | nil => rfl
  | cons text texts ih =>
    rw [Context.resolveAll, Noted.notes_bind, Noted.notes_bind, ih, Noted.notes_pure,
      List.append_nil, (ctx.resolve_eq e text).2, List.filterMap_cons]
    cases undeclared? (Markup.Tag.lookup? e.tag.bindings) text <;> rfl

/-- What is noted about names in an attribute are their errors. -/
theorem logs_of_errors {α : Type} {x : Noted α} {l : Lookup} (h : x.notes = l.errors ctx) :
    Logs ctx x [l] l.owner.tags where
  errors := by
    rw [List.flatMap_singleton, h]
    refine List.filter_eq_self.2 fun d hd => ?_
    obtain ⟨text, -, hd⟩ := List.mem_filterMap.1 hd
    obtain ⟨qualifier, -, rfl⟩ := Option.map_eq_some_iff.1 hd
    rfl
  places d hd := by
    rw [h] at hd
    obtain ⟨text, -, hd⟩ := List.mem_filterMap.1 hd
    obtain ⟨qualifier, -, rfl⟩ := Option.map_eq_some_iff.1 hd
    exact ctx.some_location_mem l.owner

private theorem logs_resolveAttribute (holder e : SchemaElement) {name : String}
    (h : name ≠ "memberTypes") :
    Logs ctx (ctx.resolveAttribute e name) [⟨holder, e, name⟩] e.tags := by
  refine logs_of_errors ctx (l := ⟨holder, e, name⟩) ?_
  rw [Context.resolveAttribute, Lookup.errors, Lookup.texts, if_neg h]
  cases e.attribute? name with
  | none => rfl
  | some text =>
    rw [Noted.notes_map, (ctx.resolve_eq e text).2]
    simp only [Option.toList_some, List.filterMap_cons, List.filterMap_nil, Lookup.bound]
    cases undeclared? (Markup.Tag.lookup? e.tag.bindings) text <;> rfl

private theorem logs_memberTypes (holder e : SchemaElement) :
    Logs ctx (ctx.resolveAll e (Text.words ((e.attribute? "memberTypes").getD "")))
      [⟨holder, e, "memberTypes"⟩] e.tags := by
  refine logs_of_errors ctx (l := ⟨holder, e, "memberTypes"⟩) ?_
  rw [notes_resolveAll, Lookup.errors, Lookup.texts, if_pos rfl]
  rfl

theorem tags_subset_cons (e : SchemaElement) (rest : List SchemaElement) :
    e.tags ⊆ SchemaElement.tagsOfAll (e :: rest) :=
  List.subset_append_left _ _

theorem tagsOfAll_subset_cons (e : SchemaElement) (rest : List SchemaElement) :
    SchemaElement.tagsOfAll rest ⊆ SchemaElement.tagsOfAll (e :: rest) :=
  List.subset_append_right _ _

section Visits

variable (holder e : SchemaElement)

theorem visits_restriction : visits .restriction holder e = [⟨holder, e, "base"⟩] := by
  rw [visits_eq, visitsIn_of_nil rfl]
  rfl

theorem visits_groupReference : visits .groupReference holder e = [⟨e, e, "ref"⟩] := by
  rw [visits_eq, visitsIn_of_nil rfl]
  rfl

theorem visits_attributeGroupReference :
    visits .attributeGroupReference holder e = [⟨holder, e, "ref"⟩] := by
  rw [visits_eq, visitsIn_of_nil rfl]
  rfl

/-- What is looked up first comes in front. -/
theorem visits_of_first {role : Role} (h : role.lastAttributes = []) :
    visits role holder e
      = role.attributes.map (⟨if role.holds then e else holder, e, ·⟩)
        ++ visitsIn role (if role.holds then e else holder) e.children := by
  rw [visits_eq, h, List.map_nil, List.append_nil]

end Visits

mutual

private theorem logs_readSimpleType (name : Option QName) (holder e : SchemaElement) :
    Logs ctx (readSimpleType ctx name e) (visits .simpleType holder e) e.tags := by
  obtain ⟨tag, text, children⟩ := e
  let e : SchemaElement := ⟨tag, text, children⟩
  have h := (logs_readVariety .unstated e children).mono e.tagsOfAll_subset_tags
  rw [readSimpleType, visits_of_first holder e rfl]
  exact h.last fun _ => .pure _
termination_by structural e

private theorem logs_readVariety (before : Variety SimpleType) (holder : SchemaElement)
    (es : List SchemaElement) :
    Logs ctx (readVariety ctx before es) (visitsIn .simpleType holder es)
      (SchemaElement.tagsOfAll es) := by
  cases es with
  | nil => exact .pure _
  | cons e rest =>
    obtain ⟨tag, text, children⟩ := e
    let e : SchemaElement := ⟨tag, text, children⟩
    have htags := tags_subset_cons e rest
    have hchildren := List.Subset.trans e.tagsOfAll_subset_tags htags
    have hrest (new : Variety SimpleType) := (logs_readVariety new holder rest).mono
      (tagsOfAll_subset_cons e rest)
    rw [readVariety, visitsIn_cons rfl]
    split
    · next hkind =>
      have hbase := (logs_resolveAttribute ctx holder e (by decide : "base" ≠ "memberTypes")).mono
        htags
      rw [visitsPart_of_some (by rw [hkind]; rfl), visits_restriction]
      exact hbase.bind fun _ => hrest _
    · next hkind =>
      have hitem := (logs_resolveAttribute ctx holder e
        (by decide : "itemType" ≠ "memberTypes")).mono htags
      have hanonymous := (logs_readFirstSimple .list rfl rfl holder children).mono hchildren
      rw [visitsPart_of_some (by rw [hkind]; rfl), visits_of_first holder e rfl, List.append_assoc]
      exact hitem.bind fun _ => hanonymous.bind fun _ => hrest _
    · next hkind =>
      have hmembers := (logs_memberTypes ctx holder e).mono htags
      have hanonymous := (logs_readSimpleTypes holder children).mono hchildren
      rw [visitsPart_of_some (by rw [hkind]; rfl), visits_of_first holder e rfl, List.append_assoc]
      exact hmembers.bind fun _ => hanonymous.bind fun _ => hrest _
    · next hrestriction hlist hunion =>
      rw [visitsPart_of_none]
      · exact hrest before
      · rw [List.lookup_eq_none_iff]
        simp only [Role.parts, List.forall_mem_cons, bne_iff_ne]
        exact ⟨hrestriction, hlist, hunion, List.forall_mem_nil _⟩
termination_by structural es

private theorem logs_readFirstSimple (role : Role)
    (hparts : role.parts = [("simpleType", .simpleType)])
    (hfirst : role.readsFirst = true) (holder : SchemaElement) (es : List SchemaElement) :
    Logs ctx (readFirstSimple ctx es) (visitsIn role holder es)
      (SchemaElement.tagsOfAll es) := by
  cases es with
  | nil => exact .pure _
  | cons e rest =>
    rw [readFirstSimple]
    split
    · next hkind =>
      have he := (logs_readSimpleType none holder e).mono (tags_subset_cons e rest)
      rw [visitsIn_of_first hfirst (by rw [hparts, hkind]; rfl)]
      exact he.map _
    · next hkind =>
      have hrest := (logs_readFirstSimple role hparts hfirst holder rest).mono
        (tagsOfAll_subset_cons e rest)
      rw [visitsIn_of_none (hparts ▸ Role.lookup_simpleType_of_ne hkind)]
      exact hrest
termination_by structural es

private theorem logs_readSimpleTypes (holder : SchemaElement) (es : List SchemaElement) :
    Logs ctx (readSimpleTypes ctx es) (visitsIn .union holder es)
      (SchemaElement.tagsOfAll es) := by
  cases es with
  | nil => exact .pure _
  | cons e rest =>
    have hrest := (logs_readSimpleTypes holder rest).mono (tagsOfAll_subset_cons e rest)
    rw [readSimpleTypes, visitsIn_cons rfl]
    split
    · next hkind =>
      have he := (logs_readSimpleType none holder e).mono (tags_subset_cons e rest)
      rw [visitsPart_of_some (by rw [hkind]; rfl)]
      exact he.bind fun _ => hrest.last fun _ => .pure _
    · next hkind =>
      have hnone : visitsPart Role.union.parts holder e = [] :=
        visitsPart_of_none (Role.lookup_simpleType_of_ne hkind)
      rw [hnone]
      exact hrest
termination_by structural es

end

private theorem logs_readUsage (e : SchemaElement) : Logs ctx (readUsage ctx e) [] e.tags := by
  rw [readUsage]
  split
  · exact .pure _
  · split
    · exact .pure _
    · exact (logs_warning ctx e _).last fun _ => .pure _

private theorem logs_readAttribute (name : Option QName) (holder e : SchemaElement) :
    Logs ctx (readAttribute ctx name e) (visits .attribute holder e) e.tags := by
  have hreference := logs_resolveAttribute ctx e e (by decide : "ref" ≠ "memberTypes")
  have htype := logs_resolveAttribute ctx e e (by decide : "type" ≠ "memberTypes")
  have hanonymous := (logs_readFirstSimple ctx .attribute rfl rfl e e.children).mono
    e.tagsOfAll_subset_tags
  rw [visits_of_first holder e rfl]
  exact (logs_readUsage ctx e).andThen fun _ => hreference.bind fun _ => htype.bind fun _ =>
    hanonymous.last fun _ => .pure _

private theorem logs_readWildcard (e : SchemaElement) : Logs ctx (readWildcard ctx e) [] e.tags :=
  (logs_warningIf ctx _ e _).last fun _ => .pure _

private theorem logs_readAttributeItem (list : AttributeList) (holder e : SchemaElement) :
    Logs ctx (readAttributeItem ctx list e) (visitsPart Role.attributeItems holder e) e.tags := by
  rw [readAttributeItem]
  split
  · next hkind =>
    rw [visitsPart_of_some (by rw [hkind]; rfl)]
    exact (logs_readAttribute ctx none holder e).last fun _ => .pure _
  · next hkind =>
    have hreference := logs_resolveAttribute ctx holder e (by decide : "ref" ≠ "memberTypes")
    rw [visitsPart_of_some (by rw [hkind]; rfl), visits_attributeGroupReference]
    refine hreference.last fun name => ?_
    cases name with
    | some name => exact .pure _
    | none => exact (logs_warning ctx e _).last fun _ => .pure _
  · next hkind =>
    rw [visitsPart_of_none (by rw [hkind]; rfl)]
    exact (logs_readWildcard ctx e).last fun _ => .pure _
  · next hattribute hgroup _ =>
    rw [visitsPart_of_none]
    · exact .pure _
    · rw [List.lookup_eq_none_iff]
      simp only [Role.attributeItems, List.forall_mem_cons, bne_iff_ne]
      exact ⟨hattribute, hgroup, List.forall_mem_nil _⟩

private theorem logs_readAttributeItems (list : AttributeList) (holder : SchemaElement)
    (es : List SchemaElement) :
    Logs ctx (readAttributeItems ctx list es) (visitsIn .attributeGroup holder es)
      (SchemaElement.tagsOfAll es) := by
  induction es generalizing list with
  | nil => exact .pure _
  | cons e es ih =>
    have he := (logs_readAttributeItem ctx list holder e).mono (tags_subset_cons e es)
    rw [visitsIn_cons rfl]
    exact he.bind fun list => (ih list).mono (tagsOfAll_subset_cons e es)

private theorem logs_readAttributeGroup (name : QName) (holder e : SchemaElement) :
    Logs ctx (readAttributeGroup ctx name e) (visits .attributeGroup holder e) e.tags := by
  have hitems := (logs_readAttributeItems ctx {} e e.children).mono e.tagsOfAll_subset_tags
  rw [visits_of_first holder e rfl]
  exact hitems.last fun _ => .pure _

private theorem logs_elementOf (name : Option QName) (holder e : SchemaElement)
    {readType : Noted (Option (TypeDefinition Particle))}
    (h : Logs ctx readType (visitsIn .element e e.children) e.tags) :
    Logs ctx (elementOf ctx name e readType) (visits .element holder e) e.tags := by
  have hreference := logs_resolveAttribute ctx e e (by decide : "ref" ≠ "memberTypes")
  have htype := logs_resolveAttribute ctx e e (by decide : "type" ≠ "memberTypes")
  have hhead := logs_resolveAttribute ctx e e (by decide : "substitutionGroup" ≠ "memberTypes")
  rw [visits_eq, List.append_assoc]
  exact hreference.bind fun _ => (logs_warningIf ctx _ e _).andThen fun _ => htype.bind fun _ =>
    h.bind fun _ => hhead.last fun _ => .pure _

/-- Parts of a content model are the same parts of a complex type and of a derivation. -/
theorem lookup_of_isModel {kind : String} (h : isModel kind = true) :
    Role.complexType.parts.lookup kind = Role.model.parts.lookup kind ∧
      (Role.derivation true).parts.lookup kind = Role.model.parts.lookup kind := by
  simp only [isModel, Bool.or_eq_true, beq_iff_eq] at h
  rcases h with ((rfl | rfl) | rfl) | rfl <;> exact ⟨rfl, rfl⟩

theorem visitsPart_model (holder : SchemaElement) {e : SchemaElement}
    (h : e.kind = "sequence" ∨ e.kind = "choice" ∨ e.kind = "all") :
    visitsPart Role.model.parts holder e = visits .model holder e := by
  refine visitsPart_of_some ?_
  rcases h with h | h | h <;> rw [h] <;> rfl

theorem lookup_of_isAttributeItem {kind : String} (h : isAttributeItem kind = true)
    (withParticle : Bool) :
    Role.complexType.parts.lookup kind = Role.attributeItems.lookup kind ∧
      (Role.derivation withParticle).parts.lookup kind = Role.attributeItems.lookup kind := by
  simp only [isAttributeItem, Bool.or_eq_true, beq_iff_eq] at h
  rcases h with (rfl | rfl) | rfl <;> cases withParticle <;> exact ⟨rfl, rfl⟩

mutual

private theorem logs_readFirstType (holder : SchemaElement) (es : List SchemaElement) :
    Logs ctx (readFirstType ctx es) (visitsIn .element holder es)
      (SchemaElement.tagsOfAll es) := by
  cases es with
  | nil => exact .pure _
  | cons e rest =>
    obtain ⟨tag, text, children⟩ := e
    let e : SchemaElement := ⟨tag, text, children⟩
    have htags := tags_subset_cons e rest
    rw [readFirstType]
    split
    · next hkind =>
      have he := (logs_readSimpleType ctx none holder e).mono htags
      rw [visitsIn_of_first rfl (by rw [hkind]; rfl)]
      exact he.last fun _ => .pure _
    · next hsimple =>
      split
      · next hkind =>
        have hbody := (logs_readComplexBody { mixed := isTrue e "mixed" } e children).mono
          (List.Subset.trans e.tagsOfAll_subset_tags htags)
        rw [visitsIn_of_first rfl (by rw [hkind]; rfl), visits_of_first holder e rfl]
        exact hbody.last fun _ => .pure _
      · next hcomplex =>
        have hrest := (logs_readFirstType holder rest).mono (tagsOfAll_subset_cons e rest)
        rw [visitsIn_of_none (Role.lookup_element_of_ne hsimple hcomplex)]
        exact hrest
termination_by structural es

private theorem logs_readComplexBody (body : ComplexBody) (holder : SchemaElement)
    (es : List SchemaElement) :
    Logs ctx (readComplexBody ctx body es) (visitsIn .complexType holder es)
      (SchemaElement.tagsOfAll es) := by
  cases es with
  | nil => exact .pure _
  | cons e rest =>
    obtain ⟨tag, text, children⟩ := e
    let e : SchemaElement := ⟨tag, text, children⟩
    have htags := tags_subset_cons e rest
    have hrest (new : ComplexBody) := (logs_readComplexBody new holder rest).mono
      (tagsOfAll_subset_cons e rest)
    have hderived (withParticle : Bool) :=
      (logs_readDerivation e withParticle holder children e.tagsOfAll_subset_tags).mono htags
    rw [readComplexBody, visitsIn_cons rfl]
    split
    · next hkind =>
      rw [visitsPart_of_some (by rw [hkind]; rfl), visits_of_first holder e rfl]
      exact (hderived false).bind fun _ => hrest _
    · next hsimple =>
      split
      · next hkind =>
        rw [visitsPart_of_some (by rw [hkind]; rfl), visits_of_first holder e rfl]
        exact (hderived true).bind fun _ => hrest _
      · next hcomplex =>
        split
        · next hkind =>
          rw [visitsPart_congr (lookup_of_isModel hkind).1]
          exact ((logs_readParticle holder e).mono htags).bind fun _ => hrest _
        · next hmodel =>
          split
          · next hkind =>
            rw [visitsPart_congr (lookup_of_isAttributeItem hkind false).1]
            exact ((logs_readAttributeItem ctx body.attributes holder e).mono htags).bind fun _ =>
              hrest _
          · next hitem =>
            rw [visitsPart_of_none]
            · exact hrest body
            · rw [List.lookup_eq_none_iff]
              simp [isModel, isAttributeItem] at hmodel hitem
              simp_all [Role.parts, Role.models, Role.attributeItems]
termination_by structural es

private theorem logs_readDerivation (owner : SchemaElement) (withParticle : Bool)
    (holder : SchemaElement)
    (es : List SchemaElement) (h : SchemaElement.tagsOfAll es ⊆ owner.tags) :
    Logs ctx (readDerivation ctx owner withParticle es) (visitsIn (.content withParticle) holder es)
      owner.tags := by
  cases es with
  | nil => exact (logs_warning ctx owner _).last fun _ => .pure _
  | cons e rest =>
    obtain ⟨tag, text, children⟩ := e
    let e : SchemaElement := ⟨tag, text, children⟩
    have htags := List.Subset.trans (tags_subset_cons e rest) h
    rw [readDerivation]
    split
    · next hkind =>
      have hbase := (logs_resolveAttribute ctx holder e (by decide : "base" ≠ "memberTypes")).mono
        htags
      have hderived (d : Derivation Particle) :=
        (logs_readDerived withParticle d holder children).mono
          (List.Subset.trans e.tagsOfAll_subset_tags htags)
      rw [visitsIn_of_first rfl ((Role.lookup_content _ _).trans (if_pos hkind)),
        visits_of_first holder e rfl]
      exact hbase.bind fun _ => (hderived _).last fun _ => .pure _
    · next hkind =>
      have hrest := logs_readDerivation owner withParticle holder rest
        (List.Subset.trans (tagsOfAll_subset_cons e rest) h)
      rw [visitsIn_of_none ((Role.lookup_content _ _).trans (if_neg hkind))]
      exact hrest
termination_by structural es

private theorem logs_readDerived (withParticle : Bool) (d : Derivation Particle)
    (holder : SchemaElement) (es : List SchemaElement) :
    Logs ctx (readDerived ctx withParticle d es) (visitsIn (.derivation withParticle) holder es)
      (SchemaElement.tagsOfAll es) := by
  cases es with
  | nil => exact .pure _
  | cons e rest =>
    have htags := tags_subset_cons e rest
    have hrest (new : Derivation Particle) := (logs_readDerived withParticle new holder rest).mono
      (tagsOfAll_subset_cons e rest)
    rw [readDerived, visitsIn_cons rfl]
    split
    · next hkind =>
      obtain ⟨rfl, hkind⟩ := Bool.and_eq_true_iff.1 hkind
      rw [visitsPart_congr (lookup_of_isModel hkind).2]
      exact ((logs_readParticle holder e).mono htags).bind fun _ => hrest _
    · next hmodel =>
      split
      · next hkind =>
        rw [visitsPart_congr (lookup_of_isAttributeItem hkind withParticle).2]
        exact ((logs_readAttributeItem ctx d.attributes holder e).mono htags).bind fun _ => hrest _
      · next hitem =>
        rw [visitsPart_of_none]
        · exact hrest d
        · rw [List.lookup_eq_none_iff]
          simp [isModel, isAttributeItem] at hmodel hitem
          cases withParticle <;> simp_all [Role.parts, Role.models, Role.attributeItems]
termination_by structural es

private theorem logs_readParticle (holder e : SchemaElement) :
    Logs ctx (readParticle ctx e) (visitsPart Role.model.parts holder e) e.tags := by
  obtain ⟨tag, text, children⟩ := e
  let e : SchemaElement := ⟨tag, text, children⟩
  have hmodel := (logs_readParticles holder children).mono e.tagsOfAll_subset_tags
  have hvisits (h : e.kind = "sequence" ∨ e.kind = "choice" ∨ e.kind = "all") :
      visitsPart Role.model.parts holder e = visitsIn .model holder children :=
    (visitsPart_model holder h).trans (visits_of_first holder e rfl)
  rw [readParticle]
  split
  · next hkind =>
    have htype := (logs_readFirstType e children).mono e.tagsOfAll_subset_tags
    rw [visitsPart_of_some (by rw [hkind]; rfl)]
    exact (logs_elementOf ctx none holder e htype).last fun _ => .pure _
  · next hkind =>
    rw [visitsPart_of_none (by rw [hkind]; rfl)]
    exact (logs_readWildcard ctx e).last fun _ => .pure _
  · next hkind =>
    have hreference := logs_resolveAttribute ctx e e (by decide : "ref" ≠ "memberTypes")
    rw [visitsPart_of_some (by rw [hkind]; rfl), visits_groupReference]
    refine hreference.last fun name => ?_
    cases name with
    | some name => exact .pure _
    | none => exact (logs_warning ctx e _).last fun _ => .pure _
  · next hkind => exact (hmodel.last fun _ => .pure _).congr (hvisits (.inl hkind)).symm
  · next hkind => exact (hmodel.last fun _ => .pure _).congr (hvisits (.inr (.inl hkind))).symm
  · next hkind => exact (hmodel.last fun _ => .pure _).congr (hvisits (.inr (.inr hkind))).symm
  · next helement _ hgroup hsequence hchoice hall =>
    rw [visitsPart_of_none]
    · exact .pure _
    · rw [List.lookup_eq_none_iff]
      simp only [Role.parts, Role.models, List.cons_append, List.nil_append, List.forall_mem_cons,
        bne_iff_ne]
      exact ⟨helement, hgroup, hsequence, hchoice, hall, List.forall_mem_nil _⟩
termination_by structural e

private theorem logs_readParticles (holder : SchemaElement) (es : List SchemaElement) :
    Logs ctx (readParticles ctx es) (visitsIn .model holder es) (SchemaElement.tagsOfAll es) := by
  cases es with
  | nil => exact .pure _
  | cons e rest =>
    have he := (logs_readParticle holder e).mono (tags_subset_cons e rest)
    have hrest := (logs_readParticles holder rest).mono (tagsOfAll_subset_cons e rest)
    rw [readParticles, visitsIn_cons rfl]
    exact he.bind fun _ => hrest.last fun _ => .pure _
termination_by structural es

end

private theorem logs_readFirstModel (holder : SchemaElement) (es : List SchemaElement) :
    Logs ctx (readFirstModel ctx es) (visitsIn .group holder es) (SchemaElement.tagsOfAll es) := by
  induction es with
  | nil => exact .pure _
  | cons e es ih =>
    rw [readFirstModel]
    split
    · next hkind =>
      have he := (logs_readParticle ctx holder e).mono (tags_subset_cons e es)
      rw [visitsIn_of_first rfl ((Role.lookup_models _).trans (if_pos hkind))]
      exact he.congr (visitsPart_model holder hkind)
    · next hkind =>
      rw [visitsIn_of_none ((Role.lookup_models _).trans (if_neg hkind))]
      exact ih.mono (tagsOfAll_subset_cons e es)

/-- Global components and what they are read as. -/
def Role.globals : List (String × Role) :=
  [("element", element), ("simpleType", simpleType), ("complexType", complexType),
    ("attribute", .attribute), ("group", group), ("attributeGroup", attributeGroup)]

theorem logs_readNamed (name : QName) {e : SchemaElement} (h : isGlobal e.kind = true) :
    Logs ctx (readNamed ctx name e) (visitsPart Role.globals e e) e.tags := by
  rw [readNamed]
  split
  · next hkind =>
    rw [visitsPart_of_some (by rw [hkind]; rfl)]
    exact (logs_elementOf ctx (some name) e e
      ((logs_readFirstType ctx e e.children).mono e.tagsOfAll_subset_tags)).map _
  · next hkind =>
    rw [visitsPart_of_some (by rw [hkind]; rfl)]
    exact (logs_readSimpleType ctx (some name) e e).map _
  · next hkind =>
    have hbody := (logs_readComplexBody ctx { mixed := isTrue e "mixed" } e e.children).mono
      e.tagsOfAll_subset_tags
    rw [visitsPart_of_some (by rw [hkind]; rfl), visits_of_first e e rfl]
    exact (hbody.map _).map _
  · next hkind =>
    rw [visitsPart_of_some (by rw [hkind]; rfl)]
    exact (logs_readAttribute ctx (some name) e e).map _
  · next hkind =>
    have hmodel := (logs_readFirstModel ctx e e.children).mono e.tagsOfAll_subset_tags
    rw [visitsPart_of_some (by rw [hkind]; rfl), visits_of_first e e rfl]
    exact (hmodel.last fun _ => .pure _).map _
  · next helement hsimple hcomplex hattribute hgroup =>
    have hkind := eq_attributeGroup h helement hsimple hcomplex hattribute hgroup
    rw [visitsPart_of_some (by rw [hkind]; rfl)]
    exact (logs_readAttributeGroup ctx name e e).map _

end XsdCatalog.Written
