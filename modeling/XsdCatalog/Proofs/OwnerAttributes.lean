import XsdCatalog.Proofs.GroupReachability
import XsdCatalog.Proofs.Loading

/-!
# The attributes of owners

Complex types and attribute groups own attributes. The complex types that stand anywhere in a
written schema, and those anywhere in its document, are listed in the same order: each before those
in its content. What stands at a place where it is not read (a type beside a type name, the inside
of a reference) is no owner.
-/

namespace XsdCatalog

open Written (AttributeItem)

namespace Written

mutual

/-- The attribute items of the complex types in a particle. -/
def Particle.ownedItems : Particle → List (List AttributeItem)
  | ⟨_, _, term, _⟩ => Term.ownedItems term

def Term.ownedItems : Term Particle → List (List AttributeItem)
  | .element e => Element.ownedItems e
  | .wildcard _ => []
  | .group _ => []
  | .model _ children => Particle.ownedItemsAll children

def Particle.ownedItemsAll : List Particle → List (List AttributeItem)
  | [] => []
  | p :: ps => Particle.ownedItems p ++ Particle.ownedItemsAll ps

def Particle.ownedItemsOption : Option Particle → List (List AttributeItem)
  | none => []
  | some p => Particle.ownedItems p

/-- The complex types in the content of a complex type; simple content has none. -/
def ComplexContent.ownedItems : ComplexContent Particle → List (List AttributeItem)
  | .direct particle _ => Particle.ownedItemsOption particle
  | .simple _ => []
  | .complex ⟨_, _, particle, _⟩ => Particle.ownedItemsOption particle

/-- The items of a complex type itself, and of those in its content. -/
def ComplexType.ownedItems : ComplexType Particle → List (List AttributeItem)
  | ⟨_, _, _, _, _, content⟩ => content.attributes.items :: ComplexContent.ownedItems content

def TypeDefinition.ownedItems : TypeDefinition Particle → List (List AttributeItem)
  | .simple _ => []
  | .complex t => ComplexType.ownedItems t

/-- A type that stands inside an element counts unless a type is named. -/
def Element.ownedItemsOfType (typeName : Option QName) :
    Option (TypeDefinition Particle) → List (List AttributeItem)
  | none => []
  | some t => if typeName.isSome then [] else TypeDefinition.ownedItems t

def Element.ownedItems : Element Particle → List (List AttributeItem)
  | ⟨_, reference, typeName, anonymous, _, _, _, _, _, _, _⟩ =>
    if reference.isSome then [] else Element.ownedItemsOfType typeName anonymous

end

/-- The complex types in a global element; one without name is not listed. -/
def Element.globalItems (e : Element Particle) : List (List AttributeItem) :=
  if e.name.isSome then ownedItemsOfType e.typeName e.anonymous else []

def Group.ownedItems (g : Group) : List (List AttributeItem) :=
  match g.particle with
  | some ⟨_, _, .model _ children, _⟩ => Particle.ownedItemsAll children
  | _ => []

/-- The attribute items of all complex types of a schema. -/
def Schema.ownedItems (s : Schema) : List (List AttributeItem) :=
  s.complexTypes.flatMap (·.ownedItems) ++ s.elements.flatMap (·.globalItems)
    ++ s.groups.flatMap (·.ownedItems)

end Written

mutual

/-- The attributes of the complex types in a particle. -/
def Particle.ownedUses : Particle → List (List AttributeUse)
  | ⟨term, _, _⟩ => Term.ownedUses term

def Term.ownedUses : Term Particle → List (List AttributeUse)
  | .element e => ElementUse.ownedUses e
  | .wildcard _ => []
  | .group _ => []
  | .model ⟨_, particles⟩ => Particle.ownedUsesAll particles

def Particle.ownedUsesAll : List Particle → List (List AttributeUse)
  | [] => []
  | p :: ps => Particle.ownedUses p ++ Particle.ownedUsesAll ps

def ElementUse.ownedUses : ElementUse Particle → List (List AttributeUse)
  | .reference _ _ _ => []
  | .declared ⟨_, type, _, _, _, _⟩ => TypeDefinition.ownedUsesOfRef type

def TypeDefinition.ownedUsesOfRef :
    Option (TypeRef (TypeDefinition Particle)) → List (List AttributeUse)
  | none => []
  | some (.named _) => []
  | some (.anonymous t) => TypeDefinition.ownedUses t

def TypeDefinition.ownedUses : TypeDefinition Particle → List (List AttributeUse)
  | .simple _ => []
  | .complex t => ComplexType.ownedUses t

/-- The attributes of a complex type itself, and of those in its content. -/
def ComplexType.ownedUses : ComplexType Particle → List (List AttributeUse)
  | ⟨_, _, _, _, _, _, _, content, attributes, _⟩ =>
    attributes :: Particle.ownedUsesOption content

def Particle.ownedUsesOption : Option Particle → List (List AttributeUse)
  | none => []
  | some p => Particle.ownedUses p

end

/-- The attributes of all complex types of a document. -/
def Document.ownedUses (d : Document) : List (List AttributeUse) :=
  d.complexTypes.flatMap (·.ownedUses)
    ++ d.elements.flatMap (fun e => TypeDefinition.ownedUsesOfRef e.type)
    ++ d.groups.flatMap (fun g => Particle.ownedUsesAll g.content.particles)

namespace Written

variable (scope : AttributeScope)

/-- The attributes of a complex type with these items. -/
def ownUses (items : List AttributeItem) : List AttributeUse :=
  (scope.inPlace [] items).uses

private theorem Particle.ownedItems_of_isEmptyModel {p : Particle} (h : p.isEmptyModel = true) :
    Particle.ownedItems p = [] := by
  obtain ⟨min, max, term, source⟩ := p
  cases term with
  | model kind children =>
    obtain rfl : children = [] := by simpa [Particle.isEmptyModel] using h
    rfl
  | _ => simp [Particle.isEmptyModel] at h

mutual

private theorem Particle.ownedUses_interpret (p : Particle) :
    (Particle.interpret scope p).value.ownedUses = (Particle.ownedItems p).map (ownUses scope) := by
  obtain ⟨min, max, term, source⟩ := p
  exact Term.ownedUses_interpret term

private theorem Term.ownedUses_interpret (t : Term Particle) :
    (Term.interpret scope t).value.ownedUses = (Term.ownedItems t).map (ownUses scope) := by
  cases t with
  | element e => exact Element.ownedUses_interpretUse e
  | wildcard w => rfl
  | group name => rfl
  | model kind children => exact Particle.ownedUsesAll_interpretAll children

private theorem Particle.ownedUsesAll_interpretAll (ps : List Particle) :
    Particle.ownedUsesAll (Particle.interpretAll scope ps).value
      = (Particle.ownedItemsAll ps).map (ownUses scope) := by
  cases ps with
  | nil => rfl
  | cons p ps =>
    have hp := Particle.ownedUses_interpret p
    have hps := Particle.ownedUsesAll_interpretAll ps
    simp only [Particle.interpretAll, Noted.value_bind, Noted.value_pure,
      XsdCatalog.Particle.ownedUsesAll, hp, hps, Particle.ownedItemsAll, List.map_append]

private theorem Particle.ownedUsesOption_interpretContent (p : Option Particle) :
    Particle.ownedUsesOption (Particle.interpretContent scope p).value
      = (Particle.ownedItemsOption p).map (ownUses scope) := by
  cases p with
  | none => rfl
  | some p =>
    rw [Particle.interpretContent, Particle.ownedItemsOption]
    by_cases h : p.isEmptyModel = true
    · rw [if_pos h, Particle.ownedItems_of_isEmptyModel h]
      rfl
    · rw [if_neg h]
      exact Particle.ownedUses_interpret p

private theorem ComplexContent.ownedUses_interpretContent (c : ComplexContent Particle) :
    Particle.ownedUsesOption (ComplexContent.interpretContent scope c).value
      = (ComplexContent.ownedItems c).map (ownUses scope) := by
  cases c with
  | direct particle attributes => exact Particle.ownedUsesOption_interpretContent particle
  | simple d => rfl
  | complex d =>
    obtain ⟨method, base, particle, attributes⟩ := d
    exact Particle.ownedUsesOption_interpretContent particle

private theorem ComplexType.ownedUses_interpret (t : ComplexType Particle) :
    (ComplexType.interpret scope t).value.ownedUses
      = (ComplexType.ownedItems t).map (ownUses scope) := by
  obtain ⟨name, documentation, source, isAbstract, mixed, content⟩ := t
  have hc := ComplexContent.ownedUses_interpretContent content
  simp only [ComplexType.interpret, Noted.value_bind, Noted.value_pure,
    XsdCatalog.ComplexType.ownedUses, hc, ComplexType.ownedItems, List.map_cons,
    AttributeList.interpret, scope.expand_value, ownUses]

private theorem TypeDefinition.ownedUses_interpret (t : TypeDefinition Particle) :
    (TypeDefinition.interpret scope t).value.ownedUses
      = (TypeDefinition.ownedItems t).map (ownUses scope) := by
  cases t with
  | simple t => rfl
  | complex t => exact ComplexType.ownedUses_interpret t

private theorem Element.ownedUsesOfRef_interpretType (typeName : Option QName)
    (t : Option (TypeDefinition Particle)) :
    TypeDefinition.ownedUsesOfRef (Element.interpretType scope typeName t).value
      = (Element.ownedItemsOfType typeName t).map (ownUses scope) := by
  cases t with
  | none => cases typeName <;> rfl
  | some t =>
    cases typeName with
    | some name => rfl
    | none => exact TypeDefinition.ownedUses_interpret t

private theorem Element.ownedUses_interpretUse (e : Element Particle) :
    (Element.interpretUse scope e).value.ownedUses = (Element.ownedItems e).map (ownUses scope) := by
  obtain ⟨name, reference, typeName, anonymous, _, _, _, _, _, _, _⟩ := e
  cases reference with
  | some target => rfl
  | none => exact Element.ownedUsesOfRef_interpretType typeName anonymous

end

private theorem ComplexType.flatMap_ownedUses (ts : List (ComplexType Particle)) :
    (ts.map fun t => (t.interpret scope).value).flatMap (·.ownedUses)
      = (ts.flatMap (·.ownedItems)).map (ownUses scope) := by
  rw [List.flatMap_map, List.map_flatMap]
  exact List.flatMap_congr fun t _ => ComplexType.ownedUses_interpret scope t

private theorem Element.flatMap_ownedUses (es : List (Element Particle)) :
    (es.filterMap fun e => (e.interpretGlobal scope).value).flatMap
        (fun e => TypeDefinition.ownedUsesOfRef e.type)
      = (es.flatMap (·.globalItems)).map (ownUses scope) := by
  induction es with
  | nil => rfl
  | cons e es ih =>
    rw [List.flatMap_cons, List.map_append, ← ih, Element.globalItems]
    cases hn : e.name with
    | none =>
      rw [List.filterMap_cons_none (by rw [Element.interpretGlobal, hn]; rfl)]
      rfl
    | some name =>
      have hg : (e.interpretGlobal scope).value = some (e.interpretAs scope name).value := by
        rw [Element.interpretGlobal, hn]
        rfl
      rw [List.filterMap_cons, hg, List.flatMap_cons]
      exact congrArg (· ++ _) (Element.ownedUsesOfRef_interpretType scope e.typeName e.anonymous)

private theorem Group.flatMap_ownedUses (gs : List Group) :
    (gs.map fun g => (g.interpret scope).value).flatMap
        (fun g => Particle.ownedUsesAll g.content.particles)
      = (gs.flatMap (·.ownedItems)).map (ownUses scope) := by
  rw [List.flatMap_map, List.map_flatMap]
  apply List.flatMap_congr
  intro g _
  obtain ⟨name, particle, documentation, source⟩ := g
  cases particle with
  | none => rfl
  | some p =>
    obtain ⟨min, max, term, psource⟩ := p
    cases term with
    | model kind children => exact Particle.ownedUsesAll_interpretAll scope children
    | _ => rfl

theorem Schema.ownedUses_ofSchema (s : Schema) :
    (Document.ofSchema scope s).ownedUses = s.ownedItems.map (ownUses scope) := by
  rw [Document.ownedUses, Schema.ownedItems, List.map_append, List.map_append,
    ← ComplexType.flatMap_ownedUses, ← Element.flatMap_ownedUses, ← Group.flatMap_ownedUses]
  rfl

end Written

theorem AttributeScope.declared_ofSchemas (schemas : List Written.Schema) (key : String) :
    (AttributeScope.ofSchemas schemas).declared.get? key
      = (schemas.flatMap (·.attributeGroups)).reverse.find? (·.name.key == key) := by
  rw [AttributeScope.ofSchemas, Registry.get?_ofList, ← List.map_reverse, List.find?_map,
    Option.map_map]
  exact Option.map_id'

/-- A reference stands for the own attributes of the open groups that it reaches, those of each
group once and in their order, and exactly these groups are visited by it. In a catalog every
complex type and every attribute group has its items with the references expanded in place. -/
theorem attributes_of_reached_groups :
    (∀ (declared : Registry Written.AttributeGroup) (visited : List String) (name : QName),
      let scope : AttributeScope := { declared }
      let e := (scope.expandName visited name).value
      ∃ (groups : List String) (labelled : List (String × AttributeUse)),
        groups.Nodup ∧ (∀ key, key ∈ groups ↔ scope.Reaches visited name.key key) ∧
        e.visited = groups.reverse ++ visited ∧
        e.uses = labelled.map (·.2) ∧ (∀ p ∈ labelled, p.1 ∈ groups) ∧
        (∀ key ∈ groups, (labelled.filter (·.1 == key)).map (·.2)
          = AttributeScope.directUses (scope.itemsOf key)) ∧
        e.uses.Perm (groups.flatMap fun key => AttributeScope.directUses (scope.itemsOf key))) ∧
    ∀ (schemas : List Written.Schema) (options : Catalog.LoadOptions),
      let scope := AttributeScope.ofSchemas schemas
      let documents := (Catalog.load schemas options).documents
      (∀ key, scope.declared.get? key
        = (schemas.flatMap (·.attributeGroups)).reverse.find? (·.name.key == key)) ∧
      (∀ key, scope.finished.get? key = none) ∧
      (documents.map fun d => d.attributeGroups.map (·.attributes))
        = (schemas.map fun s => s.attributeGroups.map fun g =>
          (scope.inPlace [g.name.key] g.attributes.items).uses) ∧
      documents.map (·.ownedUses)
        = schemas.map fun s => s.ownedItems.map fun items => (scope.inPlace [] items).uses := by
  refine ⟨fun declared visited name => ?_, fun schemas options => ⟨?_, fun _ => rfl, ?_, ?_⟩⟩
  · intro scope e
    have hf : ∀ key, scope.finished.get? key = none := fun _ => rfl
    obtain ⟨groups, labelled, hn, hg, he, hl, hd⟩ := AttributeScope.expandName_covers hf name
    refine ⟨groups, labelled, hn, hg, congrArg (·.visited) he, congrArg (·.uses) he, hl, hd, ?_⟩
    have hperm := (AttributeScope.perm_flatMap_filter groups hn labelled hl).map (·.2)
    rw [List.map_flatMap, List.flatMap_congr hd] at hperm
    exact (congrArg (·.uses) he).symm ▸ hperm
  · exact AttributeScope.declared_ofSchemas schemas
  · rw [Catalog.load_eq, List.map_map]
    apply List.map_congr_left
    intro s _
    simp only [Function.comp_apply, Document.ofSchema, List.map_map]
    apply List.map_congr_left
    intro g _
    exact congrArg (·.uses) (AttributeScope.expand_value g.attributes.items)
  · rw [Catalog.load_eq, List.map_map]
    apply List.map_congr_left
    intro s _
    exact Written.Schema.ownedUses_ofSchema (AttributeScope.ofSchemas schemas) s

end XsdCatalog
