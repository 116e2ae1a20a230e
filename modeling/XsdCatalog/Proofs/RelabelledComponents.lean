import XsdCatalog.Proofs.Filing
import XsdCatalog.Proofs.Relabelling
import XsdCatalog.Interpretation.Content

/-!
# What relabelled declarations mean

Components carry the labels of the declarations that they were made from. Interpreting reads no
label but to pass it on and to look up attribute groups by their keys, so a relabelled declaration
means the relabelled component.
-/

namespace XsdCatalog

section Components

variable (r : Relabelling)

mutual

def SimpleType.relabel : SimpleType → SimpleType
  | ⟨name, documentation, source, variety⟩ =>
    ⟨name.map r.name, documentation, source.map r.place, SimpleType.relabelVariety variety⟩

def SimpleType.relabelVariety : Variety SimpleType → Variety SimpleType
  | .builtin => .builtin
  | .restriction base facets => .restriction (base.map r.name) facets
  | .list item t => .list (item.map r.name) (SimpleType.relabelOption t)
  | .union members ts => .union (members.map r.name) (SimpleType.relabelAll ts)

def SimpleType.relabelOption : Option SimpleType → Option SimpleType
  | none => none
  | some t => some (SimpleType.relabel t)

def SimpleType.relabelAll : List SimpleType → List SimpleType
  | [] => []
  | t :: ts => SimpleType.relabel t :: SimpleType.relabelAll ts

end

def TypeRef.relabel {τ : Type} (f : τ → τ) : TypeRef τ → TypeRef τ
  | .named name => .named (r.name name)
  | .anonymous t => .anonymous (f t)

def Attribute.relabel (a : Attribute) : Attribute :=
  { a with
    name := r.name a.name
    type := a.type.map (TypeRef.relabel r (·.relabel r))
    source := a.source.map r.place }

def AttributeTarget.relabel : AttributeTarget → AttributeTarget
  | .reference name => .reference (r.name name)
  | .declared a => .declared (a.relabel r)

def AttributeUse.relabel (u : AttributeUse) : AttributeUse :=
  { u with target := u.target.relabel r }

def AttributeGroup.relabel (g : AttributeGroup) : AttributeGroup :=
  { g with
    name := r.name g.name
    attributes := g.attributes.map (·.relabel r)
    source := g.source.map r.place }

mutual

def Particle.relabel : Particle → Particle
  | ⟨term, occurs, source⟩ => ⟨Term.relabel term, occurs, source.map r.place⟩

def Term.relabel : Term Particle → Term Particle
  | .element e => .element (ElementUse.relabel e)
  | .wildcard w => .wildcard w
  | .group name => .group (r.name name)
  | .model ⟨kind, particles⟩ => .model ⟨kind, Particle.relabelAll particles⟩

def ElementUse.relabel : ElementUse Particle → ElementUse Particle
  | .reference name nillable isAbstract => .reference (r.name name) nillable isAbstract
  | .declared ⟨name, type, nillable, isAbstract, default, fixed⟩ =>
    .declared ⟨name, TypeDefinition.relabelRef type, nillable, isAbstract, default, fixed⟩

def Particle.relabelAll : List Particle → List Particle
  | [] => []
  | p :: ps => Particle.relabel p :: Particle.relabelAll ps

def Particle.relabelContent : Option Particle → Option Particle
  | none => none
  | some p => some (Particle.relabel p)

def TypeDefinition.relabelRef :
    Option (TypeRef (TypeDefinition Particle)) → Option (TypeRef (TypeDefinition Particle))
  | none => none
  | some (.named name) => some (.named (r.name name))
  | some (.anonymous t) => some (.anonymous (TypeDefinition.relabel t))

def TypeDefinition.relabel : TypeDefinition Particle → TypeDefinition Particle
  | .simple t => .simple (t.relabel r)
  | .complex t => .complex (ComplexType.relabel t)

def ComplexType.relabel : ComplexType Particle → ComplexType Particle
  | ⟨name, documentation, source, isAbstract, mixed, base, derivation, content, uses, wildcard⟩ =>
    ⟨name.map r.name, documentation, source.map r.place, isAbstract, mixed, base.map r.name,
      derivation, Particle.relabelContent content, uses.map (·.relabel r), wildcard⟩

end

def Element.relabel (e : Element) : Element :=
  { e with
    name := r.name e.name
    type := TypeDefinition.relabelRef r e.type
    source := e.source.map r.place
    substitutionHead := e.substitutionHead.map r.name }

def Group.relabel (g : Group) : Group :=
  { g with
    name := r.name g.name
    content := ⟨g.content.kind, g.content.particles.map (·.relabel r)⟩
    source := g.source.map r.place }

@[simp] theorem SimpleType.relabelOption_eq (t : Option SimpleType) :
    SimpleType.relabelOption r t = t.map (·.relabel r) := by
  cases t <;> rfl

@[simp] theorem SimpleType.relabelAll_eq (ts : List SimpleType) :
    SimpleType.relabelAll r ts = ts.map (·.relabel r) := by
  induction ts with
  | nil => rfl
  | cons t ts ih => exact congrArg (t.relabel r :: ·) ih

@[simp] theorem Particle.relabelAll_eq (ps : List Particle) :
    Particle.relabelAll r ps = ps.map (·.relabel r) := by
  induction ps with
  | nil => rfl
  | cons p ps ih => exact congrArg (p.relabel r :: ·) ih

theorem TypeDefinition.relabelRef_eq (type : Option (TypeRef (TypeDefinition Particle))) :
    TypeDefinition.relabelRef r type = type.map (TypeRef.relabel r (·.relabel r)) := by
  cases type with
  | none => rfl
  | some type => cases type <;> rfl

@[simp] theorem Particle.relabelContent_eq (p : Option Particle) :
    Particle.relabelContent r p = p.map (·.relabel r) := by
  cases p <;> rfl

end Components

namespace Written

variable (r : Relabelling)

private theorem Facet.interpret_relabel (f : Facet) :
    (f.relabel r).interpret = f.interpret.moved r := by
  rw [interpret, interpret]
  simp only [relabel]
  split
  · rfl
  · simp [Diagnostic.relabel, Diagnostic.warning]

private theorem Facet.interpretAll_relabel (fs : List Facet) :
    interpretAll (fs.map (·.relabel r)) = (interpretAll fs).moved r := by
  induction fs with
  | nil => rfl
  | cons f fs ih => simp [interpretAll, f.interpret_relabel, ih]

mutual

theorem SimpleType.interpret_relabel (t : SimpleType) :
    (t.relabel r).interpret = (·.relabel r) <$> t.interpret.moved r := by
  obtain ⟨name, documentation, source, variety⟩ := t
  simp [relabel, interpret, interpretVariety_relabel variety, XsdCatalog.SimpleType.relabel]

private theorem SimpleType.interpretVariety_relabel (v : Variety SimpleType) :
    interpretVariety (relabelVariety r v)
      = XsdCatalog.SimpleType.relabelVariety r <$> (interpretVariety v).moved r := by
  cases v with
  | unstated => rfl
  | restriction base facets =>
    simp [relabelVariety, interpretVariety, Facet.interpretAll_relabel,
      XsdCatalog.SimpleType.relabelVariety]
  | list item t =>
    cases t with
    | none => rfl
    | some t =>
      simp [relabelVariety, interpretVariety, interpret_relabel t,
        XsdCatalog.SimpleType.relabelVariety]
  | union members ts =>
    simp [relabelVariety, interpretVariety, interpretAll_relabel ts,
      XsdCatalog.SimpleType.relabelVariety]

private theorem SimpleType.interpretAll_relabel (ts : List SimpleType) :
    interpretAll (ts.map (·.relabel r))
      = List.map (·.relabel r) <$> (interpretAll ts).moved r := by
  cases ts with
  | nil => rfl
  | cons t ts => simp [interpretAll, interpret_relabel t, interpretAll_relabel ts]

end

namespace Attribute

private theorem interpretType_relabel (a : Attribute) :
    (a.relabel r).interpretType
      = Option.map (TypeRef.relabel r (·.relabel r)) <$> a.interpretType.moved r := by
  obtain ⟨name, reference, typeName, anonymous, usage, defaultValue, fixedValue, documentation,
    source⟩ := a
  cases typeName with
  | some name => rfl
  | none =>
    cases anonymous with
    | none => rfl
    | some t =>
      simp [relabel, interpretType, t.interpret_relabel, TypeRef.relabel]

theorem interpretAs_relabel (a : Attribute) (name : QName) :
    (a.relabel r).interpretAs (r.name name) = (·.relabel r) <$> (a.interpretAs name).moved r := by
  simp [interpretAs, interpretType_relabel, XsdCatalog.Attribute.relabel]
  rfl

private theorem interpretUse_relabel (a : Attribute) :
    (a.relabel r).interpretUse = (·.relabel r) <$> a.interpretUse.moved r := by
  cases href : a.reference with
  | some name => simp [interpretUse, relabel, href, AttributeUse.relabel, AttributeTarget.relabel]
  | none =>
    have hname : (a.name.map r.name).getD (.unbound "") = r.name (a.name.getD (.unbound "")) := by
      cases a.name with
      | none => exact r.name_unbound.symm
      | some name => rfl
    have hreference : (a.relabel r).reference = none := by simp [relabel, href]
    have hnamed : (a.relabel r).name = a.name.map r.name := rfl
    rw [interpretUse, interpretUse, href, hreference]
    simp only [hnamed, hname, interpretAs_relabel]
    simp [AttributeUse.relabel, AttributeTarget.relabel]
    rfl

end Attribute

end Written

namespace AttributeScope

variable (r : Relabelling)

def relabel (scope : AttributeScope) : AttributeScope where
  declared := scope.declared.map (·.relabel r)
  finished := scope.finished.map (·.relabel r)

def Target.relabel : Target → Target
  | declaration items => declaration (items.map (·.relabel r))
  | finished uses => finished (uses.map (·.relabel r))
  | nothing => nothing

variable (scope : AttributeScope) (visited : List String)

private theorem target_relabel (key : String) :
    (scope.relabel r).target visited key = (scope.target visited key).relabel r := by
  rw [target, target]
  split
  · rfl
  · simp only [relabel, Registry.get?_map]
    cases scope.declared.get? key with
    | some g => rfl
    | none => cases scope.finished.get? key <;> rfl

end AttributeScope

def Expansion.relabel (r : Relabelling) (e : Expansion) : Expansion :=
  { e with uses := e.uses.map (·.relabel r) }

private theorem Expansion.relabel_after (r : Relabelling) (uses : List AttributeUse)
    (e : Expansion) : (e.after uses).relabel r = (e.relabel r).after (uses.map (·.relabel r)) := by
  simp [after, relabel]

namespace AttributeScope

variable (r : Relabelling) (scope : AttributeScope) (visited : List String)

/-- The three ways in which a reference to a group goes on. -/
theorem expandStack_group (name : QName) (items : List Written.AttributeItem)
    (stack : List (List Written.AttributeItem)) :
    scope.expandStack visited ((.group name :: items) :: stack)
      = match scope.target visited name.key with
        | .declaration inner => scope.expandStack (name.key :: visited) (inner :: items :: stack)
        | .finished uses =>
          (·.after uses) <$> scope.expandStack (name.key :: visited) (items :: stack)
        | .nothing => scope.expandStack visited (items :: stack) := by
  rw [expandStack]
  split <;> simp_all

private theorem expandStack_relabel (stack : List (List Written.AttributeItem)) :
    (scope.relabel r).expandStack visited (stack.map (·.map (·.relabel r)))
      = (·.relabel r) <$> (scope.expandStack visited stack).moved r := by
  fun_induction expandStack scope visited stack with
  | case1 visited =>
    rw [List.map_nil, expandStack]
    rfl
  | case2 visited stack ih =>
    rw [List.map_cons, List.map_nil, expandStack]
    exact ih
  | case3 visited a items stack ih =>
    rw [List.map_cons] at ih
    rw [List.map_cons, List.map_cons, Written.AttributeItem.relabel, expandStack, ih,
      a.interpretUse_relabel]
    simp [Expansion.relabel_after]
  | case4 visited name items stack inner htarget ih =>
    rw [List.map_cons, List.map_cons] at ih
    rw [List.map_cons, List.map_cons, Written.AttributeItem.relabel, expandStack_group,
      r.key_name, target_relabel, htarget]
    exact ih
  | case5 visited name items stack uses htarget ih =>
    rw [List.map_cons] at ih
    rw [List.map_cons, List.map_cons, Written.AttributeItem.relabel, expandStack_group,
      r.key_name, target_relabel, htarget]
    simp only [Target.relabel, ih]
    simp [Expansion.relabel_after]
  | case6 visited name items stack htarget ih =>
    rw [List.map_cons] at ih
    rw [List.map_cons, List.map_cons, Written.AttributeItem.relabel, expandStack_group,
      r.key_name, target_relabel, htarget]
    exact ih

theorem expand_relabel (items : List Written.AttributeItem) :
    (scope.relabel r).expand visited (items.map (·.relabel r))
      = (·.relabel r) <$> (scope.expand visited items).moved r :=
  expandStack_relabel r scope visited [items]

end AttributeScope

namespace Written

variable (r : Relabelling) (scope : AttributeScope)

theorem Wildcard.interpret_relabel (w : Wildcard) : (w.relabel r).interpret = w.interpret := rfl

theorem AttributeGroup.expand_relabel (g : AttributeGroup) :
    (g.relabel r).expand (scope.relabel r)
      = List.map (·.relabel r) <$> (g.expand scope).moved r := by
  have hitems := scope.expand_relabel r [g.name.key] g.attributes.items
  rw [expand, expand, show (g.relabel r).name = r.name g.name from rfl, r.key_name,
    show (g.relabel r).attributes.items = g.attributes.items.map (·.relabel r) from rfl, hitems]
  simp [Expansion.relabel]

theorem AttributeGroup.interpret_relabel (g : AttributeGroup) :
    (g.relabel r).interpret (scope.relabel r) = (·.relabel r) <$> (g.interpret scope).moved r := by
  have hwildcard : (g.relabel r).attributes.wildcard.map Wildcard.interpret
      = g.attributes.wildcard.map Wildcard.interpret :=
    Option.map_map ..
  rw [interpret, interpret, hwildcard, expand_relabel]
  simp [XsdCatalog.AttributeGroup.relabel]
  rfl

private theorem AttributeList.interpret_relabel (l : AttributeList) :
    (l.relabel r).interpret (scope.relabel r)
      = Prod.map (List.map (·.relabel r)) id <$> (l.interpret scope).moved r := by
  have hitems := scope.expand_relabel r [] l.items
  have hwildcard : (l.relabel r).wildcard.map Wildcard.interpret
      = l.wildcard.map Wildcard.interpret :=
    Option.map_map ..
  rw [interpret, interpret, hwildcard,
    show (l.relabel r).items = l.items.map (·.relabel r) from rfl, hitems]
  simp [Expansion.relabel]

private theorem Particle.interpretBound_relabel (bound text : String) (source : Option Location) :
    interpretBound bound text (source.map r.place)
      = (interpretBound bound text source).moved r := by
  rw [interpretBound, interpretBound]
  split
  · rfl
  · simp [Diagnostic.relabel, Diagnostic.warning]

private theorem Particle.interpretOccurs_relabel (min max : Option String)
    (source : Option Location) : interpretOccurs min max (source.map r.place)
      = (interpretOccurs min max source).moved r := by
  have hmin : interpretMin (source.map r.place) min = (interpretMin source min).moved r := by
    cases min with
    | none => rfl
    | some text => exact interpretBound_relabel r _ _ source
  have hmax : interpretMax (source.map r.place) max = (interpretMax source max).moved r := by
    cases max with
    | none => rfl
    | some text =>
      simp only [interpretMax]
      split
      · rfl
      · rw [interpretBound_relabel, Noted.moved_map]
  rw [interpretOccurs, interpretOccurs, hmin, hmax]
  simp

private theorem Particle.isEmptyModel_relabel (p : Particle) :
    (p.relabel r).isEmptyModel = p.isEmptyModel := by
  obtain ⟨min, max, term, source⟩ := p
  cases term with
  | model kind children => simp [Particle.relabel, Term.relabel, isEmptyModel]
  | _ => rfl

namespace ComplexContent

private theorem base_relabel (c : ComplexContent Particle) :
    (c.relabel r).base = c.base.map r.name := by
  cases c <;> simp [relabel, Derivation.relabel_eq, base]

private theorem method?_relabel (c : ComplexContent Particle) :
    (c.relabel r).method? = c.method? := by
  cases c <;> simp [relabel, Derivation.relabel_eq, method?]

private theorem attributes_relabel (c : ComplexContent Particle) :
    (c.relabel r).attributes = c.attributes.relabel r := by
  cases c <;> simp [relabel, Derivation.relabel_eq, attributes]

end ComplexContent

mutual

private theorem Particle.interpret_relabel (p : Particle) :
    Particle.interpret (scope.relabel r) (p.relabel r)
      = (·.relabel r) <$> (Particle.interpret scope p).moved r := by
  obtain ⟨min, max, term, source⟩ := p
  simp [Particle.relabel, Particle.interpret, Particle.interpretOccurs_relabel,
    Term.interpret_relabel term, XsdCatalog.Particle.relabel]

private theorem Term.interpret_relabel (t : Term Particle) :
    Term.interpret (scope.relabel r) (t.relabel r)
      = (·.relabel r) <$> (Term.interpret scope t).moved r := by
  cases t with
  | element e =>
    simp [Term.relabel, Term.interpret, Element.interpretUse_relabel e, XsdCatalog.Term.relabel]
  | wildcard w => rfl
  | group name => rfl
  | model kind children =>
    simp [Term.relabel, Term.interpret, Particle.interpretAll_relabel children,
      XsdCatalog.Term.relabel]

private theorem Particle.interpretAll_relabel (ps : List Particle) :
    Particle.interpretAll (scope.relabel r) (ps.map (·.relabel r))
      = List.map (·.relabel r) <$> (Particle.interpretAll scope ps).moved r := by
  cases ps with
  | nil => rfl
  | cons p ps =>
    simp [Particle.interpretAll, Particle.interpret_relabel p, Particle.interpretAll_relabel ps]

private theorem Particle.interpretContent_relabel (p : Option Particle) :
    Particle.interpretContent (scope.relabel r) (p.map (·.relabel r))
      = Option.map (·.relabel r) <$> (Particle.interpretContent scope p).moved r := by
  cases p with
  | none => rfl
  | some p =>
    rw [Option.map_some, Particle.interpretContent, Particle.interpretContent,
      Particle.isEmptyModel_relabel]
    split
    · rfl
    · simp [Particle.interpret_relabel p]

private theorem ComplexContent.interpretContent_relabel (c : ComplexContent Particle) :
    ComplexContent.interpretContent (scope.relabel r) (c.relabel r)
      = Option.map (·.relabel r) <$> (ComplexContent.interpretContent scope c).moved r := by
  cases c with
  | direct particle attributes =>
    simp [ComplexContent.relabel, ComplexContent.interpretContent,
      Particle.interpretContent_relabel particle]
  | simple d => rfl
  | complex d =>
    obtain ⟨method, base, particle, attributes⟩ := d
    simp [ComplexContent.relabel, Derivation.relabel, ComplexContent.interpretContent,
      Particle.interpretContent_relabel particle]

theorem ComplexType.interpret_relabel (t : ComplexType Particle) :
    ComplexType.interpret (scope.relabel r) (t.relabel r)
      = (·.relabel r) <$> (ComplexType.interpret scope t).moved r := by
  obtain ⟨name, documentation, source, isAbstract, mixed, content⟩ := t
  simp [ComplexType.relabel, ComplexType.interpret,
    ComplexContent.interpretContent_relabel content, ComplexContent.base_relabel,
    ComplexContent.method?_relabel, ComplexContent.attributes_relabel,
    AttributeList.interpret_relabel, XsdCatalog.ComplexType.relabel]

private theorem TypeDefinition.interpret_relabel (t : TypeDefinition Particle) :
    TypeDefinition.interpret (scope.relabel r) (t.relabel r)
      = (·.relabel r) <$> (TypeDefinition.interpret scope t).moved r := by
  cases t with
  | simple t =>
    simp [TypeDefinition.relabel, TypeDefinition.interpret, t.interpret_relabel,
      XsdCatalog.TypeDefinition.relabel]
  | complex t =>
    simp [TypeDefinition.relabel, TypeDefinition.interpret, ComplexType.interpret_relabel t,
      XsdCatalog.TypeDefinition.relabel]

private theorem Element.interpretType_relabel (typeName : Option QName)
    (t : Option (TypeDefinition Particle)) :
    Element.interpretType (scope.relabel r) (typeName.map r.name) (t.map (·.relabel r))
      = XsdCatalog.TypeDefinition.relabelRef r
          <$> (Element.interpretType scope typeName t).moved r := by
  cases t with
  | none => cases typeName <;> rfl
  | some t =>
    cases typeName with
    | some name => rfl
    | none =>
      simp [Element.interpretType, TypeDefinition.interpret_relabel t,
        XsdCatalog.TypeDefinition.relabelRef]

private theorem Element.interpretUse_relabel (e : Element Particle) :
    Element.interpretUse (scope.relabel r) (e.relabel r)
      = (·.relabel r) <$> (Element.interpretUse scope e).moved r := by
  obtain ⟨name, reference, typeName, anonymous, isAbstract, nillable, defaultValue, fixedValue,
    substitutionHead, documentation, source⟩ := e
  cases reference with
  | some target => rfl
  | none =>
    have hname : ((name.map r.name).map (·.localName)).getD ""
        = (name.map (·.localName)).getD "" := by
      cases name with
      | none => rfl
      | some name => exact r.localName_name name
    simp only [Element.relabel, Element.interpretUse, Option.map_none, hname,
      TypeDefinition.relabelOption_eq, Element.interpretType_relabel typeName anonymous]
    simp [ElementUse.relabel]

end

theorem Element.interpretAs_relabel (e : Element Particle) (name : QName) :
    (e.relabel r).interpretAs (scope.relabel r) (r.name name)
      = (·.relabel r) <$> (e.interpretAs scope name).moved r := by
  obtain ⟨_, reference, typeName, anonymous, isAbstract, nillable, defaultValue, fixedValue,
    substitutionHead, documentation, source⟩ := e
  simp [relabel, interpretAs, interpretType_relabel, XsdCatalog.Element.relabel]

theorem Group.interpret_relabel (g : Group) :
    (g.relabel r).interpret (scope.relabel r) = (·.relabel r) <$> (g.interpret scope).moved r := by
  obtain ⟨name, particle, documentation, source⟩ := g
  cases particle with
  | none => rfl
  | some p =>
    obtain ⟨min, max, term, source⟩ := p
    cases term with
    | model kind children =>
      simp [relabel, interpret, interpretContent, Particle.relabel, Term.relabel,
        Particle.interpretAll_relabel, XsdCatalog.Group.relabel]
    | _ => rfl

end Written

end XsdCatalog
