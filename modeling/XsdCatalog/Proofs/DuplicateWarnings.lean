import XsdCatalog.Proofs.LoadDiagnostics
import XsdCatalog.Proofs.RegistryContents

/-!
# Warnings about duplicates

Whether duplicates are reported changes nothing but the diagnostics of a catalog, where the warnings
about duplicates stand between those of the schemas and those of the interpretation. For each kind
there is one for every declaration whose key an earlier declaration of the kind has, at the place of
the later one.
-/

namespace XsdCatalog

open Written (Item Schema)

/-- Nothing worse than a warning is noted. -/
def Noted.Warns {α : Type} (x : Noted α) : Prop :=
  ∀ d ∈ x.notes, d.severity = .warning

namespace Noted

variable {α β : Type}

private theorem warns_pure (a : α) : (pure a : Noted α).Warns :=
  List.forall_mem_nil _

private theorem warns_note (message : String) (source : Option Location) :
    (note (.warning message source)).Warns :=
  List.forall_mem_singleton.2 rfl

private theorem Warns.bind {x : Noted α} (hx : x.Warns) {f : α → Noted β} (hf : ∀ a, (f a).Warns) :
    (x >>= f).Warns := by
  rw [Warns, notes_bind]
  exact List.forall_mem_append.2 ⟨hx, hf x.value⟩

private theorem Warns.map {x : Noted α} (hx : x.Warns) (f : α → β) : (f <$> x).Warns := hx

end Noted

open Noted (warns_pure warns_note)

namespace Written

private theorem Facet.warns_interpret (f : Facet) : f.interpret.Warns := by
  rw [interpret]
  split
  · exact warns_pure _
  · exact (warns_note _ _).bind fun _ => warns_pure _

private theorem Facet.warns_interpretAll (fs : List Facet) : (interpretAll fs).Warns := by
  induction fs with
  | nil => exact warns_pure _
  | cons f fs ih => exact f.warns_interpret.bind fun _ => ih.bind fun _ => warns_pure _

mutual

private theorem SimpleType.warns_interpret (t : SimpleType) : t.interpret.Warns := by
  obtain ⟨name, documentation, source, variety⟩ := t
  rw [interpret]
  exact (warns_interpretVariety variety).bind fun _ => warns_pure _

private theorem SimpleType.warns_interpretVariety (v : Variety SimpleType) :
    (interpretVariety v).Warns := by
  cases v with
  | unstated => exact warns_pure _
  | restriction base facets => exact (Facet.warns_interpretAll facets).map _
  | list item t =>
    cases t with
    | none => exact warns_pure _
    | some t =>
      rw [interpretVariety]
      exact (warns_interpret t).bind fun _ => warns_pure _
  | union members ts =>
    rw [interpretVariety]
    exact (warns_interpretAll ts).map _

private theorem SimpleType.warns_interpretAll (ts : List SimpleType) : (interpretAll ts).Warns := by
  cases ts with
  | nil => exact warns_pure _
  | cons t ts =>
    rw [interpretAll]
    exact (warns_interpret t).bind fun _ => (warns_interpretAll ts).bind fun _ => warns_pure _

end

private theorem Attribute.warns_interpretAs (a : Attribute) (name : QName) :
    (a.interpretAs name).Warns := by
  have htype : a.interpretType.Warns := by
    rw [interpretType]
    split
    · exact warns_pure _
    · exact (SimpleType.warns_interpret _).bind fun _ => warns_pure _
    · exact warns_pure _
  exact htype.bind fun _ => warns_pure _

private theorem Attribute.warns_interpretUse (a : Attribute) : a.interpretUse.Warns := by
  rw [interpretUse]
  split
  · exact warns_pure _
  · exact (a.warns_interpretAs _).bind fun _ => warns_pure _

end Written

private theorem AttributeScope.warns_expandStack (scope : AttributeScope) (visited : List String)
    (stack : List (List Written.AttributeItem)) : (scope.expandStack visited stack).Warns := by
  fun_induction expandStack scope visited stack with
  | case1 visited => exact warns_pure _
  | case2 visited stack ih => exact ih
  | case3 visited a items stack ih =>
    exact a.warns_interpretUse.bind fun _ => ih.bind fun _ => warns_pure _
  | case4 visited name items stack inner htarget ih => exact ih
  | case5 visited name items stack uses htarget ih => exact ih.bind fun _ => warns_pure _
  | case6 visited name items stack htarget ih => exact ih

namespace Written

variable (scope : AttributeScope)

private theorem AttributeList.warns_interpret (l : AttributeList) : (l.interpret scope).Warns :=
  (scope.warns_expandStack _ _).bind fun _ => warns_pure _

namespace Particle

private theorem warns_interpretBound (bound text : String) (source : Option Location) :
    (interpretBound bound text source).Warns := by
  rw [interpretBound]
  split
  · exact warns_pure _
  · exact (warns_note _ _).bind fun _ => warns_pure _

private theorem warns_interpretOccurs (min max : Option String) (source : Option Location) :
    (interpretOccurs min max source).Warns := by
  have hmin : (interpretMin source min).Warns := by
    cases min with
    | none => exact warns_pure _
    | some text => exact warns_interpretBound _ _ source
  have hmax : (interpretMax source max).Warns := by
    cases max with
    | none => exact warns_pure _
    | some text =>
      simp only [interpretMax]
      split
      · exact warns_pure _
      · exact (warns_interpretBound _ _ source).map _
  exact hmin.bind fun _ => hmax.bind fun _ => warns_pure _

end Particle

mutual

private theorem Particle.warns_interpret (p : Particle) : (Particle.interpret scope p).Warns := by
  obtain ⟨min, max, term, source⟩ := p
  rw [Particle.interpret]
  exact (Particle.warns_interpretOccurs min max source).bind fun _ =>
    (Term.warns_interpret term).bind fun _ => warns_pure _

private theorem Term.warns_interpret (t : Term Particle) : (Term.interpret scope t).Warns := by
  cases t with
  | element e =>
    rw [Term.interpret]
    exact (Element.warns_interpretUse e).map _
  | wildcard w => exact warns_pure _
  | group name => exact warns_pure _
  | model kind children =>
    rw [Term.interpret]
    exact (Particle.warns_interpretAll children).bind fun _ => warns_pure _

private theorem Particle.warns_interpretAll (ps : List Particle) :
    (Particle.interpretAll scope ps).Warns := by
  cases ps with
  | nil => exact warns_pure _
  | cons p ps =>
    rw [Particle.interpretAll]
    exact (Particle.warns_interpret p).bind fun _ =>
      (Particle.warns_interpretAll ps).bind fun _ => warns_pure _

private theorem Particle.warns_interpretContent (p : Option Particle) :
    (Particle.interpretContent scope p).Warns := by
  cases p with
  | none => exact warns_pure _
  | some p =>
    rw [Particle.interpretContent]
    split
    · exact warns_pure _
    · exact (Particle.warns_interpret p).map _

private theorem ComplexContent.warns_interpretContent (c : ComplexContent Particle) :
    (ComplexContent.interpretContent scope c).Warns := by
  cases c with
  | direct particle attributes => exact Particle.warns_interpretContent particle
  | simple d => exact warns_pure _
  | complex d =>
    obtain ⟨method, base, particle, attributes⟩ := d
    exact Particle.warns_interpretContent particle

private theorem ComplexType.warns_interpret (t : ComplexType Particle) :
    (ComplexType.interpret scope t).Warns := by
  obtain ⟨name, documentation, source, isAbstract, mixed, content⟩ := t
  rw [ComplexType.interpret]
  exact (ComplexContent.warns_interpretContent content).bind fun _ =>
    (content.attributes.warns_interpret scope).bind fun _ => warns_pure _

private theorem TypeDefinition.warns_interpret (t : TypeDefinition Particle) :
    (TypeDefinition.interpret scope t).Warns := by
  cases t with
  | simple t => exact t.warns_interpret.map _
  | complex t =>
    rw [TypeDefinition.interpret]
    exact (ComplexType.warns_interpret t).map _

private theorem Element.warns_interpretType (typeName : Option QName)
    (anonymous : Option (TypeDefinition Particle)) :
    (Element.interpretType scope typeName anonymous).Warns := by
  cases anonymous with
  | none => exact warns_pure _
  | some t =>
    cases typeName with
    | some name => exact warns_pure _
    | none =>
      rw [Element.interpretType]
      exact (TypeDefinition.warns_interpret t).bind fun _ => warns_pure _

private theorem Element.warns_interpretUse (e : Element Particle) :
    (Element.interpretUse scope e).Warns := by
  obtain ⟨name, reference, typeName, anonymous, isAbstract, nillable, defaultValue, fixedValue,
    head, documentation, source⟩ := e
  cases reference with
  | some target => exact warns_pure _
  | none =>
    rw [Element.interpretUse]
    exact (Element.warns_interpretType typeName anonymous).bind fun _ => warns_pure _

end

private theorem Element.warns_interpretAs (e : Element Particle) (name : QName) :
    (e.interpretAs scope name).Warns :=
  (Element.warns_interpretType scope e.typeName e.anonymous).bind fun _ => warns_pure _

private theorem Group.warns_interpret (g : Group) : (g.interpret scope).Warns := by
  have hcontent : (g.interpretContent scope).Warns := by
    rw [interpretContent]
    split
    · exact (Particle.warns_interpretAll scope _).bind fun _ => warns_pure _
    · exact warns_pure _
  exact hcontent.bind fun _ => warns_pure _

end Written

namespace Registration

end Registration

namespace Written

namespace Item

def source : Item → Option Location
  | simpleType t => t.source
  | complexType t => t.source
  | .attribute a => a.source
  | element e => e.source
  | group g => g.source
  | attributeGroup g => g.source

/-- A named declaration of this kind, with its place. -/
def registration? (kind : ComponentKind) (item : Item) : Option Registration :=
  (item.declaredName? kind).map (⟨kind, ·, item.source⟩)

variable (kind : ComponentKind) (item : Item)

end Item

end Written

end XsdCatalog
