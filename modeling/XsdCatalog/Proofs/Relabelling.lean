import Mathlib.Data.List.Basic
import Mathlib.Data.List.Flatten
import XsdCatalog.Noted
import XsdCatalog.Written.Schema

/-!
# Relabelled schemas

A schema may be given other qualifiers for its names and other places for its declarations. A
relabelling does this to each label on its own, and it keeps what comparison looks at in names.
What does not read the labels turns a relabelled schema into a relabelled result.
-/

namespace XsdCatalog

/-- Other labels for names and places. The name that stands for a missing one keeps its label. -/
structure Relabelling where
  name : QName → QName
  place : Location → Location
  expanded_name : ∀ q, (name q).expanded = q.expanded
  name_unbound : name (.unbound "") = .unbound ""

namespace Relabelling

variable (r : Relabelling)

theorem spaceText_name (q : QName) : (r.name q).spaceText = q.spaceText :=
  congrArg (·.1) (r.expanded_name q)

theorem localName_name (q : QName) : (r.name q).localName = q.localName :=
  congrArg (·.2) (r.expanded_name q)

theorem key_name (q : QName) : (r.name q).key = q.key := by
  rw [QName.key, QName.key, spaceText_name, localName_name]

theorem isBuiltin_name (q : QName) : (r.name q).isBuiltin = q.isBuiltin := by
  rw [QName.isBuiltin, QName.isBuiltin, spaceText_name]

end Relabelling

def Diagnostic.relabel (r : Relabelling) (d : Diagnostic) : Diagnostic :=
  { d with location := d.location.map r.place }

namespace Noted

variable {α β : Type}

instance : LawfulMonad Noted :=
  .mk' Noted (fun x => by rfl) (fun a f => eq_of_value_of_notes rfl (by simp))
    (fun x f g => eq_of_value_of_notes rfl (by simp))

/-- The same value with notes at other places. -/
def moved (r : Relabelling) (x : Noted α) : Noted α :=
  ⟨x.value, x.notes.map (·.relabel r)⟩

variable (r : Relabelling)

@[simp] theorem value_moved (x : Noted α) : (x.moved r).value = x.value := rfl

@[simp] theorem notes_moved (x : Noted α) : (x.moved r).notes = x.notes.map (·.relabel r) := rfl

@[simp] theorem moved_pure (a : α) : (pure a : Noted α).moved r = pure a := rfl

@[simp] theorem moved_bind (x : Noted α) (f : α → Noted β) :
    (x >>= f).moved r = x.moved r >>= fun a => (f a).moved r :=
  eq_of_value_of_notes rfl (by simp)

@[simp] theorem moved_map (f : α → β) (x : Noted α) : (f <$> x).moved r = f <$> x.moved r :=
  eq_of_value_of_notes rfl (by simp)

@[simp] theorem moved_note (d : Diagnostic) : (note d).moved r = note (d.relabel r) := rfl

@[simp] theorem moved_noteIf (condition : Bool) (d : Diagnostic) :
    (noteIf condition d).moved r = noteIf condition (d.relabel r) := by
  cases condition <;> rfl

end Noted

/-- What relabelled parts have in a row is what the parts have, relabelled. -/
theorem flatMap_relabelled {α β : Type} {f : α → α} {g : β → β} {row row' : α → List β}
    (h : ∀ a, row' (f a) = (row a).map g) (as : List α) :
    (as.map f).flatMap row' = (as.flatMap row).map g := by
  rw [List.flatMap_map, List.map_flatMap]
  exact List.flatMap_congr fun a _ => h a

namespace Written

variable (r : Relabelling)

def Facet.relabel (f : Facet) : Facet :=
  { f with source := f.source.map r.place }

mutual

def SimpleType.relabel : SimpleType → SimpleType
  | ⟨name, documentation, source, variety⟩ =>
    ⟨name.map r.name, documentation, source.map r.place, SimpleType.relabelVariety variety⟩

def SimpleType.relabelVariety : Variety SimpleType → Variety SimpleType
  | .unstated => .unstated
  | .restriction base facets => .restriction (base.map r.name) (facets.map (·.relabel r))
  | .list item t => .list (item.map r.name) (SimpleType.relabelOption t)
  | .union members ts => .union (members.map r.name) (SimpleType.relabelAll ts)

def SimpleType.relabelOption : Option SimpleType → Option SimpleType
  | none => none
  | some t => some (SimpleType.relabel t)

def SimpleType.relabelAll : List SimpleType → List SimpleType
  | [] => []
  | t :: ts => SimpleType.relabel t :: SimpleType.relabelAll ts

end

def Wildcard.relabel (w : Wildcard) : Wildcard :=
  { w with source := w.source.map r.place }

def Attribute.relabel (a : Attribute) : Attribute :=
  { a with
    name := a.name.map r.name
    reference := a.reference.map r.name
    typeName := a.typeName.map r.name
    anonymous := a.anonymous.map (·.relabel r)
    source := a.source.map r.place }

def AttributeItem.relabel : AttributeItem → AttributeItem
  | .attribute a => .attribute (a.relabel r)
  | .group name => .group (r.name name)

def AttributeList.relabel (l : AttributeList) : AttributeList where
  items := l.items.map (·.relabel r)
  wildcard := l.wildcard.map (·.relabel r)

def AttributeGroup.relabel (g : AttributeGroup) : AttributeGroup :=
  { g with
    name := r.name g.name
    attributes := g.attributes.relabel r
    source := g.source.map r.place }

mutual

def Particle.relabel : Particle → Particle
  | ⟨min, max, term, source⟩ => ⟨min, max, Term.relabel term, source.map r.place⟩

def Term.relabel : Term Particle → Term Particle
  | .element e => .element (Element.relabel e)
  | .wildcard w => .wildcard (w.relabel r)
  | .group name => .group (r.name name)
  | .model kind children => .model kind (Particle.relabelAll children)

def Particle.relabelAll : List Particle → List Particle
  | [] => []
  | p :: ps => Particle.relabel p :: Particle.relabelAll ps

def Particle.relabelOption : Option Particle → Option Particle
  | none => none
  | some p => some (Particle.relabel p)

def Derivation.relabel : Derivation Particle → Derivation Particle
  | ⟨method, base, particle, attributes⟩ =>
    ⟨method, base.map r.name, Particle.relabelOption particle, attributes.relabel r⟩

def ComplexContent.relabel : ComplexContent Particle → ComplexContent Particle
  | .direct particle attributes => .direct (Particle.relabelOption particle) (attributes.relabel r)
  | .simple d => .simple (Derivation.relabel d)
  | .complex d => .complex (Derivation.relabel d)

def ComplexType.relabel : ComplexType Particle → ComplexType Particle
  | ⟨name, documentation, source, isAbstract, mixed, content⟩ =>
    ⟨name.map r.name, documentation, source.map r.place, isAbstract, mixed,
      ComplexContent.relabel content⟩

def TypeDefinition.relabel : TypeDefinition Particle → TypeDefinition Particle
  | .simple t => .simple (t.relabel r)
  | .complex t => .complex (ComplexType.relabel t)

def TypeDefinition.relabelOption :
    Option (TypeDefinition Particle) → Option (TypeDefinition Particle)
  | none => none
  | some t => some (TypeDefinition.relabel t)

def Element.relabel : Element Particle → Element Particle
  | ⟨name, reference, typeName, anonymous, isAbstract, nillable, defaultValue, fixedValue,
      substitutionHead, documentation, source⟩ =>
    ⟨name.map r.name, reference.map r.name, typeName.map r.name,
      TypeDefinition.relabelOption anonymous, isAbstract, nillable, defaultValue, fixedValue,
      substitutionHead.map r.name, documentation, source.map r.place⟩

end

def Group.relabel (g : Group) : Group :=
  { g with
    name := r.name g.name
    particle := g.particle.map (Particle.relabel r)
    source := g.source.map r.place }

def Item.relabel : Item → Item
  | simpleType t => simpleType (t.relabel r)
  | complexType t => complexType (t.relabel r)
  | .attribute a => .attribute (a.relabel r)
  | element e => element (e.relabel r)
  | group g => group (g.relabel r)
  | attributeGroup g => attributeGroup (g.relabel r)

def Schema.relabel (s : Schema) : Schema :=
  { s with
    items := s.items.map (·.relabel r)
    diagnostics := s.diagnostics.map (·.relabel r) }

@[simp] theorem SimpleType.relabelOption_eq (t : Option SimpleType) :
    SimpleType.relabelOption r t = t.map (·.relabel r) := by
  cases t <;> rfl

@[simp] theorem SimpleType.relabelAll_eq (ts : List SimpleType) :
    SimpleType.relabelAll r ts = ts.map (·.relabel r) := by
  induction ts with
  | nil => rfl
  | cons t ts ih => exact congrArg (t.relabel r :: ·) ih

@[simp] theorem Particle.relabelAll_eq (ps : List Particle) :
    Particle.relabelAll r ps = ps.map (·.relabel r) := by
  induction ps with
  | nil => rfl
  | cons p ps ih => exact congrArg (p.relabel r :: ·) ih

@[simp] theorem Particle.relabelOption_eq (p : Option Particle) :
    Particle.relabelOption r p = p.map (·.relabel r) := by
  cases p <;> rfl

theorem Derivation.relabel_eq (d : Derivation Particle) :
    d.relabel r
      = { d with
          base := d.base.map r.name
          particle := d.particle.map (·.relabel r)
          attributes := d.attributes.relabel r } := by
  cases d
  simp [relabel]

@[simp] theorem TypeDefinition.relabelOption_eq (t : Option (TypeDefinition Particle)) :
    TypeDefinition.relabelOption r t = t.map (·.relabel r) := by
  cases t <;> rfl

namespace Schema

variable (s : Schema)

/-- What is picked out of items by their kind is picked out of the relabelled ones. -/
theorem picked_relabel {α : Type} {pick : Item → Option α} {relabelled : α → α}
    (h : ∀ item, pick (item.relabel r) = (pick item).map relabelled) :
    (s.relabel r).items.filterMap pick = (s.items.filterMap pick).map relabelled := by
  rw [relabel, List.filterMap_map, List.map_filterMap]
  exact List.filterMap_congr fun item _ => h item

theorem elements_relabel : (s.relabel r).elements = s.elements.map (·.relabel r) :=
  picked_relabel r s fun item => by cases item <;> rfl

theorem complexTypes_relabel : (s.relabel r).complexTypes = s.complexTypes.map (·.relabel r) :=
  picked_relabel r s fun item => by cases item <;> rfl

theorem simpleTypes_relabel : (s.relabel r).simpleTypes = s.simpleTypes.map (·.relabel r) :=
  picked_relabel r s fun item => by cases item <;> rfl

theorem attributes_relabel : (s.relabel r).attributes = s.attributes.map (·.relabel r) :=
  picked_relabel r s fun item => by cases item <;> rfl

theorem groups_relabel : (s.relabel r).groups = s.groups.map (·.relabel r) :=
  picked_relabel r s fun item => by cases item <;> rfl

theorem attributeGroups_relabel :
    (s.relabel r).attributeGroups = s.attributeGroups.map (·.relabel r) :=
  picked_relabel r s fun item => by cases item <;> rfl

end Schema

end Written

end XsdCatalog
