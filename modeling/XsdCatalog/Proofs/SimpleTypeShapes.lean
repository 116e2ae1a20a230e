import Mathlib.Data.List.Forall2
import XsdCatalog.Interpretation.SimpleType

/-!
# The shape of simple types

A written simple type stands for one of the same shape, with lists and unions nested as they are
written. Each facet stands for one facet with its value; its name without blanks tells the kind,
and only four kinds can be fixed. Noted are the facets under other names than the twelve, each once
and in the order in which they are written.
-/

namespace XsdCatalog

namespace FacetKind

/-- The kinds of facets that can be fixed, under the names of their elements. -/
def fixable : List (String × FacetKind) :=
  [("length", length), ("minLength", minLength), ("maxLength", maxLength),
    ("whiteSpace", whiteSpace)]

/-- The kinds of facets that cannot be fixed, under the names of their elements. -/
def unfixable : List (String × FacetKind) :=
  [("pattern", pattern), ("enumeration", enumeration), ("maxInclusive", maxInclusive),
    ("maxExclusive", maxExclusive), ("minInclusive", minInclusive), ("minExclusive", minExclusive),
    ("totalDigits", totalDigits), ("fractionDigits", fractionDigits)]

/-- The names of the elements that write facets. -/
def names : List String :=
  (fixable ++ unfixable).map (·.1)

private theorem mem_fixable {kind : FacetKind} (h : kind.supportsFixed = true) :
    (kind.elementName, kind) ∈ fixable := by
  cases kind <;> simp [fixable, elementName, supportsFixed] at h ⊢

private theorem mem_unfixable {kind : FacetKind} (h : kind.supportsFixed = false) :
    (kind.elementName, kind) ∈ unfixable := by
  cases kind <;> simp [unfixable, elementName, supportsFixed] at h ⊢

private theorem perm_names : names.Perm (all.map elementName) := by
  decide

private theorem elementName_of_ofElementName? {name : String} {kind : FacetKind}
    (h : ofElementName? name = some kind) : kind.elementName = name := by
  have hfound := List.find?_some h
  exact eq_of_beq hfound

/-- The search misses none of the twelve names. -/
theorem ofElementName?_eq_none_iff {name : String} : ofElementName? name = none ↔ name ∉ names := by
  simp only [perm_names.mem_iff, ofElementName?, List.find?_eq_none, beq_iff_eq, List.mem_map,
    not_exists, not_and]

end FacetKind

namespace Written

namespace Facet

/-- The name of the facet, without the blanks around it, is none of the twelve. -/
def isUnknown (w : Facet) : Bool :=
  !FacetKind.names.contains (Text.trim w.kind)

/-- What is noted of a facet with an unknown name. -/
def unknownWarning (w : Facet) : Diagnostic :=
  .warning ("unknown facet '" ++ w.kind ++ "', mapped as pattern") w.source

/-- The kind that a written facet is of, and whether it is fixed. -/
inductive Denotes (w : Facet) : FacetKind → Bool → Prop
  | fixable {kind : FacetKind} (h : (Text.trim w.kind, kind) ∈ FacetKind.fixable) :
      Denotes w kind w.fixed
  | unfixable {kind : FacetKind} (h : (Text.trim w.kind, kind) ∈ FacetKind.unfixable) :
      Denotes w kind false
  | unknown (h : w.isUnknown = true) : Denotes w .pattern false

/-- A written facet stands for a facet of its kind with its value. -/
structure StandsAs (w : Facet) (f : XsdCatalog.Facet) : Prop where
  value : f.value = w.value.getD ""
  kind : w.Denotes f.kind f.fixed

private theorem isUnknown_iff {w : Facet} :
    w.isUnknown = true ↔ FacetKind.ofElementName? (Text.trim w.kind) = none := by
  rw [FacetKind.ofElementName?_eq_none_iff, isUnknown, Bool.not_eq_true', ← Bool.not_eq_true,
    List.contains_iff_mem]

private theorem standsAs_interpret (w : Facet) : w.StandsAs w.interpret.value := by
  rw [interpret]
  cases hkind : FacetKind.ofElementName? (Text.trim w.kind) with
  | none => exact ⟨rfl, .unknown (isUnknown_iff.2 hkind)⟩
  | some kind =>
    have hname := FacetKind.elementName_of_ofElementName? hkind
    refine ⟨rfl, ?_⟩
    show w.Denotes kind (w.fixed && kind.supportsFixed)
    cases hfixed : kind.supportsFixed with
    | true =>
      rw [Bool.and_true]
      exact .fixable (hname ▸ FacetKind.mem_fixable hfixed)
    | false =>
      rw [Bool.and_false]
      exact .unfixable (hname ▸ FacetKind.mem_unfixable hfixed)

private theorem notes_interpret (w : Facet) :
    w.interpret.notes = if w.isUnknown then [w.unknownWarning] else [] := by
  rw [interpret]
  cases hkind : FacetKind.ofElementName? (Text.trim w.kind) with
  | none =>
    rw [if_pos (isUnknown_iff.2 hkind)]
    rfl
  | some kind =>
    have hknown : ¬ w.isUnknown = true := by
      rw [isUnknown_iff, hkind]
      exact nofun
    rw [if_neg hknown]
    rfl

private theorem standsAs_interpretAll (ws : List Facet) :
    List.Forall₂ StandsAs ws (interpretAll ws).value := by
  induction ws with
  | nil => exact .nil
  | cons w ws ih => exact .cons w.standsAs_interpret ih

/-- What is noted of a row of facets. -/
def warnings (ws : List Facet) : List Diagnostic :=
  (ws.filter isUnknown).map unknownWarning

private theorem warnings_cons (w : Facet) (ws : List Facet) :
    warnings (w :: ws) = (if w.isUnknown then [w.unknownWarning] else []) ++ warnings ws := by
  rw [warnings, List.filter_cons]
  split <;> rfl

private theorem warnings_append (ws vs : List Facet) :
    warnings (ws ++ vs) = warnings ws ++ warnings vs := by
  rw [warnings, List.filter_append, List.map_append]
  rfl

private theorem notes_interpretAll (ws : List Facet) : (interpretAll ws).notes = warnings ws := by
  induction ws with
  | nil => rfl
  | cons w ws ih =>
    rw [warnings_cons, ← notes_interpret, ← ih]
    simp [interpretAll]

end Facet

mutual

/-- The facets of a written simple type and of the types inside it, in the order in which they are
written. -/
def SimpleType.facets : SimpleType → List Facet
  | ⟨_, _, _, variety⟩ => SimpleType.facetsOfVariety variety

def SimpleType.facetsOfVariety : Variety SimpleType → List Facet
  | .unstated => []
  | .restriction _ facets => facets
  | .list _ none => []
  | .list _ (some t) => t.facets
  | .union _ ts => SimpleType.facetsOfAll ts

def SimpleType.facetsOfAll : List SimpleType → List Facet
  | [] => []
  | t :: ts => t.facets ++ SimpleType.facetsOfAll ts

end

mutual

/-- A written simple type stands for one of the same name, source and variety. -/
inductive SimpleType.StandsAs : SimpleType → XsdCatalog.SimpleType → Prop
  | intro (name : Option QName) (documentation : List String) (source : Option Location)
      {w : Variety SimpleType} {v : XsdCatalog.Variety XsdCatalog.SimpleType}
      (h : Variety.StandsAs w v) :
      SimpleType.StandsAs ⟨name, documentation, source, w⟩
        ⟨name, Documentation.join documentation, source, v⟩

/-- Names stay, and facets and types inside stand for facets and types one for one. -/
inductive Variety.StandsAs :
    Variety SimpleType → XsdCatalog.Variety XsdCatalog.SimpleType → Prop
  | unstated : Variety.StandsAs .unstated .builtin
  | restriction (base : Option QName) {ws : List Facet} {fs : List XsdCatalog.Facet}
      (h : List.Forall₂ Facet.StandsAs ws fs) :
      Variety.StandsAs (.restriction base ws) (.restriction base fs)
  | namedItem (item : Option QName) : Variety.StandsAs (.list item none) (.list item none)
  | list (item : Option QName) {w : SimpleType} {t : XsdCatalog.SimpleType}
      (h : SimpleType.StandsAs w t) : Variety.StandsAs (.list item (some w)) (.list item (some t))
  | union (members : List QName) {ws : List SimpleType} {ts : List XsdCatalog.SimpleType}
      (h : List.Forall₂ SimpleType.StandsAs ws ts) :
      Variety.StandsAs (.union members ws) (.union members ts)

end

mutual

private theorem SimpleType.standsAs_interpret : (w : SimpleType) → w.StandsAs w.interpret.value
  | ⟨name, documentation, source, variety⟩ =>
    .intro name documentation source (SimpleType.standsAs_interpretVariety variety)

private theorem SimpleType.standsAs_interpretVariety : (w : Variety SimpleType) →
    w.StandsAs (SimpleType.interpretVariety w).value
  | .unstated => .unstated
  | .restriction base facets => .restriction base (Facet.standsAs_interpretAll facets)
  | .list item none => .namedItem item
  | .list item (some t) => .list item (SimpleType.standsAs_interpret t)
  | .union members ts => .union members (SimpleType.standsAs_interpretAll ts)

private theorem SimpleType.standsAs_interpretAll : (ws : List SimpleType) →
    List.Forall₂ SimpleType.StandsAs ws (SimpleType.interpretAll ws).value
  | [] => .nil
  | w :: ws => .cons (SimpleType.standsAs_interpret w) (SimpleType.standsAs_interpretAll ws)

end

mutual

private theorem SimpleType.notes_interpret : (w : SimpleType) →
    w.interpret.notes = Facet.warnings w.facets
  | ⟨name, documentation, source, variety⟩ => by
    have hvariety := SimpleType.notes_interpretVariety variety
    simpa only [SimpleType.interpret, SimpleType.facets, Noted.notes_bind, Noted.notes_pure,
      List.append_nil] using hvariety

private theorem SimpleType.notes_interpretVariety : (w : Variety SimpleType) →
    (SimpleType.interpretVariety w).notes = Facet.warnings (SimpleType.facetsOfVariety w)
  | .unstated => rfl
  | .restriction base facets => Facet.notes_interpretAll facets
  | .list item none => rfl
  | .list item (some t) => by
    have hitem := SimpleType.notes_interpret t
    simpa only [SimpleType.interpretVariety, SimpleType.facetsOfVariety, Noted.notes_bind,
      Noted.notes_pure, List.append_nil] using hitem
  | .union members ts => SimpleType.notes_interpretAll ts

private theorem SimpleType.notes_interpretAll : (ws : List SimpleType) →
    (SimpleType.interpretAll ws).notes = Facet.warnings (SimpleType.facetsOfAll ws)
  | [] => rfl
  | w :: ws => by
    have hfirst := SimpleType.notes_interpret w
    have hrest := SimpleType.notes_interpretAll ws
    simp only [SimpleType.interpretAll, SimpleType.facetsOfAll, Facet.warnings_append,
      Noted.notes_bind, Noted.notes_pure, List.append_nil, hfirst, hrest]

end

/-- Simple types keep their shape and lose no facet, at any depth, and all that is noted of them are
their facets with unknown names, one by one where they stand. -/
theorem SimpleType.shape_of_interpret (w : SimpleType) :
    w.StandsAs w.interpret.value ∧
      w.interpret.notes = (w.facets.filter (·.isUnknown)).map (·.unknownWarning) :=
  ⟨w.standsAs_interpret, w.notes_interpret⟩

end Written

end XsdCatalog
