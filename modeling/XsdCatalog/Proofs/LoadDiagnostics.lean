import Mathlib.Data.List.Basic
import XsdCatalog.Catalog.Load
import XsdCatalog.Proofs.Filing

/-!
# The diagnostics of loading

Loading warns about the registrations that repeat an earlier one of their kind and key, in the order
in which the passes make them, and notes what is found where declarations are interpreted, in the
order in which the passes interpret them. Neither depends on the other, and no warning depends on
what a declaration means.
-/

namespace XsdCatalog

open Written (Item Schema)
open Catalog (LoadOptions)

namespace Written.Item

variable (scope : AttributeScope)

/-- What is noted about an item in the first pass. -/
def groupNotes : Item → List Diagnostic
  | group g => (g.interpret scope).notes
  | _ => []

/-- What is noted about a type or an attribute. -/
def typeNotes : Item → List Diagnostic
  | simpleType t => t.interpret.notes
  | complexType t => (t.interpret scope).notes
  | .attribute a => a.interpretGlobal.notes
  | _ => []

/-- What is noted about an element. -/
def elementNotes : Item → List Diagnostic
  | element e => (e.interpretGlobal scope).notes
  | _ => []

end Written.Item

/-- What is noted about schemas. -/
def Written.Schema.notesOf (scope : AttributeScope) (schemas : List Schema) : List Diagnostic :=
  schemas.flatMap (fun s => s.items.flatMap (Item.groupNotes scope))
    ++ schemas.flatMap fun s =>
      s.items.flatMap (Item.typeNotes scope)
        ++ s.attributeGroups.flatMap (fun g => (g.expand scope).notes)
        ++ s.items.flatMap (Item.elementNotes scope)

namespace Registration

/-- What makes two registrations duplicates. -/
def id (r : Registration) : ComponentKind × String :=
  (r.kind, r.name.key)

/-- The registrations that repeat one that was seen or an earlier one. -/
def repeated (seen : List (ComponentKind × String)) : List Registration → List Registration
  | [] => []
  | r :: rs =>
    if r.id ∈ seen then r :: repeated (r.id :: seen) rs else repeated (r.id :: seen) rs

/-- What was seen behind a row of registrations, last one first. -/
def seenAfter (seen : List (ComponentKind × String)) (rs : List Registration) :
    List (ComponentKind × String) :=
  (rs.map id).reverse ++ seen

theorem repeated_append (seen : List (ComponentKind × String)) (rs rs' : List Registration) :
    repeated seen (rs ++ rs') = repeated seen rs ++ repeated (seenAfter seen rs) rs' := by
  induction rs generalizing seen with
  | nil => rfl
  | cons r rs ih =>
    have hseen : seenAfter (r.id :: seen) rs = seenAfter seen (r :: rs) := by
      simp [seenAfter]
    rw [List.cons_append, repeated, repeated, ih, hseen]
    by_cases h : r.id ∈ seen
    · rw [if_pos h, if_pos h, List.cons_append]
    · rw [if_neg h, if_neg h]

theorem repeated_eq_nil {seen : List (ComponentKind × String)} {rs : List Registration}
    (hn : (rs.map id).Nodup) (hs : ∀ r ∈ rs, r.id ∉ seen) : repeated seen rs = [] := by
  induction rs generalizing seen with
  | nil => rfl
  | cons r rs ih =>
    rw [List.map_cons, List.nodup_cons] at hn
    rw [repeated, if_neg (hs r List.mem_cons_self)]
    refine ih hn.2 fun r' hr' hm => ?_
    rcases List.mem_cons.1 hm with he | hm
    · exact hn.1 (he ▸ List.mem_map_of_mem hr')
    · exact hs r' (List.mem_cons_of_mem _ hr') hm

end Registration

/-- All registrations, in the order in which the passes make them. -/
def Written.Schema.registrations (schemas : List Schema) : List Registration :=
  schemas.flatMap (fun s => s.items.filterMap Item.groupRegistration?)
    ++ schemas.flatMap fun s =>
      s.items.filterMap Item.typeRegistration? ++ s.items.filterMap Item.elementRegistration?

namespace Builder

open Registration (repeated seenAfter)

/-- What a step notes goes in front of the notes, so a run of steps notes in order. -/
theorem notes_foldl {σ : Type} {f : Builder → σ → Builder} {g : σ → List Diagnostic}
    (h : ∀ b x, (f b x).notes = (g x).reverse ++ b.notes) (xs : List σ) (b : Builder) :
    (xs.foldl f b).notes = (xs.flatMap g).reverse ++ b.notes := by
  induction xs generalizing b with
  | nil => rfl
  | cons x xs ih =>
    rw [List.foldl_cons, ih, h, List.flatMap_cons, List.reverse_append, List.append_assoc]

private theorem flatMap_zipIdx {α β : Type} (g : α → List β) (as : List α) :
    as.zipIdx.flatMap (fun p => g p.1) = as.flatMap g := by
  conv_rhs => rw [← List.zipIdx_map_fst 0 as, List.flatMap_map]

section Notes

variable (scope : AttributeScope) (options : LoadOptions) (document : Nat) (b : Builder)

private theorem notes_addGroup (item : Item) :
    (addGroup scope options document b item).notes
      = (item.groupNotes scope).reverse ++ b.notes := by
  cases item <;> rfl

private theorem notes_addType (item : Item) :
    (addType scope options document b item).notes
      = (item.typeNotes scope).reverse ++ b.notes := by
  cases item with
  | «attribute» a =>
    simp only [addType, Item.typeNotes, Written.Attribute.interpretGlobal]
    cases a.name <;> rfl
  | _ => rfl

private theorem notes_addElement (item : Item) :
    (addElement scope options document b item).notes
      = (item.elementNotes scope).reverse ++ b.notes := by
  cases item with
  | element e =>
    simp only [addElement, Item.elementNotes, Written.Element.interpretGlobal]
    cases e.name <;> rfl
  | _ => rfl

private theorem notes_addOthers (s : Schema × Nat) :
    (addOthers scope options b s).notes
      = (s.1.items.flatMap (Item.typeNotes scope)
          ++ s.1.attributeGroups.flatMap (fun g => (g.expand scope).notes)
          ++ s.1.items.flatMap (Item.elementNotes scope)).reverse ++ b.notes := by
  have hfill (b : Builder) := notes_foldl (f := fillGroup scope s.2)
    (g := fun p => (p.1.expand scope).notes) (fun _ _ => rfl) s.1.attributeGroups.zipIdx b
  rw [addOthers, notes_foldl (notes_addElement scope options s.2), hfill,
    flatMap_zipIdx fun g : Written.AttributeGroup => (g.expand scope).notes,
    notes_foldl (notes_addType scope options s.2)]
  simp only [List.reverse_append, List.append_assoc]

private theorem notes_addSchemas (schemas : List Schema) :
    (addSchemas scope options schemas).notes = (Schema.notesOf scope schemas).reverse := by
  have hgroups (b : Builder) := notes_foldl (f := addGroups scope options)
    (g := fun s => s.1.items.flatMap (Item.groupNotes scope))
    (fun b s => notes_foldl (notes_addGroup scope options s.2) s.1.items b) schemas.zipIdx b
  rw [addSchemas, notes_foldl (notes_addOthers scope options), hgroups,
    flatMap_zipIdx fun s : Schema => s.items.flatMap (Item.groupNotes scope),
    flatMap_zipIdx fun s : Schema => s.items.flatMap (Item.typeNotes scope)
      ++ s.attributeGroups.flatMap (fun g => (g.expand scope).notes)
      ++ s.items.flatMap (Item.elementNotes scope), Schema.notesOf, List.reverse_append]
  exact congrArg (_ ++ ·) (List.append_nil _)

end Notes

/-- These registrations have been made. -/
def Holds (b : Builder) (seen : List (ComponentKind × String)) : Prop :=
  ∀ kind key, b.holds kind key = true ↔ (kind, key) ∈ seen

/-- A change of a builder makes a row of registrations: it warns about those repeated, and all are
held behind it. -/
structure Registers (options : LoadOptions) (f : Builder → Builder) (rs : List Registration) :
    Prop where
  holds : ∀ b seen, Holds b seen → Holds (f b) (seenAfter seen rs)
  warnings : ∀ b seen, Holds b seen → (f b).warnings
    = if options.reportDuplicates then
        ((repeated seen rs).map (·.duplicate)).reverse ++ b.warnings
      else b.warnings

section Warnings

variable {options : LoadOptions}

private theorem registers_id : Registers options (fun b => b) [] where
  holds _ _ hb := hb
  warnings _ _ _ := by cases options.reportDuplicates <;> rfl

private theorem Registers.comp {f f' : Builder → Builder} {rs rs' : List Registration}
    (h : Registers options f rs) (h' : Registers options f' rs') :
    Registers options (fun b => f' (f b)) (rs ++ rs') where
  holds b seen hb := by
    have hb' := h'.holds _ _ (h.holds b seen hb)
    simpa [seenAfter] using hb'
  warnings b seen hb := by
    rw [h'.warnings _ _ (h.holds b seen hb), h.warnings b seen hb, Registration.repeated_append]
    cases options.reportDuplicates with
    | false => rfl
    | true => simp

private theorem registers_foldl {σ : Type} {f : Builder → σ → Builder} {g : σ → List Registration}
    (h : ∀ x, Registers options (f · x) (g x)) (xs : List σ) :
    Registers options (xs.foldl f ·) (xs.flatMap g) := by
  induction xs with
  | nil => exact registers_id
  | cons x xs ih => exact (h x).comp ih

/-- A step that makes one registration at most. -/
theorem registers_of_warned {f : Builder → Builder} {r : Option Registration}
    (hw : ∀ b, (f b).warnings = b.warned options r)
    (hh : ∀ b kind key, (f b).holds kind key = true ↔
      b.holds kind key = true ∨ r.map (·.id) = some (kind, key)) :
    Registers options f r.toList where
  holds b seen hb kind key := by
    rw [hh, hb]
    cases r with
    | none => simp [seenAfter]
    | some r => simp [seenAfter, or_comm, eq_comm]
  warnings b seen hb := by
    rw [hw]
    cases r with
    | none => cases options.reportDuplicates <;> rfl
    | some r =>
      have hid : b.holds r.kind r.name.key = true ↔ r.id ∈ seen := hb r.kind r.name.key
      by_cases hs : r.id ∈ seen
      · cases hrep : options.reportDuplicates <;> simp [warned, repeated, hs, hid.2 hs, hrep]
      · have hnot : b.holds r.kind r.name.key = false := Bool.eq_false_iff.2 fun h => hs (hid.1 h)
        cases hrep : options.reportDuplicates <;> simp [warned, repeated, hs, hnot]

private theorem contains_insert {α : Type} (registry : Registry α) (key other : String) (a : α) :
    (registry.insert key a).contains other = true ↔
      registry.contains other = true ∨ key = other := by
  rw [Registry.contains, Registry.contains, Registry.get?_insert]
  by_cases h : other = key
  · simp [h]
  · simp [h, Ne.symm h]

private theorem contains_put {α : Type} (document : Nat) (name : Option QName) (shelf : Shelf α)
    (a : α) (key : String) :
    (shelf.put document name a).registry.contains key = true ↔
      shelf.registry.contains key = true ∨ name.map (·.key) = some key := by
  cases name with
  | none => simp [Shelf.put]
  | some n => simpa [Shelf.put] using contains_insert shelf.registry n.key key _

variable (scope : AttributeScope) (document : Nat) (item : Item)

private theorem registers_addGroup :
    Registers options (addGroup scope options document · item)
      item.groupRegistration?.toList := by
  refine registers_of_warned (fun b => by cases item <;> rfl) fun b kind key => ?_
  cases item with
  | group g =>
    cases kind <;>
      simp [addGroup, holds, contains_put, Item.groupRegistration?, Registration.id]
  | attributeGroup g =>
    cases kind <;>
      simp [addGroup, holds, contains_insert, Item.groupRegistration?, Registration.id]
  | _ => simp [addGroup, Item.groupRegistration?]

private theorem registers_addType :
    Registers options (addType scope options document · item) item.typeRegistration?.toList := by
  refine registers_of_warned (fun b => ?_) fun b kind key => ?_
  · cases item with
    | «attribute» a =>
      simp only [addType, Item.typeRegistration?]
      cases a.name <;> rfl
    | _ => rfl
  · cases item with
    | simpleType t =>
      cases kind <;> cases hn : t.name <;>
        simp [addType, holds, contains_put, Item.typeRegistration?, Registration.id, hn]
    | complexType t =>
      cases kind <;> cases hn : t.name <;>
        simp [addType, holds, contains_put, Item.typeRegistration?, Registration.id, hn]
    | «attribute» a =>
      cases kind <;> cases hn : a.name <;>
        simp [addType, holds, contains_put, Item.typeRegistration?, Registration.id, hn]
    | _ => simp [addType, Item.typeRegistration?]

private theorem registers_addElement :
    Registers options (addElement scope options document · item)
      item.elementRegistration?.toList := by
  refine registers_of_warned (fun b => ?_) fun b kind key => ?_
  · cases item with
    | element e =>
      simp only [addElement, Item.elementRegistration?]
      cases e.name <;> rfl
    | _ => rfl
  · cases item with
    | element e =>
      cases kind <;> cases hn : e.name <;>
        simp [addElement, holds, contains_put, Item.elementRegistration?, Registration.id, hn]
    | _ => simp [addElement, Item.elementRegistration?]

private theorem registers_fillGroup (place : Written.AttributeGroup × Nat) :
    Registers options (fillGroup scope document · place) [] :=
  registers_of_warned (r := none) (fun _ => rfl) fun b kind key => by
    cases kind <;> simp [fillGroup, holds]

private theorem registers_addGroups (s : Schema × Nat) :
    Registers options (addGroups scope options · s)
      (s.1.items.filterMap Item.groupRegistration?) := by
  have h := registers_foldl (@registers_addGroup options scope s.2) s.1.items
  rwa [← List.filterMap_eq_flatMap_toList] at h

private theorem registers_addOthers (s : Schema × Nat) :
    Registers options (addOthers scope options · s)
      (s.1.items.filterMap Item.typeRegistration?
        ++ s.1.items.filterMap Item.elementRegistration?) := by
  have htypes := registers_foldl (@registers_addType options scope s.2) s.1.items
  have hfill := registers_foldl (@registers_fillGroup options scope s.2)
    s.1.attributeGroups.zipIdx
  have helements := registers_foldl (@registers_addElement options scope s.2) s.1.items
  rw [List.flatMap_eq_nil_iff.2 fun _ _ => rfl] at hfill
  have h := (htypes.comp hfill).comp helements
  rwa [← List.filterMap_eq_flatMap_toList, ← List.filterMap_eq_flatMap_toList,
    List.append_nil] at h

private theorem holds_start (documents : Nat) : Holds (start documents) [] := by
  intro kind key
  cases kind <;> simp [start, holds, Registry.contains, Registry.get?]

private theorem warnings_addSchemas (schemas : List Schema) :
    (addSchemas scope options schemas).warnings
      = if options.reportDuplicates then
          ((repeated [] (Schema.registrations schemas)).map (·.duplicate)).reverse
        else [] := by
  have hgroups := registers_foldl (@registers_addGroups options scope) schemas.zipIdx
  have hothers := registers_foldl (@registers_addOthers options scope) schemas.zipIdx
  have h := (hgroups.comp hothers).warnings (start schemas.length) [] (holds_start _)
  rw [flatMap_zipIdx fun s : Schema => s.items.filterMap Item.groupRegistration?,
    flatMap_zipIdx fun s : Schema => s.items.filterMap Item.typeRegistration?
      ++ s.items.filterMap Item.elementRegistration?] at h
  rw [addSchemas, h, Schema.registrations]
  cases options.reportDuplicates with
  | false => rfl
  | true => exact List.append_nil _

end Warnings

end Builder

/-- The diagnostics of the schemas, then the warnings, then the notes. -/
theorem Catalog.diagnostics_load (schemas : List Schema) (options : LoadOptions) :
    (Catalog.load schemas options).diagnostics
      = schemas.flatMap (·.diagnostics)
        ++ (if options.reportDuplicates then
            (Registration.repeated [] (Schema.registrations schemas)).map (·.duplicate)
          else [])
        ++ Schema.notesOf (.ofSchemas schemas) schemas := by
  rw [Catalog.load, Builder.finish, Builder.warnings_addSchemas, Builder.notes_addSchemas,
    List.reverse_reverse]
  cases options.reportDuplicates with
  | false => rfl
  | true => exact congrArg (_ ++ · ++ _) (List.reverse_reverse _)

end XsdCatalog
