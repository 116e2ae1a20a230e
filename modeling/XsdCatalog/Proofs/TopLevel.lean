import Mathlib.Data.List.Forall2
import XsdCatalog.Proofs.DuplicateWarnings
import XsdCatalog.Proofs.FragmentOfLocation
import XsdCatalog.Proofs.Lookups

/-!
# The top of a schema

Every construct at the top of a schema or in a redefinition is accounted for once: it is a reference
to another document, or an item, or passed over as documentation, or it gives one diagnostic at its
place.
-/

namespace XsdCatalog

open Written (Context Item Reference Schema readItem)

namespace SchemaElement

mutual

/-- The tags of the schema vocabulary stand in the tree in the same order. -/
theorem tags_sublist_of_ofNode? {n : Markup.Node} {e : SchemaElement} (h : ofNode? n = some e) :
    e.tags.Sublist (n.elements.map (·.1)) := by
  cases n with
  | element tag children =>
    obtain ⟨-, h⟩ := Option.ite_none_right_eq_some.1 h
    cases h
    rw [tags, Markup.Node.elements, List.map_cons]
    exact (tagsOfAll_sublist_of_ofNodes children).cons_cons tag
  | text s => cases h
  | comment s => cases h
  | instruction target body => cases h

private theorem tagsOfAll_sublist_of_ofNodes (ns : List Markup.Node) :
    (tagsOfAll (ofNodes ns)).Sublist ((Markup.Node.elementsOfAll ns).map (·.1)) := by
  cases ns with
  | nil => exact .slnil
  | cons n ns =>
    have hrest := tagsOfAll_sublist_of_ofNodes ns
    rw [ofNodes, tagsOfAll_append, Markup.Node.elementsOfAll, List.map_append]
    refine List.Sublist.append ?_ hrest
    cases he : ofNode? n with
    | none => exact List.nil_sublist _
    | some e =>
      rw [Option.toList_some, tagsOfAll, tagsOfAll, List.append_nil]
      exact tags_sublist_of_ofNode? he

end

end SchemaElement

/-- The local name of the elements that declare a component of this kind. -/
def ComponentKind.elementName : ComponentKind → String
  | element => "element"
  | complexType => "complexType"
  | simpleType => "simpleType"
  | .attribute => "attribute"
  | group => "group"
  | attributeGroup => "attributeGroup"

namespace Written

/-- The element is this reference to another document. -/
inductive Refers (e : SchemaElement) : Reference → Prop
  | inclusion (h : e.kind = "include") : Refers e (.inclusion (e.attribute? "schemaLocation"))
  | importing (h : e.kind = "import") :
    Refers e (.importing (e.attribute? "namespace") (e.attribute? "schemaLocation"))
  | redefinition (h : e.kind = "redefine") :
    Refers e (.redefinition (e.attribute? "schemaLocation"))

/-- What one construct adds to a schema. -/
structure Contribution where
  reference : Option Reference := none
  item : Option Item := none
  diagnostics : List Diagnostic := []

/-- What a construct gives that stands at the top or, if the mark is set, in a redefinition. -/
inductive Gives (ctx : Context) : SchemaElement × Bool → Contribution → Prop
  | reference {e : SchemaElement} {r : Reference} (h : Refers e r) :
    Gives ctx (e, false) { reference := some r }
  | silent {e : SchemaElement} {nested : Bool}
    (h : e.kind = "annotation" ∨ e.kind = "notation") : Gives ctx (e, nested) {}
  | component {e : SchemaElement} {nested : Bool} {kind : ComponentKind} {name : String}
    {item : Item} {notes : List Diagnostic} (hkind : e.kind = kind.elementName)
    (hname : e.attribute? "name" = some name)
    (hitem : item.registration? kind
      = some ⟨kind, .inSpace ctx.targetSpace name, some (ctx.location e)⟩)
    (hnotes : ∀ d ∈ notes, d.location ∈ (ctx.places e.tags).map some) :
    Gives ctx (e, nested) { item := some item, diagnostics := notes }
  | nameless {e : SchemaElement} {nested : Bool} {kind : ComponentKind}
    (hkind : e.kind = kind.elementName) (hname : e.attribute? "name" = none) :
    Gives ctx (e, nested)
      { diagnostics := [ctx.error e ("Global xs:" ++ e.kind ++ " missing name")] }
  | unsupported {e : SchemaElement} {nested : Bool}
    (hsilent : ¬ (e.kind = "annotation" ∨ e.kind = "notation"))
    (hkind : ∀ kind : ComponentKind, e.kind ≠ kind.elementName)
    (hreference : nested = false → ∀ r, ¬ Refers e r) :
    Gives ctx (e, nested)
      { diagnostics := [ctx.warning e ("Unsupported top-level xs:" ++ e.kind ++ " ignored")] }

variable (ctx : Context)

/-- The tags of a construct. Those inside a redefinition belong to the constructs there. -/
def ownTags (p : SchemaElement × Bool) : List Markup.Tag :=
  if p.2 = false ∧ p.1.kind = "redefine" then [p.1.tag] else p.1.tags

private theorem tag_mem_ownTags (p : SchemaElement × Bool) : p.1.tag ∈ ownTags p := by
  rw [ownTags]
  split
  · exact List.mem_cons_self
  · exact p.1.tag_mem_tags

variable {ctx} in
private theorem Gives.places {p : SchemaElement × Bool} {c : Contribution} (h : Gives ctx p c) :
    ∀ d ∈ c.diagnostics, d.location ∈ (ctx.places (ownTags p)).map some := by
  have hown (e : SchemaElement) (nested : Bool) :
      some (ctx.location e) ∈ (ctx.places (ownTags (e, nested))).map some :=
    List.mem_map_of_mem (List.mem_map_of_mem (tag_mem_ownTags (e, nested)))
  cases h with
  | reference h => exact List.forall_mem_nil _
  | silent h => exact List.forall_mem_nil _
  | @component e nested kind name item notes hkind hname hitem hnotes =>
    have htags : ownTags (e, nested) = e.tags := by
      refine if_neg fun h => ?_
      have hredefine : kind.elementName = "redefine" := hkind ▸ h.2
      cases kind <;> exact absurd hredefine (by decide)
    rw [htags]
    exact hnotes
  | @nameless e nested => exact List.forall_mem_singleton.2 (hown e nested)
  | @unsupported e nested => exact List.forall_mem_singleton.2 (hown e nested)

variable {ctx} in
/-- What gives no item has its diagnostics at its own place. -/
theorem Gives.place {p : SchemaElement × Bool} {c : Contribution} (h : Gives ctx p c)
    (hitem : c.item = none) : ∀ d ∈ c.diagnostics, d.location = some (ctx.location p.1) := by
  cases h with
  | reference h => exact List.forall_mem_nil _
  | silent h => exact List.forall_mem_nil _
  | component => cases hitem
  | nameless => exact List.forall_mem_singleton.2 rfl
  | unsupported => exact List.forall_mem_singleton.2 rfl

end Written

end XsdCatalog
