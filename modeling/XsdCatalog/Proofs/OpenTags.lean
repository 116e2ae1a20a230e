import XsdCatalog.Proofs.Bindings

/-!
# Tags around an element

The start tags that are open where an element stands are read off the events of the document. What
a qualifier is bound to in the element is said by the innermost of these tags, its own included,
with an attribute that binds the qualifier.
-/

namespace XsdCatalog.Markup

/-- The attributes of the start tags that are open, innermost first, and those of tags without an
end, which belong to the next tag. -/
structure OpenTags where
  scopes : List (List (TagName × String)) := []
  pending : List (TagName × String) := []

namespace OpenTags

def step (o : OpenTags) : Event → OpenTags
  | .start _ _ attributes => { scopes := (o.pending ++ attributes) :: o.scopes }
  | .cut _ attributes => { o with pending := o.pending ++ attributes }
  | .stop _ => { scopes := o.scopes.tail }
  | _ => o

/-- The tags that are open behind events. -/
def behind (events : List Event) : OpenTags :=
  events.foldl step {}

private theorem behind_append_singleton (events : List Event) (event : Event) :
    behind (events ++ [event]) = (behind events).step event := by
  rw [behind, List.foldl_append]
  rfl

end OpenTags

/-- The value of the attribute that binds a qualifier in the innermost tag with one. -/
def innermost? (scopes : List (List (TagName × String))) (qualifier : String) : Option String :=
  scopes.findSome? fun attributes => (attributes.find? (·.1.binds qualifier)).map (·.2)

/-- The tag is made from a start tag among events, with the attributes `own`, inside tags with the
attributes `outer`. -/
structure MadeFrom (events : List Event) (tag : Tag) (own : List (TagName × String))
    (outer : List (List (TagName × String))) : Prop where
  exists_start : ∃ before name attributes after bindings,
    events = before ++ .start tag.position name attributes :: after ∧
      own = (OpenTags.behind before).pending ++ attributes ∧
      outer = (OpenTags.behind before).scopes ∧
      Tag.make? bindings tag.position name own = some tag
  bound : ∀ qualifier, Tag.lookup? tag.bindings qualifier = innermost? (own :: outer) qualifier

private theorem MadeFrom.append {events : List Event} {tag : Tag} {own : List (TagName × String)}
    {outer : List (List (TagName × String))} (h : MadeFrom events tag own outer)
    (more : List Event) : MadeFrom (events ++ more) tag own outer where
  exists_start := by
    obtain ⟨before, name, attributes, after, bindings, rfl, hown, houter, htag⟩ := h.exists_start
    exact ⟨before, name, attributes, after ++ more, bindings, List.append_assoc .., hown, houter,
      htag⟩
  bound := h.bound

/-- A tag binds a qualifier if one of its attributes does, and else as the tags around it. -/
theorem Tag.lookup?_of_make? {outer : List Binding} {position : Position} {name : TagName}
    {as : List (TagName × String)} {tag : Tag} (h : make? outer position name as = some tag)
    (qualifier : String) :
    lookup? tag.bindings qualifier
      = ((as.find? (·.1.binds qualifier)).map (·.2)).or (lookup? outer qualifier) := by
  obtain ⟨own, others, hdeclare, hbindings⟩ := exists_declare_of_make? h
  rw [hbindings, lookup?_inForce, lookup?_of_declare hdeclare]
  rfl

/-- In each open element qualifiers are bound as the tags say. -/
inductive Scoped : List OpenElement → List (List (TagName × String)) → Prop
  | nil : Scoped [] []
  | cons {e : OpenElement} {es : List OpenElement} {own : List (TagName × String)}
    {outer : List (List (TagName × String))}
    (h : ∀ qualifier, Tag.lookup? e.tag.bindings qualifier = innermost? (own :: outer) qualifier)
    (hes : Scoped es outer) : Scoped (e :: es) (own :: outer)

namespace Builder

private theorem lookup?_bindings {b : Builder} {scopes : List (List (TagName × String))}
    (h : Scoped b.opened scopes) (qualifier : String) :
    Tag.lookup? b.bindings qualifier = innermost? scopes qualifier := by
  obtain ⟨opened, nodes, pending⟩ := b
  cases h with
  | nil => rfl
  | cons h _ => exact h qualifier

/-- The tags of all elements that were met. -/
def tags (b : Builder) : List Tag :=
  (Node.elementsOfAll b.nodes.reverse).map (·.1)
    ++ b.opened.flatMap fun e => e.tag :: (Node.elementsOfAll e.children.reverse).map (·.1)

private theorem mem_tags_add {b : Builder} {node : Node} {tag : Tag} :
    tag ∈ (b.add node).tags ↔ tag ∈ b.tags ∨ tag ∈ node.elements.map (·.1) := by
  obtain ⟨opened, nodes, pending⟩ := b
  cases opened with
  | nil =>
    simp only [add, tags, Node.elementsOfAll_addNode, List.map_append, List.flatMap_nil,
      List.append_nil, List.mem_append]
  | cons e outer =>
    simp only [add, tags, Node.elementsOfAll_addNode, List.map_append, List.flatMap_cons,
      List.mem_append, List.mem_cons]
    tauto

private theorem scoped_add {b : Builder} {scopes : List (List (TagName × String))}
    (h : Scoped b.opened scopes) (node : Node) : Scoped (b.add node).opened scopes := by
  obtain ⟨opened, nodes, pending⟩ := b
  cases h with
  | nil => exact .nil
  | cons h hes => exact .cons h hes

private theorem pending_add (b : Builder) (node : Node) : (b.add node).pending = b.pending := by
  obtain ⟨opened, nodes, pending⟩ := b
  cases opened <;> rfl

/-- What a builder has come to behind events. -/
structure Traces (events : List Event) (b : Builder) : Prop where
  pending : b.pending = (OpenTags.behind events).pending
  scopes : Scoped b.opened (OpenTags.behind events).scopes
  made : ∀ tag ∈ b.tags, ∃ own outer, MadeFrom events tag own outer

section Steps

variable {events : List Event} {b b' : Builder}

private theorem Traces.append (h : Traces events b) (more : List Event) :
    ∀ tag ∈ b.tags, ∃ own outer, MadeFrom (events ++ more) tag own outer := by
  intro tag htag
  obtain ⟨own, outer, hfrom⟩ := h.made tag htag
  exact ⟨own, outer, hfrom.append more⟩

/-- A node without elements adds no tag. -/
theorem Traces.add (h : Traces events b) {event : Event} {node : Node} (hnode : node.elements = [])
    (hsame : OpenTags.behind (events ++ [event]) = OpenTags.behind events) :
    Traces (events ++ [event]) (b.add node) where
  pending := by rw [pending_add, h.pending, hsame]
  scopes := hsame ▸ scoped_add h.scopes node
  made tag htag := by
    refine h.append [event] tag ((mem_tags_add.1 htag).resolve_right ?_)
    rw [hnode]
    exact List.not_mem_nil

private theorem Traces.start (h : Traces events b) {position : Position} {name : TagName}
    {attributes : List (TagName × String)}
    (hstep : b.step (.start position name attributes) = some b') :
    Traces (events ++ [.start position name attributes]) b' := by
  have hbehind := OpenTags.behind_append_singleton events (.start position name attributes)
  obtain ⟨tag, htag, hstep⟩ : ∃ tag,
      Tag.make? b.bindings position name (b.pending ++ attributes) = some tag ∧
        some { b with opened := ⟨name, tag, []⟩ :: b.opened, pending := [] } = some b' :=
    Option.bind_eq_some_iff.1 hstep
  obtain rfl := Option.some.inj hstep
  obtain rfl := Tag.position_of_make? htag
  have hbound (qualifier : String) : Tag.lookup? tag.bindings qualifier
      = innermost? ((b.pending ++ attributes) :: (OpenTags.behind events).scopes) qualifier := by
    rw [Tag.lookup?_of_make? htag, lookup?_bindings h.scopes, innermost?, innermost?,
      List.findSome?_cons]
    cases (b.pending ++ attributes).find? (·.1.binds qualifier) <;> rfl
  have hfrom : MadeFrom (events ++ [.start tag.position name attributes]) tag
      (b.pending ++ attributes) (OpenTags.behind events).scopes :=
    ⟨⟨events, name, attributes, [], b.bindings, rfl, by rw [h.pending], rfl, htag⟩, hbound⟩
  refine ⟨by rw [hbehind]; rfl, ?_, ?_⟩
  · rw [hbehind, OpenTags.step, ← h.pending]
    exact .cons hbound h.scopes
  · intro other hother
    rw [tags, List.flatMap_cons, List.mem_append, List.mem_append] at hother
    rcases hother with hother | hother | hother
    · exact h.append _ other (List.mem_append_left _ hother)
    · obtain rfl := List.mem_singleton.1 hother
      exact ⟨_, _, hfrom⟩
    · exact h.append _ other (List.mem_append_right _ hother)

private theorem Traces.stop (h : Traces events b) {name : TagName}
    (hstep : b.step (.stop name) = some b') : Traces (events ++ [.stop name]) b' := by
  have hbehind := OpenTags.behind_append_singleton events (.stop name)
  obtain ⟨opened, nodes, pending⟩ := b
  cases opened with
  | nil => cases hstep
  | cons e outer =>
    obtain ⟨-, hstep⟩ := Option.ite_none_right_eq_some.1 hstep
    obtain rfl := Option.some.inj hstep
    refine ⟨by rw [hbehind, pending_add]; rfl, ?_, ?_⟩
    · have hscopes := h.scopes
      rw [hbehind, OpenTags.step]
      refine scoped_add ?_ _
      cases hscopes' : (OpenTags.behind events).scopes with
      | nil =>
        rw [hscopes'] at hscopes
        cases hscopes
      | cons own scopes =>
        rw [hscopes'] at hscopes
        cases hscopes with
        | cons _ hes => exact hes
    · intro tag htag
      refine h.append _ tag ?_
      rw [tags, List.flatMap_cons, List.mem_append, List.mem_append]
      rcases mem_tags_add.1 htag with htag | htag
      · exact (List.mem_append.1 htag).imp_right .inr
      · exact .inr (.inl htag)

/-- One event keeps the correspondence. -/
theorem Traces.step (h : Traces events b) {event : Event} (hstep : b.step event = some b') :
    Traces (events ++ [event]) b' := by
  have hbehind := OpenTags.behind_append_singleton events event
  cases event with
  | start position name attributes => exact h.start hstep
  | stop name => exact h.stop hstep
  | cut name attributes =>
    obtain ⟨-, hstep⟩ := Option.ite_none_left_eq_some.1 hstep
    obtain rfl := Option.some.inj hstep
    refine ⟨?_, ?_, h.append _⟩
    · rw [hbehind, h.pending]
      rfl
    · rw [hbehind]
      exact h.scopes
  | text cs =>
    obtain rfl := Option.some.inj hstep
    exact h.add rfl hbehind
  | comment cs =>
    obtain rfl := Option.some.inj hstep
    exact h.add rfl hbehind
  | instruction target body =>
    obtain rfl := Option.some.inj hstep
    exact h.add rfl hbehind

private theorem Traces.run (h : Traces events b) {more : List Event} (hrun : b.run more = some b') :
    Traces (events ++ more) b' := by
  induction more generalizing events b with
  | nil =>
    obtain rfl := Option.some.inj hrun
    rwa [List.append_nil]
  | cons event more ih =>
    obtain ⟨next, hnext, hrun⟩ := Option.bind_eq_some_iff.1 hrun
    have hmore := ih (h.step hnext) hrun
    rwa [List.append_assoc] at hmore

end Steps

end Builder

/-- The events of a text with a document in it. -/
def Document.events? (text : String) : Option (List Event) := do
  let (entities, c) ← Cursor.prolog? ⟨text.toList, .start⟩
  let (tokens, c) ← c.element?
  let c ← c.skipMisc?
  if c.rest.isEmpty then (expand entities maxDepth false tokens 0).map (·.1) else none

private theorem Document.read?_eq (text : String) : read? text
    = (events? text).bind fun events => (Node.ofEvents? events).bind rootOf? := by
  rw [read?, events?]
  rcases Cursor.prolog? ⟨text.toList, .start⟩ with _ | ⟨entities, c⟩
  · rfl
  rcases helement : c.element? with _ | ⟨tokens, c'⟩
  · simp [helement]
  rcases hmisc : c'.skipMisc? with _ | c''
  · simp [helement, hmisc]
  simp only [Option.bind_eq_bind, Option.bind_some, helement, hmisc]
  split
  · rw [Option.bind_map]
    rfl
  · rfl

private theorem elementsOfAll_of_rootOf? {nodes : List Node} {doc : Document}
    (h : rootOf? nodes = some doc) : doc.elements ⊆ Node.elementsOfAll nodes := by
  induction nodes with
  | nil => cases h
  | cons node nodes ih =>
    rw [Node.elementsOfAll]
    cases node with
    | element tag children =>
      obtain rfl := Option.some.inj h
      exact List.subset_append_left _ _
    | _ => exact List.subset_append_of_subset_right _ (ih h)

/-- Every element of a document is made from a start tag among its events. -/
theorem Document.madeFrom_of_read? {text : String} {doc : Document} (h : read? text = some doc) :
    ∃ events, events? text = some events ∧
      ∀ x ∈ doc.elements, ∃ own outer, MadeFrom events x.1 own outer := by
  rw [read?_eq] at h
  obtain ⟨events, hevents, h⟩ := Option.bind_eq_some_iff.1 h
  obtain ⟨nodes, hnodes, hroot⟩ := Option.bind_eq_some_iff.1 h
  obtain ⟨b, hrun, hnodes⟩ := Option.bind_eq_some_iff.1 hnodes
  obtain ⟨-, hnodes⟩ := Option.ite_none_right_eq_some.1 hnodes
  obtain rfl := Option.some.inj hnodes
  have hstart : Builder.Traces [] {} := ⟨rfl, .nil, List.forall_mem_nil _⟩
  refine ⟨events, hevents, fun x hx => ?_⟩
  have hmem : x.1 ∈ b.tags :=
    List.mem_append_left _ (List.mem_map_of_mem (elementsOfAll_of_rootOf? hroot hx))
  exact (hstart.run hrun).made x.1 hmem

end XsdCatalog.Markup
