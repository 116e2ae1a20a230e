import XsdCatalog.Proofs.Bindings
import XsdCatalog.Proofs.NormalReading

/-!
# The tree of a fragment

With normalised line ends, and with what it inherits, an element is read outside of its document as
it is read inside, but for the line ends in comments and instructions.
-/

namespace XsdCatalog.Markup

open Text (unixLines)

/-- What a tag says, without its place and what is in force around it. -/
def Tag.bare (tag : Tag) : Tag :=
  { tag with position := .start, bindings := [] }

mutual

/-- What a node says, with the contents of comments and instructions passed through a function. -/
def Node.bare (f : String → String) : Node → Node
  | .element tag children => .element tag.bare (Node.bareAll f children)
  | .text s => .text s
  | .comment s => .comment (f s)
  | .instruction target s => .instruction target (f s)

def Node.bareAll (f : String → String) : List Node → List Node
  | [] => []
  | n :: ns => n.bare f :: Node.bareAll f ns

end

namespace Node

variable {f : String → String}

theorem bareAll_eq_map (ns : List Node) : bareAll f ns = ns.map (bare f) := by
  induction ns with
  | nil => rw [bareAll, List.map_nil]
  | cons n ns ih => rw [bareAll, ih, List.map_cons]

/-- Only a text that is empty, or that stands behind another one, is not added as it is. -/
theorem addNode_eq_cons {nodes : List Node} {node : Node}
    (h : ∀ s, node = .text s → s ≠ "" ∧ ∀ before rest, nodes ≠ .text before :: rest) :
    Builder.addNode nodes node = node :: nodes := by
  unfold Builder.addNode
  split
  · next s before rest => exact absurd rfl ((h s rfl).2 before rest)
  · exact absurd rfl (h "" rfl).1
  · rfl

private theorem eq_text_of_bare {n : Node} {s : String} (h : n.bare f = .text s) : n = .text s := by
  cases n with
  | text s =>
    rw [bare] at h
    exact h
  | element tag children =>
    rw [bare] at h
    cases h
  | comment s =>
    rw [bare] at h
    cases h
  | instruction target s =>
    rw [bare] at h
    cases h

private theorem map_bare_addNode (nodes : List Node) (node : Node) :
    (Builder.addNode nodes node).map (bare f) = Builder.addNode (nodes.map (bare f)) (node.bare f) := by
  by_cases hadd : ∀ s, node = .text s → s ≠ "" ∧ ∀ before rest, nodes ≠ .text before :: rest
  · have hadd' : ∀ s, node.bare f = .text s →
        s ≠ "" ∧ ∀ before rest, nodes.map (bare f) ≠ .text before :: rest := by
      intro s hs
      refine ⟨(hadd s (eq_text_of_bare hs)).1, fun before rest hnodes => ?_⟩
      obtain ⟨n, ns, rfl, hn, -⟩ := List.map_eq_cons_iff.1 hnodes
      exact (hadd s (eq_text_of_bare hs)).2 before ns (by rw [eq_text_of_bare hn])
    rw [addNode_eq_cons hadd, addNode_eq_cons hadd', List.map_cons]
  · push Not at hadd
    obtain ⟨s, rfl, hs⟩ := hadd
    by_cases hempty : s = ""
    · subst hempty
      rw [bare, Builder.addNode_empty, Builder.addNode_empty]
    · obtain ⟨before, rest, rfl⟩ := hs hempty
      rw [bare, List.map_cons, bare]
      show (Node.text (before ++ s) :: rest).map (bare f) = Node.text (before ++ s) :: rest.map (bare f)
      rw [List.map_cons, bare]

end Node

private theorem Node.map_bare_nil :
    ([] : List Node).map (bare id) = ([] : List Node).map (bare Text.normalizeLineEnds) := rfl

/-- Elements say the same if their tags and their children do. -/
theorem Node.bare_element {tag' tag : Tag} (h : tag'.bare = tag.bare) {copies nodes : List Node}
    (hnodes : copies.map (bare id) = nodes.map (bare Text.normalizeLineEnds)) :
    (element tag' copies).bare id = (element tag nodes).bare Text.normalizeLineEnds := by
  rw [bare, bare, h, bareAll_eq_map, bareAll_eq_map, hnodes]

namespace Tag

variable {bindings bindings' : List Binding}

private theorem spaceOf?_congr {name : TagName}
    (h : lookup? bindings' name.qualifier = lookup? bindings name.qualifier) :
    spaceOf? bindings' name = spaceOf? bindings name := by
  rw [spaceOf?, spaceOf?, h]
  split
  · next hempty => rw [← hempty, h]
  · rfl

/-- Attributes are resolved by what their own qualifiers are bound to. -/
theorem resolveAttributes_congr {as : List (TagName × String)}
    (h : ∀ p ∈ as, lookup? bindings' p.1.qualifier = lookup? bindings p.1.qualifier)
    (done : List Attribute) :
    resolveAttributes bindings' done as = resolveAttributes bindings done as := by
  induction as generalizing done with
  | nil => rfl
  | cons p as ih =>
    obtain ⟨name, value⟩ := p
    rw [List.forall_mem_cons] at h
    have hone : resolveAttribute bindings' name value = resolveAttribute bindings name value := by
      rw [resolveAttribute, resolveAttribute, h.1]
    simp only [resolveAttributes, hone, ih h.2]

/-- A tag says the same wherever the qualifiers in it are bound to the same. -/
theorem exists_make? {outer outer' own own' : List Binding} {position : Position} {name : TagName}
    {as as' others : List (TagName × String)} {tag : Tag}
    (h : make? outer position name as = some tag) (hown : declare [] as = some (own, others))
    (hown' : declare [] as' = some (own', others))
    (hlookup : ∀ qualifier ∈ name.qualifier :: others.map (·.1.qualifier),
      lookup? (inForce own' outer') qualifier = lookup? (inForce own outer) qualifier)
    (position' : Position) :
    ∃ tag', make? outer' position' name as' = some tag' ∧ tag'.bare = tag.bare ∧
      tag'.bindings = inForce own' outer' ∧ tag.bindings = inForce own outer := by
  rw [make?_eq] at h
  obtain ⟨hname, h⟩ := Option.ite_none_left_eq_some.1 h
  obtain ⟨⟨bindings, attributes⟩, hscope, h⟩ := Option.bind_eq_some_iff.1 h
  obtain ⟨space, hspace, rfl⟩ := Option.map_eq_some_iff.1 h
  obtain ⟨⟨own, others⟩, hdeclare, hscope⟩ := Option.bind_eq_some_iff.1 hscope
  cases hdeclare.symm.trans hown
  obtain ⟨attributes', hattributes, hscope⟩ := Option.bind_eq_some_iff.1 hscope
  cases hscope
  rw [List.forall_mem_cons, List.forall_mem_map] at hlookup
  have hscope' : scope? outer' as' = some (inForce own' outer', attributes) := by
    rw [scope?, hown']
    show (resolveAttributes (inForce own' outer') [] others).bind _ = _
    rw [resolveAttributes_congr hlookup.2]
    exact Option.bind_eq_some_iff.2 ⟨attributes, hattributes, rfl⟩
  have hspace' : spaceOf? (inForce own' outer') name = some space := by
    rw [spaceOf?_congr hlookup.1]
    exact hspace
  refine ⟨⟨position', space, name.localName, attributes, inForce own' outer'⟩, ?_, rfl, rfl, rfl⟩
  rw [make?_eq, if_neg hname, hscope', Option.bind_some]
  show (spaceOf? (inForce own' outer') name).map _ = _
  rw [hspace']
  rfl

end Tag

/-- In a text no carriage return stands in front of a reference, or behind one at the end. -/
def Lexeme.Steady : Lexeme → Prop
  | mark (.text cs) => ∀ ps, pieces? cs.1 = some ps → Markup.Steady ps
  | _ => True

theorem Lexeme.steady_of_not_mem {cs : TextChars} (h : '&' ∉ cs.1) : (mark (.text cs)).Steady := by
  intro ps hps
  rw [pieces?_of_not_mem h] at hps
  cases hps
  exact steady_map_plain cs.1

/-- A name in the tag has the qualifier: its own, or that of an attribute that declares nothing. -/
def StartTag.Mentions (t : StartTag) (qualifier : String) : Prop :=
  t.name.name.qualifier = qualifier ∨
    ∃ a ∈ t.attributes, a.name.name.declares = false ∧ a.name.name.qualifier = qualifier

/-- Names in the content have the qualifier and mean what it is bound to around the content. -/
def Content.Uses (qualifier : String) : Content → Prop
  | nil => False
  | mark _ k => k.Uses qualifier
  | empty t k => (t.binding? qualifier = none ∧ t.Mentions qualifier) ∨ k.Uses qualifier
  | element t inner _ _ k =>
    (t.binding? qualifier = none ∧ (t.Mentions qualifier ∨ inner.Uses qualifier)) ∨
      k.Uses qualifier

/-- Names in the element have the qualifier and mean what it is bound to around the element. -/
def Element.Uses (qualifier : String) : Element → Prop
  | empty t => t.binding? qualifier = none ∧ t.Mentions qualifier
  | full t inner _ _ => t.binding? qualifier = none ∧ (t.Mentions qualifier ∨ inner.Uses qualifier)

private theorem StartTag.mentions_of_declare {t : StartTag} {own : List Binding}
    {others : List (TagName × String)}
    (h : Tag.declare [] (t.attributes.map (·.pair)) = some (own, others)) :
    ∀ qualifier ∈ t.name.name.qualifier :: others.map (·.1.qualifier), t.Mentions qualifier := by
  intro qualifier hqualifier
  rw [Tag.others_of_declare h, List.filter_map, List.map_map] at hqualifier
  rcases List.mem_cons.1 hqualifier with rfl | hqualifier
  · exact .inl rfl
  · obtain ⟨a, ha, rfl⟩ := List.mem_map.1 hqualifier
    obtain ⟨ha, hdeclares⟩ := List.mem_filter.1 ha
    exact .inr ⟨a, ha, by simpa [SpelledAttribute.pair] using hdeclares, rfl⟩

/-- Another tag says what a start tag says if qualifiers that the names in it have are bound to the
same. All qualifiers are then that are bound in the tag or agree around it. -/
private theorem StartTag.exists_alike {t : StartTag} (s : StartTag)
    {outer outer' own own' : List Binding} {values others : List (TagName × String)}
    {position : Position} {tag : Tag} {agrees : String → Prop}
    (h : t.tag? outer position = some tag) (hname : s.name.name = t.name.name)
    (hvalues : values? (s.attributes.map (·.raw)) = some values)
    (hown : Tag.declare [] (t.attributes.map (·.pair)) = some (own, others))
    (hown' : Tag.declare [] values = some (own', others))
    (hsame : ∀ qualifier, (t.binding? qualifier = none → agrees qualifier) →
      Tag.lookup? (Tag.inForce own' outer') qualifier = Tag.lookup? (Tag.inForce own outer) qualifier)
    (hagrees : ∀ qualifier, t.binding? qualifier = none → t.Mentions qualifier → agrees qualifier)
    (position' : Position) :
    ∃ tag', s.tag? outer' position' = some tag' ∧ tag'.bare = tag.bare ∧
      ∀ qualifier, (t.binding? qualifier = none → agrees qualifier) →
        Tag.lookup? tag'.bindings qualifier = Tag.lookup? tag.bindings qualifier := by
  obtain ⟨-, -, hread, -⟩ := t.exists_declare_of_tag? h
  rw [tag?, hread] at h
  rw [tag?, hvalues, hname]
  have hneeded : ∀ qualifier ∈ t.name.name.qualifier :: others.map (·.1.qualifier),
      Tag.lookup? (Tag.inForce own' outer') qualifier
        = Tag.lookup? (Tag.inForce own outer) qualifier := by
    intro qualifier hqualifier
    apply hsame
    intro hbinding
    exact hagrees qualifier hbinding (mentions_of_declare hown qualifier hqualifier)
  obtain ⟨tag', htag', hbare, hbindings', hbindings⟩ :=
    Tag.exists_make? h hown hown' hneeded position'
  refine ⟨tag', htag', hbare, ?_⟩
  rw [hbindings', hbindings]
  exact hsame

/-- A start tag says the same with normalised line ends, wherever the same is bound. -/
theorem StartTag.exists_normal {t : StartTag} {outer outer' : List Binding} {position : Position}
    {tag : Tag} (h : t.tag? outer position = some tag)
    (hlookup : ∀ qualifier, t.binding? qualifier = none → t.Mentions qualifier →
      Tag.lookup? outer' qualifier = Tag.lookup? outer qualifier) (position' : Position) :
    ∃ tag', t.normal.tag? outer' position' = some tag' ∧ tag'.bare = tag.bare ∧ ∀ qualifier,
      (t.binding? qualifier = none →
        Tag.lookup? outer' qualifier = Tag.lookup? outer qualifier) →
      Tag.lookup? tag'.bindings qualifier = Tag.lookup? tag.bindings qualifier := by
  obtain ⟨own, others, hvalues, hdeclare, -⟩ := t.exists_declare_of_tag? h
  have hnormal : values? (t.normal.attributes.map (·.raw)) = some (t.attributes.map (·.pair)) :=
    values?_normal hvalues
  apply exists_alike t.normal h rfl hnormal hdeclare hdeclare _ hlookup
  intro qualifier hq
  rw [Tag.lookup?_inForce, Tag.lookup?_inForce, lookup?_own hdeclare]
  cases hbinding : t.binding? qualifier with
  | some a => rfl
  | none => rw [hq hbinding]

private theorem Mark.exists_normal {m : Mark} {node : Node} (h : m.node? = some node)
    (hs : (Lexeme.mark m).Steady) :
    ∃ copy, m.normal.node? = some copy ∧ copy.bare id = node.bare Text.normalizeLineEnds := by
  cases m with
  | text cs =>
    obtain ⟨read, hread, rfl⟩ := Option.map_eq_some_iff.1 h
    have hnormal : plainText? (unixLines cs.1) = some read := plainText?_unixLines hread hs
    refine ⟨.text (String.ofList read), ?_, ?_⟩
    · show (plainText? (unixLines cs.1)).map _ = _
      rw [hnormal]
      rfl
    · rw [Node.bare, Node.bare]
  | cdata body =>
    cases h
    have hnormal : cdataText (unixLines body.1) = cdataText body.1 := by
      rw [cdataText_eq, cdataText_eq, Text.unixLines_of_not_mem (Text.not_mem_unixLines body.1)]
    refine ⟨_, rfl, ?_⟩
    show (Node.text (String.ofList (cdataText (unixLines body.1)))).bare id = _
    rw [hnormal, Node.bare, Node.bare]
  | comment body =>
    cases h
    refine ⟨_, rfl, ?_⟩
    show (Node.comment (String.ofList (unixLines body.1))).bare id = _
    rw [Node.bare, Node.bare, Text.normalizeLineEnds_eq, String.toList_ofList]
    rfl
  | instruction i =>
    cases h
    refine ⟨_, rfl, ?_⟩
    show (Node.instruction (String.ofList i.target) (String.ofList (unixLines i.body))).bare id = _
    rw [Node.bare, Node.bare, Text.normalizeLineEnds_eq, String.toList_ofList]
    rfl

/-- Content with normalised line ends is read as the same nodes, wherever the same is bound. -/
theorem Content.exists_normal {k : Content} {outer outer' : List Binding} {position : Position}
    {nodes nodes' copies : List Node} (h : k.read? outer position nodes = some nodes')
    (hs : ∀ l ∈ k.lexemes, l.Steady)
    (hlookup : ∀ qualifier, k.Uses qualifier →
      Tag.lookup? outer' qualifier = Tag.lookup? outer qualifier)
    (hcopies : copies.map (Node.bare id) = nodes.map (Node.bare Text.normalizeLineEnds))
    (position' : Position) :
    ∃ copies', k.normal.read? outer' position' copies = some copies' ∧
      copies'.map (Node.bare id) = nodes'.map (Node.bare Text.normalizeLineEnds) := by
  have hadd {nodes copies : List Node} {node copy : Node}
      (hcopies : copies.map (Node.bare id) = nodes.map (Node.bare Text.normalizeLineEnds))
      (hcopy : copy.bare id = node.bare Text.normalizeLineEnds) :
      (Builder.addNode copies copy).map (Node.bare id)
        = (Builder.addNode nodes node).map (Node.bare Text.normalizeLineEnds) := by
    rw [Node.map_bare_addNode, Node.map_bare_addNode, hcopies, hcopy]
  induction k generalizing outer outer' position nodes nodes' copies position' with
  | nil =>
    cases h
    exact ⟨copies, rfl, hcopies⟩
  | mark m k ih =>
    obtain ⟨node, hnode, h⟩ := Option.bind_eq_some_iff.1 h
    rw [lexemes, List.forall_mem_cons] at hs
    obtain ⟨copy, hcopy, hbare⟩ := m.exists_normal hnode hs.1
    obtain ⟨copies', hread, hbare'⟩ := ih h hs.2 hlookup (hadd hcopies hbare)
      (position'.after m.normal.chars)
    refine ⟨copies', ?_, hbare'⟩
    rw [normal, read?, hcopy]
    exact hread
  | empty t k ih =>
    obtain ⟨tag, htag, h⟩ := Option.bind_eq_some_iff.1 h
    rw [lexemes, List.forall_mem_cons] at hs
    have htop : ∀ qualifier, t.binding? qualifier = none → t.Mentions qualifier →
        Tag.lookup? outer' qualifier = Tag.lookup? outer qualifier :=
      fun qualifier hbinding hmentions => hlookup qualifier (.inl ⟨hbinding, hmentions⟩)
    obtain ⟨tag', htag', halike, -⟩ := t.exists_normal htag htop position'
    obtain ⟨copies', hread, hbare'⟩ := ih h hs.2 (fun qualifier hq => hlookup qualifier (.inr hq))
      (hadd hcopies (Node.bare_element halike Node.map_bare_nil))
      (position'.after (t.normal.chars true))
    refine ⟨copies', ?_, hbare'⟩
    rw [normal, read?, htag']
    exact hread
  | element t inner name gap k ihInner ihRest =>
    obtain ⟨tag, htag, h⟩ := Option.bind_eq_some_iff.1 h
    obtain ⟨children, hchildren, h⟩ := Option.bind_eq_some_iff.1 h
    obtain ⟨hname, h⟩ := Option.ite_none_right_eq_some.1 h
    rw [lexemes, List.forall_mem_cons, List.forall_mem_append, List.forall_mem_cons] at hs
    obtain ⟨-, hinner, -, hrest⟩ := hs
    have htop : ∀ qualifier, t.binding? qualifier = none → t.Mentions qualifier →
        Tag.lookup? outer' qualifier = Tag.lookup? outer qualifier :=
      fun qualifier hbinding hmentions => hlookup qualifier (.inl ⟨hbinding, .inl hmentions⟩)
    obtain ⟨tag', htag', halike, hlookup'⟩ := t.exists_normal htag htop position'
    -- What the tag binds itself agrees in any case.
    have hinside : ∀ qualifier, inner.Uses qualifier →
        Tag.lookup? tag'.bindings qualifier = Tag.lookup? tag.bindings qualifier := by
      intro qualifier hq
      apply hlookup'
      intro hbinding
      exact hlookup qualifier (.inl ⟨hbinding, .inr hq⟩)
    obtain ⟨children', hchildren', hbare⟩ := ihInner hchildren hinner hinside Node.map_bare_nil
      (position'.after (t.normal.chars false))
    have hbare : (Node.element tag' children'.reverse).bare id
        = (Node.element tag children.reverse).bare Text.normalizeLineEnds :=
      Node.bare_element halike (by rw [List.map_reverse, List.map_reverse, hbare])
    obtain ⟨copies', hread, hbare'⟩ := ihRest h hrest
      (fun qualifier hq => hlookup qualifier (.inr hq)) (hadd hcopies hbare) _
    refine ⟨copies', ?_, hbare'⟩
    rw [normal, read?, htag']
    show (inner.normal.read? tag'.bindings _ []).bind _ = _
    rw [hchildren']
    exact (if_pos hname).trans hread

variable {stack : List StartTag} {bindings : List Binding} {extra : List SpelledAttribute}

/-- With what it inherits a start tag says the same outside of its document. -/
theorem StartTag.exists_inheriting {t : StartTag} {position : Position} {tag : Tag}
    (h : t.tag? bindings position = some tag) (hn : Nested stack bindings)
    (hplain : ∀ s ∈ stack, s.Plain) (hextra : Fragment.Inherits stack t extra)
    (hpassed : ∀ qualifier, t.binding? qualifier = none → t.Mentions qualifier →
      Fragment.PassesOn stack qualifier) (position' : Position) :
    ∃ tag', (t.append extra).normal.tag? [] position' = some tag' ∧ tag'.bare = tag.bare ∧
      ∀ qualifier, (t.binding? qualifier = none → Fragment.PassesOn stack qualifier) →
        Tag.lookup? tag'.bindings qualifier = Tag.lookup? tag.bindings qualifier := by
  obtain ⟨own, others, hvalues, hdeclare, -⟩ := t.exists_declare_of_tag? h
  obtain ⟨all, hall⟩ := hn.exists_declare_append hextra hdeclare
  have happend : values? ((t.append extra).attributes.map (·.raw))
      = some ((t.attributes ++ extra).map (·.pair)) := by
    rw [t.raw_append, values?_eq_some_iff, List.forall_mem_append]
    exact ⟨⟨(values?_eq_some_iff.1 hvalues).1, fun a ha => (hn.allowed_of_inherits hextra ha).2.2⟩, rfl⟩
  have hnormal : values? ((t.append extra).normal.attributes.map (·.raw))
      = some ((t.attributes ++ extra).map (·.pair)) := values?_normal happend
  have hname : (t.append extra).normal.name = t.name := by
    cases extra <;> rfl
  apply exists_alike (t.append extra).normal h (congrArg SpelledName.name hname) hnormal hdeclare
    hall _ hpassed
  intro qualifier hq
  rw [Tag.lookup?_inForce, Tag.lookup?_inForce, hn.lookup?_append hplain hextra hdeclare hall hq]
  exact Option.or_none

/-- With what it inherits an element is read outside of its document as it is read inside, if the
qualifiers that it uses are passed on. -/
theorem Element.exists_inheriting {e : Element} {position : Position} {x : Tag × List Node}
    (h : e.read? bindings position = some x) (hn : Nested stack bindings)
    (hplain : ∀ s ∈ stack, s.Plain) (hextra : Fragment.Inherits stack e.tag extra)
    (hpassed : ∀ qualifier, e.Uses qualifier → Fragment.PassesOn stack qualifier)
    (hs : ∀ l ∈ e.lexemes, l.Steady) (position' : Position) :
    ∃ copy, (e.inheriting extra).normal.read? [] position' = some copy ∧
      (Node.element copy.1 copy.2).bare id = (Node.element x.1 x.2).bare Text.normalizeLineEnds := by
  cases e with
  | empty t =>
    obtain ⟨tag, htag, rfl⟩ := Option.map_eq_some_iff.1 h
    obtain ⟨tag', htag', halike, -⟩ := t.exists_inheriting htag hn hplain hextra
      (fun qualifier hbinding hmentions => hpassed qualifier ⟨hbinding, hmentions⟩) position'
    refine ⟨(tag', []), ?_, ?_⟩
    · show ((t.append extra).normal.tag? [] position').map _ = _
      rw [htag']
      rfl
    · exact Node.bare_element halike rfl
  | full t inner name gap =>
    obtain ⟨tag, htag, h⟩ := Option.bind_eq_some_iff.1 h
    obtain ⟨children, hchildren, h⟩ := Option.bind_eq_some_iff.1 h
    obtain ⟨hname, h⟩ := Option.ite_none_right_eq_some.1 h
    cases h
    have hinner : ∀ l ∈ inner.lexemes, l.Steady := fun l hl =>
      hs l (List.mem_cons_of_mem _ (List.mem_append_left _ hl))
    obtain ⟨tag', htag', halike, hlookup⟩ := t.exists_inheriting htag hn hplain hextra
      (fun qualifier hbinding hmentions => hpassed qualifier ⟨hbinding, .inl hmentions⟩) position'
    have hinside : ∀ qualifier, inner.Uses qualifier →
        Tag.lookup? tag'.bindings qualifier = Tag.lookup? tag.bindings qualifier := by
      intro qualifier hq
      apply hlookup
      intro hbinding
      exact hpassed qualifier ⟨hbinding, .inr hq⟩
    obtain ⟨children', hchildren', hbare⟩ := inner.exists_normal hchildren hinner hinside
      Node.map_bare_nil (position'.after ((t.append extra).normal.chars false))
    have hname' : name.name = (t.append extra).normal.name.name := by
      rw [hname]
      cases extra <;> rfl
    refine ⟨(tag', children'.reverse), ?_, ?_⟩
    · show ((t.append extra).normal.tag? [] position').bind _ = _
      rw [htag']
      show (inner.normal.read? tag'.bindings _ []).bind _ = _
      rw [hchildren']
      exact if_pos hname'
    · exact Node.bare_element halike (by rw [List.map_reverse, List.map_reverse, hbare])

end XsdCatalog.Markup
