import XsdCatalog.Proofs.Extraction

/-!
# Where elements of a tree stand

Each element of a tree was read from a run of lexemes, inside the elements open there. The places of
the elements in document order are the places of the start tags, and no two of them are the same.
-/

namespace XsdCatalog.Markup

mutual

/-- The elements in a node, each before those inside it. -/
def Node.elements : Node → List (Tag × List Node)
  | .element tag children => (tag, children) :: Node.elementsOfAll children
  | .text _ => []
  | .comment _ => []
  | .instruction _ _ => []

/-- The elements in a row of nodes. -/
def Node.elementsOfAll : List Node → List (Tag × List Node)
  | [] => []
  | n :: ns => n.elements ++ Node.elementsOfAll ns

end

/-- The elements of a document, each before those inside it. -/
def Document.elements (doc : Document) : List (Tag × List Node) :=
  (Node.element doc.root doc.children).elements

namespace Node

private theorem elementsOfAll_append (ns ms : List Node) :
    elementsOfAll (ns ++ ms) = elementsOfAll ns ++ elementsOfAll ms := by
  induction ns with
  | nil => rw [List.nil_append, elementsOfAll, List.nil_append]
  | cons n ns ih => rw [List.cons_append, elementsOfAll, ih, elementsOfAll, List.append_assoc]

/-- Texts that become one hold no elements. -/
theorem elementsOfAll_addNode (nodes : List Node) (node : Node) :
    elementsOfAll (Builder.addNode nodes node).reverse
      = elementsOfAll nodes.reverse ++ node.elements := by
  have hcons : elementsOfAll (node :: nodes).reverse
      = elementsOfAll nodes.reverse ++ node.elements := by
    rw [List.reverse_cons, elementsOfAll_append, elementsOfAll, elementsOfAll, List.append_nil]
  unfold Builder.addNode
  split
  · next s before rest =>
    rw [List.reverse_cons, List.reverse_cons, elementsOfAll_append, elementsOfAll_append]
    simp [elementsOfAll, elements]
  · rw [elements, List.append_nil]
  · exact hcons

end Node

/-- The namespace of an element with a name. -/
def Tag.spaceOf? (bindings : List Binding) (name : TagName) : Option (Option String) :=
  if name.qualifier = "" then some (lookup? bindings "")
  else (lookup? bindings name.qualifier).map some

theorem Tag.make?_eq (outer : List Binding) (position : Position) (name : TagName)
    (as : List (TagName × String)) :
    Tag.make? outer position name as
      = if name.qualifier = "xmlns" then none
        else (scope? outer as).bind fun (bindings, attributes) =>
          (spaceOf? bindings name).map fun space =>
            ⟨position, space, name.localName, attributes, bindings⟩ := by
  rw [make?]
  split
  · rfl
  · congr 1
    funext ⟨bindings, attributes⟩
    show _ = (spaceOf? bindings name).map _
    rw [spaceOf?]
    by_cases hname : name.qualifier = ""
    · rw [if_pos hname]
      exact if_pos hname
    · rw [if_neg hname]
      refine (if_neg hname).trans ?_
      cases lookup? bindings name.qualifier <;> rfl

theorem Tag.position_of_make? {outer : List Binding} {position : Position} {name : TagName}
    {as : List (TagName × String)} {tag : Tag} (h : Tag.make? outer position name as = some tag) :
    tag.position = position := by
  rw [Tag.make?_eq] at h
  split at h
  · cases h
  · obtain ⟨scope, -, h⟩ := Option.bind_eq_some_iff.1 h
    obtain ⟨space, -, rfl⟩ := Option.map_eq_some_iff.1 h
    rfl

private theorem StartTag.position_of_tag? {outer : List Binding} {position : Position}
    {t : StartTag}
    {tag : Tag} (h : t.tag? outer position = some tag) : tag.position = position := by
  obtain ⟨as, -, h⟩ := Option.bind_eq_some_iff.1 h
  exact Tag.position_of_make? h

private theorem Mark.elements_of_node? {m : Mark} {node : Node} (h : m.node? = some node) :
    node.elements = [] := by
  cases m with
  | text cs =>
    obtain ⟨s, -, rfl⟩ := Option.map_eq_some_iff.1 h
    rw [Node.elements]
  | cdata body =>
    cases h
    rw [Node.elements]
  | comment body =>
    cases h
    rw [Node.elements]
  | instruction i =>
    cases h
    rw [Node.elements]

/-- The places of the start tags among lexemes. -/
def Lexeme.places (position : Position) : List Lexeme → List Position
  | [] => []
  | .start t :: ls => position :: places (position.after (t.chars false)) ls
  | .empty t :: ls => position :: places (position.after (t.chars true)) ls
  | l :: ls => places (position.after l.chars) ls

namespace Lexeme

private theorem places_append (position : Position) (ls ks : List Lexeme) :
    places position (ls ++ ks)
      = places position ls ++ places (position.after (spell ls)) ks := by
  induction ls generalizing position with
  | nil => rfl
  | cons l ls ih =>
    rw [List.cons_append, spell_cons, Position.after_append]
    cases l with
    | start t => exact congrArg (position :: ·) (ih _)
    | empty t => exact congrArg (position :: ·) (ih _)
    | stop name gap => exact ih _
    | mark m => exact ih _

private theorem exists_after_of_mem_places {position place : Position} {ls : List Lexeme}
    (h : place ∈ places position ls) : ∃ cs, place = position.after cs := by
  induction ls generalizing position with
  | nil => cases h
  | cons l ls ih =>
    have hrest (h : place ∈ places (position.after l.chars) ls) :
        ∃ cs, place = position.after cs := by
      obtain ⟨cs, rfl⟩ := ih h
      exact ⟨l.chars ++ cs, (Position.after_append _ _ _).symm⟩
    have hfirst (h : place ∈ position :: places (position.after l.chars) ls) :
        ∃ cs, place = position.after cs := by
      rcases List.mem_cons.1 h with rfl | h
      · exact ⟨[], rfl⟩
      · exact hrest h
    cases l with
    | start t => exact hfirst h
    | empty t => exact hfirst h
    | stop name gap => exact hrest h
    | mark m => exact hrest h

/-- No two start tags stand at one place. -/
theorem nodup_places (position : Position) (ls : List Lexeme) : (places position ls).Nodup := by
  induction ls generalizing position with
  | nil => exact List.nodup_nil
  | cons l ls ih =>
    have hfirst : (position :: places (position.after l.chars) ls).Nodup := by
      refine List.nodup_cons.2 ⟨fun hm => ?_, ih _⟩
      obtain ⟨cs, hcs⟩ := exists_after_of_mem_places hm
      rw [← Position.after_append] at hcs
      exact Position.after_ne (List.append_ne_nil_of_left_ne_nil l.chars_ne_nil cs) hcs.symm
    cases l with
    | start t => exact hfirst
    | empty t => exact hfirst
    | stop name gap => exact ih _
    | mark m => exact ih _

end Lexeme

/-- The elements that content adds stand where its start tags stand. -/
theorem Content.places_of_read? {k : Content} {outer : List Binding} {position : Position}
    {nodes nodes' : List Node} (h : k.read? outer position nodes = some nodes') :
    (Node.elementsOfAll nodes'.reverse).map (·.1.position)
      = (Node.elementsOfAll nodes.reverse).map (·.1.position)
        ++ Lexeme.places position k.lexemes := by
  induction k generalizing outer position nodes nodes' with
  | nil =>
    cases h
    exact (List.append_nil _).symm
  | mark m k ih =>
    obtain ⟨node, hnode, h⟩ := Option.bind_eq_some_iff.1 h
    rw [ih h, Node.elementsOfAll_addNode, m.elements_of_node? hnode, List.append_nil]
    rfl
  | empty t k ih =>
    obtain ⟨tag, htag, h⟩ := Option.bind_eq_some_iff.1 h
    rw [ih h, Node.elementsOfAll_addNode, Node.elements, Node.elementsOfAll, List.map_append,
      List.append_assoc, List.map_cons, StartTag.position_of_tag? htag]
    rfl
  | element t inner name gap k ihInner ihRest =>
    obtain ⟨tag, htag, h⟩ := Option.bind_eq_some_iff.1 h
    obtain ⟨children, hchildren, h⟩ := Option.bind_eq_some_iff.1 h
    obtain ⟨-, h⟩ := Option.ite_none_right_eq_some.1 h
    have hinner := ihInner hchildren
    rw [ihRest h, Node.elementsOfAll_addNode, Node.elements, List.map_append, List.append_assoc,
      List.map_cons, StartTag.position_of_tag? htag, hinner]
    simp [Node.elementsOfAll, lexemes, Lexeme.places, Lexeme.places_append, Lexeme.spell_cons,
      Lexeme.spell_append, Lexeme.spell_nil, Lexeme.chars]

/-- Elements with these start tags, innermost first, stand inside each other, and the bindings are
in force in the innermost one. -/
inductive Nested : List StartTag → List Binding → Prop
  | nil : Nested [] []
  | cons {stack : List StartTag} {outer : List Binding} {position : Position} {t : StartTag}
    {tag : Tag} : Nested stack outer → t.tag? outer position = some tag →
    Nested (t :: stack) tag.bindings

/-- The element of a tree is read from a run of the lexemes, inside elements open there. -/
def Occurs (stack : List StartTag) (position : Position) (ls : List Lexeme)
    (x : Tag × List Node) : Prop :=
  ∃ (front back : List Lexeme) (e : Element) (bindings : List Binding),
    ls = front ++ (e.lexemes ++ back) ∧ Nested (Lexeme.opened stack front) bindings ∧
    e.read? bindings (position.after (Lexeme.spell front)) = some x

variable {stack : List StartTag} {position : Position} {ls : List Lexeme} {x : Tag × List Node}

private theorem Occurs.append (h : Occurs stack position ls x) (more : List Lexeme) :
    Occurs stack position (ls ++ more) x := by
  obtain ⟨front, back, e, bindings, rfl, hnested, hread⟩ := h
  exact ⟨front, back ++ more, e, bindings, by simp, hnested, hread⟩

private theorem Occurs.behind (front : List Lexeme)
    (h : Occurs (Lexeme.opened stack front) (position.after (Lexeme.spell front)) ls x) :
    Occurs stack position (front ++ ls) x := by
  obtain ⟨front', back, e, bindings, rfl, hnested, hread⟩ := h
  refine ⟨front ++ front', back, e, bindings, by simp, ?_, ?_⟩
  · rw [Lexeme.opened_append]
    exact hnested
  · rw [Lexeme.spell_append, Position.after_append]
    exact hread

private theorem Occurs.cons {l : Lexeme}
    (h : Occurs (Lexeme.opened stack [l]) (position.after l.chars) ls x) :
    Occurs stack position (l :: ls) x := by
  have hspell : Lexeme.spell [l] = l.chars := List.append_nil _
  refine Occurs.behind [l] ?_
  rw [hspell]
  exact h

private theorem Content.occurs_of_read? {k : Content} {outer : List Binding}
    {nodes nodes' : List Node} (h : k.read? outer position nodes = some nodes')
    (hs : Nested stack outer) (hx : x ∈ Node.elementsOfAll nodes'.reverse) :
    x ∈ Node.elementsOfAll nodes.reverse ∨ Occurs stack position k.lexemes x := by
  induction k generalizing stack outer position nodes nodes' with
  | nil =>
    cases h
    exact .inl hx
  | mark m k ih =>
    obtain ⟨node, hnode, h⟩ := Option.bind_eq_some_iff.1 h
    rcases ih h hs hx with hx | hx
    · rw [Node.elementsOfAll_addNode, m.elements_of_node? hnode, List.append_nil] at hx
      exact .inl hx
    · exact .inr (Occurs.cons hx)
  | empty t k ih =>
    obtain ⟨tag, htag, h⟩ := Option.bind_eq_some_iff.1 h
    rcases ih h hs hx with hx | hx
    · rw [Node.elementsOfAll_addNode, List.mem_append] at hx
      refine hx.imp_right fun hx => ?_
      obtain rfl : x = (tag, []) := List.mem_singleton.1 hx
      refine ⟨[], k.lexemes, .empty t, outer, rfl, hs, ?_⟩
      show (t.tag? outer position).map _ = _
      rw [htag]
      rfl
    · exact .inr (Occurs.cons hx)
  | element t inner name gap k ihInner ihRest =>
    obtain ⟨tag, htag, h⟩ := Option.bind_eq_some_iff.1 h
    obtain ⟨children, hchildren, h⟩ := Option.bind_eq_some_iff.1 h
    obtain ⟨hname, h⟩ := Option.ite_none_right_eq_some.1 h
    have hlexemes : (element t inner name gap k).lexemes
        = .start t :: (inner.lexemes ++ [.stop name gap]) ++ k.lexemes := by
      simp [lexemes]
    have hopened : Lexeme.opened stack (.start t :: (inner.lexemes ++ [.stop name gap])) = stack := by
      show Lexeme.opened (t :: stack) (inner.lexemes ++ [.stop name gap]) = stack
      rw [Lexeme.opened_append, inner.opened_lexemes]
      rfl
    rcases ihRest h hs hx with hx | hx
    · rw [Node.elementsOfAll_addNode, List.mem_append, Node.elements, List.mem_cons] at hx
      rcases hx with hx | rfl | hx
      · exact .inl hx
      · refine .inr ⟨[], k.lexemes, .full t inner name gap, outer, ?_, hs, ?_⟩
        · rw [hlexemes]
          rfl
        · show Element.read? outer position (.full t inner name gap) = _
          rw [Element.read?, htag]
          simp only [Option.bind_eq_bind, Option.bind_some, hchildren, if_pos hname]
      · rcases ihInner hchildren (hs.cons htag) hx with hx | hx
        · cases hx
        · have hcons : Occurs stack position (.start t :: inner.lexemes) x := Occurs.cons hx
          have happend := hcons.append (.stop name gap :: k.lexemes)
          exact .inr happend
    · right
      rw [hlexemes]
      refine Occurs.behind _ ?_
      rw [hopened]
      exact hx

/-- Each element of a tree that was read from an element occurs in it. -/
theorem Element.occurs_of_read? {e : Element} {tag : Tag} {children : List Node}
    (h : e.read? [] position = some (tag, children))
    (hx : x ∈ (Node.element tag children).elements) : Occurs [] position e.lexemes x := by
  have hcontent : (e.followed .nil).read? [] position [] = some [.element tag children] := by
    rw [e.read?_followed, h]
    rfl
  have helements : x ∈ Node.elementsOfAll [Node.element tag children].reverse := by
    show x ∈ Node.elementsOfAll [Node.element tag children]
    rw [Node.elementsOfAll, Node.elementsOfAll, List.append_nil]
    exact hx
  rcases Content.occurs_of_read? hcontent .nil helements with hx | hx
  · cases hx
  · exact hx

private theorem Element.places_of_read? {e : Element} {tag : Tag} {children : List Node}
    (h : e.read? [] position = some (tag, children)) :
    (Node.element tag children).elements.map (·.1.position) = Lexeme.places position e.lexemes := by
  have hcontent : (e.followed .nil).read? [] position [] = some [.element tag children] := by
    rw [e.read?_followed, h]
    rfl
  have hplaces := Content.places_of_read? hcontent
  rw [List.reverse_singleton, Node.elementsOfAll, Node.elementsOfAll, List.append_nil] at hplaces
  exact hplaces

/-- No two elements of a document stand at one place. -/
theorem Document.nodup_positions {text : String} {doc : Document}
    (h : Document.read? text = some doc) (hd : Document.hasDoctype text = false) :
    (doc.elements.map (·.1.position)).Nodup := by
  obtain ⟨spelling⟩ := Document.spelling_of_read? h hd
  rw [Document.elements, Element.places_of_read? spelling.tree]
  exact Lexeme.nodup_places _ _

/-- An element of a document as it stands in the text: what stands in front of the root, the
lexemes from there to the element, the element, and the rest. -/
structure Occurrence (text : String) (x : Tag × List Node) where
  before : List Char
  front : List Lexeme
  element : Element
  back : List Lexeme
  after : List Char
  chars : text.toList = before ++ (Lexeme.spell (front ++ (element.lexemes ++ back)) ++ after)
  inert : Inert before
  apart : Lexeme.Apart (front ++ (element.lexemes ++ back))
  whole : ∃ root : Element, root.lexemes = front ++ (element.lexemes ++ back) ∧
    (root.read? [] (Position.start.after before)).isSome
  bindings : List Binding
  nested : Nested (Lexeme.opened [] front) bindings
  tree : element.read? bindings (Position.start.after (before ++ Lexeme.spell front)) = some x

namespace Occurrence

variable {text : String} (o : Occurrence text x)

/-- What stands in front of the element. -/
def leading : List Char :=
  o.before ++ Lexeme.spell o.front

/-- The start tags of the elements around the element, innermost first. -/
def ancestors : List StartTag :=
  Lexeme.opened [] o.front

/-- Up to the end of the element each end tag is spelled like its start tag. -/
def EndTagsAlike : Prop :=
  Lexeme.Alike [] (o.front ++ o.element.lexemes)

private theorem position_eq : x.1.position = Position.start.after o.leading := by
  have hread := o.tree
  cases he : o.element with
  | empty t =>
    rw [he] at hread
    obtain ⟨tag, htag, rfl⟩ := Option.map_eq_some_iff.1 hread
    exact StartTag.position_of_tag? htag
  | full t inner name gap =>
    rw [he] at hread
    obtain ⟨tag, htag, hread⟩ := Option.bind_eq_some_iff.1 hread
    obtain ⟨children, -, hread⟩ := Option.bind_eq_some_iff.1 hread
    obtain ⟨-, hread⟩ := Option.ite_none_right_eq_some.1 hread
    cases hread
    exact StartTag.position_of_tag? htag

/-- The fragment at the place of an element is the element with the declarations it inherits. -/
theorem extract_eq {s : String} (o : Occurrence (Text.dropByteOrderMark s) x)
    (h : o.EndTagsAlike) {more : List Char}
    (hmore : Text.encode more = Fragment.inherited o.ancestors o.element.tag) (document : String) :
    Fragment.extract document x.1.position.line x.1.position.column (Text.encode s.toList)
      = .ok (String.ofList (Text.unixLines (o.element.extended more))) := by
  obtain ⟨root, hroot, -⟩ := o.whole
  have hchars := o.chars
  have hapart := o.apart
  rw [← hroot] at hchars hapart
  rw [o.position_eq]
  exact Fragment.extract_element hchars o.inert hapart hroot h hmore document

/-- Where no tag name begins with a colon, end tags are spelled like their start tags. -/
theorem endTagsAlike (hstart : ¬ ['<', ':'] <:+: text.toList)
    (hstop : ¬ ['<', '/', ':'] <:+: text.toList) : o.EndTagsAlike := by
  obtain ⟨root, hroot, hread⟩ := o.whole
  obtain ⟨x, hx⟩ := Option.isSome_iff_exists.1 hread
  have hpaired := Element.paired_of_read? hx []
  rw [hroot, ← List.append_assoc] at hpaired
  have hinfix {l : Lexeme} (hl : l ∈ o.front ++ o.element.lexemes) : l.chars <:+: text.toList := by
    obtain ⟨ls, ks, hls⟩ := List.append_of_mem hl
    refine ⟨o.before ++ Lexeme.spell ls, Lexeme.spell ks ++ (Lexeme.spell o.back ++ o.after), ?_⟩
    rw [o.chars, ← List.append_assoc o.front, hls]
    simp [Lexeme.spell_append, Lexeme.spell_cons]
  have hcolon (front : List Char) {cs rest : List Char} (h : cs.head? = some ':')
      (hl : front ++ (cs ++ rest) <:+: text.toList) : front ++ [':'] <:+: text.toList := by
    obtain ⟨more, rfl⟩ := List.head?_eq_some_iff.1 h
    exact List.IsInfix.trans ⟨[], more ++ rest, by simp⟩ hl
  refine (Lexeme.paired_append.1 hpaired).1.alike nofun fun l hl n hn hhead => ?_
  have hl := hinfix hl
  cases l with
  | start t =>
    cases hn
    rw [Lexeme.chars, StartTag.chars, StartTag.body, List.append_assoc] at hl
    exact hstart (hcolon ['<'] hhead hl)
  | empty t =>
    cases hn
    rw [Lexeme.chars, StartTag.chars, StartTag.body, List.append_assoc] at hl
    exact hstart (hcolon ['<'] hhead hl)
  | stop name gap =>
    cases hn
    exact hstop (hcolon ['<', '/'] hhead hl)
  | mark m => cases hn

end Occurrence

theorem Document.occurrence_of_mem {text : String} {doc : Document}
    (h : Document.read? text = some doc) (hd : Document.hasDoctype text = false)
    (hx : x ∈ doc.elements) : Nonempty (Occurrence text x) := by
  obtain ⟨spelling⟩ := Document.spelling_of_read? h hd
  obtain ⟨front, back, e, bindings, hroot, hnested, hread⟩ :=
    Element.occurs_of_read? spelling.tree hx
  rw [← Position.after_append] at hread
  refine ⟨⟨spelling.before, front, e, back, spelling.after, ?_, spelling.inert, ?_,
    ⟨spelling.root, hroot, ?_⟩, bindings, hnested, hread⟩⟩
  · rw [← hroot]
    exact spelling.chars
  · rw [← hroot]
    exact spelling.apart
  · rw [spelling.tree]
    rfl

end XsdCatalog.Markup
