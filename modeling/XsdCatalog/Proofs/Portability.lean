import XsdCatalog.Proofs.FragmentTree

/-!
# Fragments that are documents

The fragment at the place of an element is a document with the tree that the element has in its
document, unless what is in force around the element cannot be written into its start tag as it
stands there. Line ends in comments and instructions are not kept.
-/

namespace XsdCatalog.Markup

open Text (unixLines)

/-- The fragment at the place of an element is a document, and its tree is the one of the element,
with the contents of comments and instructions passed through a function. -/
def CopiedAs (f : String → String) (text : String) (x : Tag × List Node) : Prop :=
  ∃ fragment copy,
    (∀ document, Fragment.extract document x.1.position.line x.1.position.column (Text.toBytes text)
      = .ok fragment) ∧
    Document.read? fragment = some copy ∧
    (Node.element copy.root copy.children).bare id = (Node.element x.1 x.2).bare f

namespace Occurrence

variable {text : String} {x : Tag × List Node}

/-- What is in force around the element can be written into its start tag as it stands there. -/
structure Portable (o : Occurrence text x) : Prop where
  /-- Up to the end of the element each end tag is spelled like its start tag. -/
  endTags : o.EndTagsAlike
  /-- No attribute stands twice in the tag of the element or in one around it. -/
  apart : ∀ t ∈ o.element.tag :: o.ancestors, t.NamedApart
  /-- Around the element only `xmlns` binds unqualified names. -/
  plain : ∀ t ∈ o.ancestors, t.Plain
  /-- A declaration that the element is given has a value without double quote. -/
  unquoted : ∀ qualifier a, Fragment.passed? o.ancestors o.element.tag qualifier = some a →
    '"' ∉ a.value
  /-- Around the element no empty declaration is in force for a qualifier that it uses. -/
  inherited : ∀ qualifier, o.element.Uses qualifier → Fragment.PassesOn o.ancestors qualifier
  /-- In the texts of the element no carriage return stands beside a reference. -/
  steady : ∀ l ∈ o.element.lexemes, l.Steady

private theorem copiedAs {s : String} (o : Occurrence (Text.dropByteOrderMark s) x)
    (h : o.Portable) : CopiedAs Text.normalizeLineEnds s x := by
  obtain ⟨extra, hextra⟩ := Fragment.exists_inherits
    (fun t ht => h.apart t (List.mem_cons_of_mem _ ht)) (h.apart _ List.mem_cons_self) h.unquoted
  obtain ⟨copy, hcopy, hbare⟩ :=
    Element.exists_inheriting o.tree o.nested h.plain hextra h.inherited h.steady .start
  have hapart : Lexeme.Apart o.element.lexemes := o.apart.right_of_append.left_of_append
  refine ⟨String.ofList (unixLines (o.element.extended (extra.flatMap (·.chars)))),
    ⟨copy.1, copy.2⟩, fun document => ?_, ?_, hbare⟩
  · rw [Text.toBytes_eq]
    exact o.extract_eq h.endTags hextra.bytes document
  · rw [← Element.chars_normal_inheriting hapart,
      Document.read?_element (Element.apart_normal (Element.apart_inheriting hapart extra)), hcopy]
    rfl

end Occurrence

private theorem dropByteOrderMark_eq {text : String}
    (h : text.toList.head? ≠ some Text.byteOrderMark) : Text.dropByteOrderMark text = text := by
  rw [Text.dropByteOrderMark]
  split
  · next c cs hcs =>
    rw [hcs] at h
    exact if_neg fun hc => h (congrArg some hc)
  · rfl

/-- The fragment at the place of a portable element is a document with the tree that the element has in
its document, but for line ends in comments and instructions. -/
theorem Document.fragment_of_element {text : String} {doc : Document}
    (h : Document.read? text = some doc) (hd : Document.hasDoctype text = false)
    (hmark : text.toList.head? ≠ some Text.byteOrderMark) {x : Tag × List Node}
    (hx : x ∈ doc.elements) :
    Nonempty (Occurrence text x) ∧
      ∀ o : Occurrence text x, o.Portable → CopiedAs Text.normalizeLineEnds text x := by
  refine ⟨Document.occurrence_of_mem h hd hx, ?_⟩
  suffices hcopied : ∀ t, Text.dropByteOrderMark text = t → ∀ o : Occurrence t x, o.Portable →
      CopiedAs Text.normalizeLineEnds text x from hcopied text (dropByteOrderMark_eq hmark)
  rintro t rfl o ho
  exact o.copiedAs ho

/-- A document in which an element inherits what its qualifier is bound to, and an empty declaration
of a qualifier that it does not use. -/
def inheritingText : String := "<a xmlns:p='u' xmlns:q=''><p:b>x</p:b></a>"

def outerName : SpelledName where
  chars := ['a']
  name := ⟨"", "a"⟩
  isName := List.all_eq_true.1 (by decide)
  parts := by decide

def innerName : SpelledName where
  chars := ['p', ':', 'b']
  name := ⟨"p", "b"⟩
  isName := List.all_eq_true.1 (by decide)
  parts := by decide

def outerTag : StartTag where
  name := outerName
  attributes := [{
    gap := SpelledAttribute.oneSpace
    name := {
      chars := ['x', 'm', 'l', 'n', 's', ':', 'p']
      name := ⟨"xmlns", "p"⟩
      isName := List.all_eq_true.1 (by decide)
      parts := by decide }
    left := noSpaces
    right := noSpaces
    quote := '\''
    value := ['u']
    gapped := SpelledAttribute.oneSpace_ne_nil
    isQuote := .inr rfl
    isValue := List.forall_mem_singleton.2 (by decide) }, {
    gap := SpelledAttribute.oneSpace
    name := {
      chars := ['x', 'm', 'l', 'n', 's', ':', 'q']
      name := ⟨"xmlns", "q"⟩
      isName := List.all_eq_true.1 (by decide)
      parts := by decide }
    left := noSpaces
    right := noSpaces
    quote := '\''
    value := []
    gapped := SpelledAttribute.oneSpace_ne_nil
    isQuote := .inr rfl
    isValue := List.forall_mem_nil _ }]
  gap := noSpaces

def innerElement : Element :=
  .full ⟨innerName, [], noSpaces⟩
    (.mark (.text ⟨['x'], by decide, by decide, by decide, by decide⟩) .nil) innerName noSpaces

def outerElement : Element :=
  .full outerTag (innerElement.followed .nil) outerName noSpaces

def outerTree : Tag :=
  ⟨⟨1, 1⟩, none, "a", [], [⟨"p", "u"⟩, ⟨"q", ""⟩]⟩

def innerTree : Tag × List Node :=
  (⟨⟨1, 27⟩, some "u", "b", [], [⟨"p", "u"⟩, ⟨"q", ""⟩]⟩, [.text "x"])

private theorem tag?_outerTag : outerTag.tag? [] .start = some outerTree := by
  decide +kernel

private theorem read?_outerElement :
    outerElement.read? [] .start = some (outerTree, [.element innerTree.1 innerTree.2]) := by
  rw [outerElement, Element.read?, tag?_outerTag]
  rfl

def innerOccurrence : Occurrence inheritingText innerTree where
  before := []
  front := [.start outerTag]
  element := innerElement
  back := [.stop outerName noSpaces]
  after := []
  chars := by decide
  inert := .plain (by decide)
  apart := by
    simp [Lexeme.Apart, innerElement, Element.lexemes, Element.followed, Content.lexemes,
      Lexeme.isText, Mark.isText]
  whole := ⟨outerElement, rfl, Option.isSome_of_eq_some read?_outerElement⟩
  bindings := outerTree.bindings
  nested := .cons .nil tag?_outerTag
  tree := rfl

private theorem innerOccurrence_portable : innerOccurrence.Portable where
  endTags := innerOccurrence.endTagsAlike (by decide +kernel) (by decide +kernel)
  apart := by
    intro t ht
    rcases List.mem_cons.1 ht with rfl | ht
    · exact List.nodup_nil
    · obtain rfl := List.mem_singleton.1 ht
      exact List.nodup_iff_pairwise_ne.1 (by decide : (outerTag.attributes.map (·.name.chars)).Nodup)
  plain := by
    intro t ht a ha hbinds
    obtain rfl := List.mem_singleton.1 ht
    have hnone : ∀ a ∈ outerTag.attributes, a.name.name.binds "" = false := by
      decide
    rw [hnone a ha] at hbinds
    cases hbinds
  unquoted := by
    intro qualifier a ha
    obtain ⟨⟨t, ht, hmem⟩, -⟩ :=
      StartTag.mem_of_findSome?_declaring? (Fragment.passed?_eq_some_iff.1 ha).1
    obtain rfl := List.mem_singleton.1 ht
    have hquotes : ∀ a ∈ outerTag.attributes, '"' ∉ a.value := by
      decide
    exact hquotes a hmem
  inherited := by
    intro qualifier ⟨_, huses⟩ a ha hempty
    rcases huses with (rfl | ⟨b, hb, _⟩) | huses
    · have hvalue : ([outerTag].findSome? (·.declaring? "p")).map (·.value) = some ['u'] := by
        decide
      rw [show [outerTag].findSome? (·.declaring? "p") = some a from ha, Option.map_some, hempty]
        at hvalue
      cases hvalue
    · cases hb
    · cases huses
  steady := by
    intro l hl
    rcases List.mem_cons.1 hl with rfl | hl
    · trivial
    · rcases List.mem_cons.1 hl with rfl | hl
      · exact Lexeme.steady_of_not_mem (by decide)
      · obtain rfl := List.mem_singleton.1 hl
        trivial

theorem fragment_of_inner_element :
    ∃ doc, Document.read? inheritingText = some doc ∧ innerTree ∈ doc.elements ∧
      CopiedAs Text.normalizeLineEnds inheritingText innerTree := by
  have htext : inheritingText = String.ofList outerElement.chars := by
    decide
  have hread : Document.read? inheritingText
      = some ⟨outerTree, [.element innerTree.1 innerTree.2]⟩ := by
    have hapart : Lexeme.Apart outerElement.lexemes := innerOccurrence.apart
    rw [htext, Document.read?_element hapart, read?_outerElement]
    rfl
  have hmem : innerTree ∈ Document.elements ⟨outerTree, [.element innerTree.1 innerTree.2]⟩ := by
    simp [Document.elements, Node.elements, Node.elementsOfAll]
  exact ⟨_, hread, hmem, (Document.fragment_of_element hread (by decide +kernel) (by decide) hmem).2
    innerOccurrence innerOccurrence_portable⟩

/-- What a text, a comment or an instruction says. -/
def Node.content : Node → String
  | .element _ _ => ""
  | .text s => s
  | .comment s => s
  | .instruction _ s => s

private theorem Node.content_bare (n : Node) : (n.bare id).content = n.content := by
  cases n <;> rw [Node.bare] <;> rfl

/-- The namespace of a tag, and what stands directly in its element. -/
def outline (tag : Tag) (children : List Node) : Option String × List String :=
  (tag.space, children.map (·.content))

private theorem outline_eq_of_bare {tag tag' : Tag} {children children' : List Node}
    (h : (Node.element tag' children').bare id = (Node.element tag children).bare id) :
    outline tag' children' = outline tag children := by
  rw [Node.bare, Node.bare, Node.bareAll_eq_map, Node.bareAll_eq_map] at h
  injection h with htag hchildren
  have hspace : tag'.bare.space = tag.bare.space := congrArg Tag.space htag
  have hcontents := congrArg (List.map Node.content) hchildren
  rw [List.map_map, List.map_map] at hcontents
  have hcomp : Node.content ∘ Node.bare id = Node.content := funext Node.content_bare
  rw [hcomp] at hcontents
  exact congrArg₂ Prod.mk hspace hcontents

/-- The element at a place of a document has no fragment, or one that is no document, or one with
another outline. -/
def Document.altersElement (text : String) (place : Position) : Bool :=
  (Document.read? text).any fun doc =>
    !hasDoctype text && text.toList.head? != some Text.byteOrderMark &&
      (doc.elements.find? (·.1.position == place)).any fun x =>
        let fragment := Fragment.extract "" place.line place.column (Text.toBytes text)
        (fragment.toOption.bind read?).all fun copy =>
          outline copy.root copy.children != outline x.1 x.2

/-- The element at a place of a document is not copied as it is. -/
def Document.Alters (text : String) (place : Position) : Prop :=
  ∃ doc, Document.read? text = some doc ∧ hasDoctype text = false ∧
    text.toList.head? ≠ some Text.byteOrderMark ∧
    ∃ x ∈ doc.elements, x.1.position = place ∧ ¬ CopiedAs id text x

private theorem Document.alters_of_altersElement {text : String} {place : Position}
    (h : altersElement text place = true) : Alters text place := by
  obtain ⟨doc, hdoc, h⟩ := (Option.any_eq_true _ _).1 h
  rw [Bool.and_eq_true, Bool.and_eq_true, Bool.not_eq_true', bne_iff_ne] at h
  obtain ⟨⟨hdoctype, hmark⟩, h⟩ := h
  obtain ⟨x, hx, h⟩ := (Option.any_eq_true _ _).1 h
  have hplace : x.1.position = place := by
    simpa using List.find?_some hx
  refine ⟨doc, hdoc, hdoctype, hmark, x, List.mem_of_find?_eq_some hx, hplace, ?_⟩
  rintro ⟨fragment, copy, hextract, hcopy, hbare⟩
  have hextract := hextract ""
  rw [hplace] at hextract
  have hread : (Fragment.extract "" place.line place.column (Text.toBytes text)).toOption.bind read?
      = some copy := by
    rw [hextract]
    exact hcopy
  simp only [hread, Option.all_some, bne_iff_ne] at h
  exact h (outline_eq_of_bare hbare)

/-- Line ends in comments, carriage returns beside references, empty declarations of qualifiers that
are used, spellings of declarations and of end tags and attributes that stand twice are not kept. -/
theorem elements_altered :
    Document.Alters "<r><!--a\r\nb--></r>" ⟨1, 1⟩ ∧
    Document.Alters "<r>\r&#10;</r>" ⟨1, 1⟩ ∧
    Document.Alters "<r xmlns:p=\"\"><p:c/></r>" ⟨1, 15⟩ ∧
    Document.Alters "<r :xmlns=\"u\"><c/></r>" ⟨1, 15⟩ ∧
    Document.Alters "<r xmlns=\"a\" xmlns=\"b xmlns:xml='c' \"><c/></r>" ⟨1, 39⟩ ∧
    Document.Alters "<r xmlns:p=\"d\"><p:c xmlns=\"a\" xmlns=\"b xmlns:p='c' \"/></r>" ⟨1, 16⟩ ∧
    Document.Alters "<r><:a></a></r>" ⟨1, 4⟩ := by
  refine ⟨?_, ?_, ?_, ?_, ?_, ?_, ?_⟩ <;>
    exact Document.alters_of_altersElement (by decide +kernel)

/-- A double quote is written into a value between double quotes as it is. This is a slip: the
fragment is no document, though the value can be written so that it is one. -/
theorem element_altered_by_quote :
    Document.Alters "<r xmlns:p='a\"b'><p:c/></r>" ⟨1, 18⟩ :=
  Document.alters_of_altersElement (by decide +kernel)

end XsdCatalog.Markup
