import XsdCatalog.Proofs.Components
import XsdCatalog.Proofs.Occurrence
import XsdCatalog.Collection.Target
import XsdCatalog.Written.Document

/-!
# Fragments of components

The place that a component of a schema carries leads back to the source of the element that the
component was read from.
-/

namespace XsdCatalog

namespace SchemaElement

mutual

/-- The elements of the schema vocabulary are elements of the tree. -/
private theorem exists_of_mem_elements {n : Markup.Node} {root e : SchemaElement}
    (h : ofNode? n = some root) (he : e ∈ root.elements) :
    ∃ x ∈ n.elements, ofNode? (.element x.1 x.2) = some e := by
  cases n with
  | element tag children =>
    have hroot := h
    rw [ofNode?] at h
    obtain ⟨-, h⟩ := Option.ite_none_right_eq_some.1 h
    cases h
    rw [elements] at he
    rw [Markup.Node.elements]
    rcases List.mem_cons.1 he with rfl | he
    · exact ⟨(tag, children), List.mem_cons_self, hroot⟩
    · obtain ⟨x, hx, hnode⟩ := exists_of_mem_elementsOfAll he
      exact ⟨x, List.mem_cons_of_mem _ hx, hnode⟩
  | text s => cases h
  | comment s => cases h
  | instruction target body => cases h

private theorem exists_of_mem_elementsOfAll {ns : List Markup.Node} {e : SchemaElement}
    (he : e ∈ elementsOfAll (ofNodes ns)) :
    ∃ x ∈ Markup.Node.elementsOfAll ns, ofNode? (.element x.1 x.2) = some e := by
  cases ns with
  | nil => cases he
  | cons n ns =>
    rw [ofNodes, elementsOfAll_append, List.mem_append] at he
    rw [Markup.Node.elementsOfAll]
    rcases he with he | he
    · cases hn : ofNode? n with
      | none =>
        rw [hn] at he
        cases he
      | some root =>
        rw [hn] at he
        have he : e ∈ root.elements := by simpa [elementsOfAll] using he
        obtain ⟨x, hx, hnode⟩ := exists_of_mem_elements hn he
        exact ⟨x, List.mem_append_left _ hx, hnode⟩
    · obtain ⟨x, hx, hnode⟩ := exists_of_mem_elementsOfAll he
      exact ⟨x, List.mem_append_right _ hx, hnode⟩

end

/-- What is read as an element of the schema vocabulary keeps the tag. -/
private theorem tag_of_ofNode? {tag : Markup.Tag} {children : List Markup.Node} {e : SchemaElement}
    (h : ofNode? (.element tag children) = some e) : e.tag = tag := by
  obtain ⟨-, h⟩ := Option.ite_none_right_eq_some.1 h
  cases h
  rfl

/-- The tags of the schema elements are tags of the tree. -/
theorem exists_children_of_mem_tags {n : Markup.Node} {root : SchemaElement} {tag : Markup.Tag}
    (h : ofNode? n = some root) (htag : tag ∈ root.tags) :
    ∃ children, (tag, children) ∈ n.elements := by
  rw [tags_eq] at htag
  obtain ⟨e, he, rfl⟩ := List.mem_map.1 htag
  obtain ⟨⟨tag, children⟩, hx, hnode⟩ := exists_of_mem_elements h he
  rw [tag_of_ofNode? hnode]
  exact ⟨children, hx⟩

end SchemaElement

namespace Collection

variable {tree : FileTree} {directory : FileTree.Place} {path : String} {bytes : List UInt8}
  {text : String} {schema : Written.Schema}

/-- A schema is read from the text of its file without a byte order mark. -/
theorem parse_of_readSchema (hb : tree.readBytes directory path = .ok bytes)
    (ht : Text.ofBytes? bytes = some text) (h : readSchema tree directory path = .ok schema) :
    Written.Schema.parse (some path) (Text.dropByteOrderMark text) = .ok schema := by
  rw [readSchema] at h
  rw [FileTree.readBytes] at hb
  cases hr : tree.reach directory path with
  | error fault =>
    rw [hr] at hb
    cases hb
  | ok place =>
    rw [hr] at h hb
    have hb : tree.bytesAt place = .ok bytes := hb
    rw [FileTree.bytesAt] at hb
    have h : readAt tree place path = .ok schema := h
    rw [readAt, FileTree.textAt] at h
    cases hf : tree.file? place with
    | none =>
      rw [hf] at hb
      cases hb
    | some found =>
      rw [hf] at hb h
      obtain rfl : found = bytes := Except.ok.inj hb
      simp only [ht] at h
      split at h
      · exact h
      · cases h

/-- The schema root is the root of a document, read as a schema. -/
theorem exists_doc_of_parse {document : Option String}
    (h : Written.Schema.parse document text = .ok schema) :
    ∃ doc root, Markup.Document.read? text = some doc ∧
      SchemaElement.ofNode? (.element doc.root doc.children) = some root ∧
      schema = Written.readSchema document root := by
  rw [Written.Schema.parse] at h
  split at h
  · cases h
  · split at h
    · cases h
    · next doc hdoc =>
      split at h
      · cases h
      · next root hroot =>
        obtain ⟨-, hroot⟩ := Option.ite_none_right_eq_some.1 hroot
        exact ⟨doc, root, hdoc, hroot, (Except.ok.inj h).symm⟩

/-- Every component of a schema file, at any depth, is read from an element of the file and carries
its place, and the components inside it are read from elements inside that element. The fragment at
this place is the element as it stands in the file, with inherited declarations at the end of its
first tag, end tags without spaces and normalised line ends. No two elements of the file have the
same place. -/
theorem fragment_of_component (hb : tree.readBytes directory path = .ok bytes)
    (ht : Text.ofBytes? bytes = some text)
    (hd : Markup.Document.hasDoctype (Text.dropByteOrderMark text) = false)
    (h : readSchema tree directory path = .ok schema) :
    ∃ doc root, Markup.Document.read? (Text.dropByteOrderMark text) = some doc ∧
      SchemaElement.ofNode? (.element doc.root doc.children) = some root ∧
      (doc.elements.map (·.1.position)).Nodup ∧
      ∀ c ∈ schema.components, ∃ x ∈ doc.elements, ∃ e,
        SchemaElement.ofNode? (.element x.1 x.2) = some e ∧
          Written.ReadFrom (Written.contextOf (some path) root) e c ∧
          (∀ d ∈ c.components, ∃ f ∈ e.elements,
            Written.ReadFrom (Written.contextOf (some path) root) f d) ∧
          c.source = some ⟨some path, x.1.position⟩ ∧
          Nonempty (Markup.Occurrence (Text.dropByteOrderMark text) x) ∧
          ∀ o : Markup.Occurrence (Text.dropByteOrderMark text) x, o.EndTagsAlike →
            ∃ more, Text.encode more = Fragment.inherited o.ancestors o.element.tag ∧
              ∀ document,
                Fragment.extract document x.1.position.line x.1.position.column bytes
                  = .ok (String.ofList (Text.unixLines (o.element.extended more))) := by
  obtain ⟨doc, root, hdoc, hroot, rfl⟩ := exists_doc_of_parse (parse_of_readSchema hb ht h)
  refine ⟨doc, root, hdoc, hroot, Markup.Document.nodup_positions hdoc hd, fun c hc => ?_⟩
  obtain ⟨e, he, hread⟩ := Written.reads_readSchema (some path) root hc
  obtain ⟨⟨tag, children⟩, hx, hnode⟩ := SchemaElement.exists_of_mem_elements hroot he
  have hsource := Written.source_of_readFrom _ hread
  rw [Written.Context.location, SchemaElement.tag_of_ofNode? hnode] at hsource
  refine ⟨(tag, children), hx, e, hnode, hread, Written.readsIn_of_readFrom _ hread, hsource,
    Markup.Document.occurrence_of_mem hdoc hd hx, fun o halike => ?_⟩
  obtain ⟨more, hmore⟩ := Fragment.encodes_inherited o.ancestors o.element.tag
  refine ⟨more, hmore, fun document => ?_⟩
  rw [Text.ofBytes?_eq_some_iff.1 ht]
  exact o.extract_eq halike hmore document

/-- A schema with a byte order mark, two kinds of line ends and spaces in an end tag. -/
def placedSource : String :=
  "\ufeff<s:schema xmlns:s=\"http://www.w3.org/2001/XMLSchema\">\r\n<s:group name='>'><s:all/>\r" ++
    "</s:group ></s:schema>"

/-- A tree with the schema in its only file. -/
def placedTree : FileTree :=
  { files := [(["a.xsd"], Text.toBytes placedSource)] }

/-- The group and the particle inside it are fragments of their own. -/
theorem fragment_of_placed_component :
    ∃ schema, readSchema placedTree [] "a.xsd" = .ok schema ∧
      schema.components.map Written.Component.source
        = [some ⟨some "a.xsd", ⟨2, 1⟩⟩, some ⟨some "a.xsd", ⟨2, 19⟩⟩] ∧
      ∀ c ∈ schema.components, ∃ position fragment,
        c.source = some ⟨some "a.xsd", position⟩ ∧
          Fragment.extract "a.xsd" position.line position.column (Text.toBytes placedSource)
            = .ok fragment := by
  have hsources : (readSchema placedTree [] "a.xsd").toOption.map
      (·.components.map Written.Component.source)
        = some [some ⟨some "a.xsd", ⟨2, 1⟩⟩, some ⟨some "a.xsd", ⟨2, 19⟩⟩] := by
    decide +kernel
  cases hread : readSchema placedTree [] "a.xsd" with
  | error e =>
    rw [hread] at hsources
    cases hsources
  | ok schema =>
    rw [hread] at hsources
    refine ⟨schema, rfl, Option.some.inj hsources, fun c hc => ?_⟩
    obtain ⟨doc, root, -, -, -, hall⟩ := fragment_of_component
      (by decide +kernel : placedTree.readBytes [] "a.xsd" = .ok (Text.toBytes placedSource))
      (by decide +kernel : Text.ofBytes? (Text.toBytes placedSource) = some placedSource)
      (by decide +kernel) hread
    obtain ⟨x, -, e, -, -, -, hsource, ⟨o⟩, hfragment⟩ := hall c hc
    have halike : o.EndTagsAlike := o.endTagsAlike (by decide +kernel) (by decide +kernel)
    obtain ⟨more, -, hextract⟩ := hfragment o halike
    exact ⟨_, _, hsource, hextract "a.xsd"⟩

/-- A schema in which a name is spelled with a colon in front at one end of its element only. -/
def respelledSource : String :=
  "<schema xmlns=\"http://www.w3.org/2001/XMLSchema\"><:a></a><element name=\"e\"/></schema>"

/-- A tree with the schema in its only file. -/
def respelledTree : FileTree :=
  { files := [(["a.xsd"], Text.toBytes respelledSource)] }

/-- There is no fragment behind an end tag that is spelled otherwise than its start tag. -/
theorem no_fragment_behind_respelled_end_tag :
    Markup.Document.hasDoctype respelledSource = false ∧
      ∃ schema, readSchema respelledTree [] "a.xsd" = .ok schema ∧
        ∃ c ∈ schema.components, ∃ position, c.source = some ⟨some "a.xsd", position⟩ ∧
          Fragment.extract "a.xsd" position.line position.column (Text.toBytes respelledSource)
            = .error (.markup Fragment.malformedMarkup) := by
  have hsources : (readSchema respelledTree [] "a.xsd").toOption.map
      (·.components.map Written.Component.source) = some [some ⟨some "a.xsd", ⟨1, 58⟩⟩] := by
    decide +kernel
  have hextract : Fragment.extract "a.xsd" 1 58 (Text.toBytes respelledSource)
      = .error (.markup Fragment.malformedMarkup) := by
    decide +kernel
  refine ⟨by decide +kernel, ?_⟩
  cases hread : readSchema respelledTree [] "a.xsd" with
  | error e =>
    rw [hread] at hsources
    cases hsources
  | ok schema =>
    rw [hread] at hsources
    obtain ⟨c, hcomponents, hsource⟩ := List.map_eq_singleton_iff.1 (Option.some.inj hsources)
    refine ⟨schema, rfl, c, ?_, ⟨1, 58⟩, hsource, hextract⟩
    rw [hcomponents]
    exact List.mem_cons_self

end Collection

end XsdCatalog
