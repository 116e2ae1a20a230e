import XsdCatalog.Proofs.FragmentOfLocation
import XsdCatalog.Proofs.ReaderPlaces

/-!
# Nodes that schemas ignore

Comments, instructions, texts and elements from other namespaces may come and go in a schema, with
everything in them, unless they stand in documentation. Only places tell the difference: elements of
the vocabulary are found in the nodes that are kept as they are found in all nodes, and elements
without places are read as a schema without places.
-/

namespace XsdCatalog

namespace Markup

namespace Node

mutual

/-- What is left of a node without comments, instructions, texts and elements from other namespaces
than the one of schemas. Documentation stays whole. -/
def kept : Node → List Node
  | .element tag children =>
    if tag.space = some schemaSpace then
      [.element tag (if tag.localName = "documentation" then children else keptAll children)]
    else []
  | .text _ => []
  | .comment _ => []
  | .instruction _ _ => []

def keptAll : List Node → List Node
  | [] => []
  | n :: ns => kept n ++ keptAll ns

end

mutual

/-- The node with all elements in it at the start of their document. -/
def unplaced : Node → Node
  | .element tag children => .element tag.unplaced (unplacedAll children)
  | .text s => .text s
  | .comment s => .comment s
  | .instruction target content => .instruction target content

def unplacedAll : List Node → List Node
  | [] => []
  | n :: ns => n.unplaced :: unplacedAll ns

end

mutual

/-- Do two nodes agree in everything, places included? -/
def same : Node → Node → Bool
  | .element tag children, .element tag' children' => tag == tag' && sameAll children children'
  | .text s, .text s' => s == s'
  | .comment s, .comment s' => s == s'
  | .instruction target content, .instruction target' content' =>
    target == target' && content == content'
  | _, _ => false

def sameAll : List Node → List Node → Bool
  | [], [] => true
  | n :: ns, n' :: ns' => same n n' && sameAll ns ns'
  | _, _ => false

end

mutual

private theorem same_iff (n n' : Node) : same n n' = true ↔ n = n' := by
  cases n with
  | element tag children =>
    cases n' <;> simp [same, sameAll_iff children]
  | text s => cases n' <;> simp [same]
  | comment s => cases n' <;> simp [same]
  | instruction target content => cases n' <;> simp [same]

private theorem sameAll_iff (ns ns' : List Node) : sameAll ns ns' = true ↔ ns = ns' := by
  cases ns with
  | nil => cases ns' <;> simp [sameAll]
  | cons n ns => cases ns' <;> simp [sameAll, same_iff n, sameAll_iff ns]

end

instance : DecidableEq Node := fun n n' => decidable_of_iff _ (same_iff n n')

end Node

/-- What schemas do not ignore in the tree of a document, without places. -/
def Document.kept (doc : Document) : List Node :=
  Node.unplacedAll (Node.kept (.element doc.root doc.children))

end Markup

namespace SchemaElement

open Markup (Node)

private theorem ofNodes_append (ns ns' : List Node) :
    ofNodes (ns ++ ns') = ofNodes ns ++ ofNodes ns' := by
  induction ns with
  | nil => rfl
  | cons n ns ih => rw [List.cons_append, ofNodes, ofNodes, ih, List.append_assoc]

private theorem keptText_kept (tag : Markup.Tag) (children : List Node) :
    keptText tag (if tag.localName = "documentation" then children else Node.keptAll children)
      = keptText tag children := by
  rw [keptText, keptText]
  split <;> rfl

mutual

private theorem ofNodes_kept (n : Node) : ofNodes n.kept = (ofNode? n).toList := by
  cases n with
  | element tag children =>
    have hchildren : ofNodes
        (if tag.localName = "documentation" then children else Node.keptAll children)
          = ofNodes children := by
      split
      · rfl
      · exact ofNodes_keptAll children
    rw [Node.kept, ofNode?]
    split
    · next hspace =>
      rw [ofNodes, ofNode?, if_pos hspace, keptText_kept, hchildren]
      rfl
    · rfl
  | text s => rfl
  | comment s => rfl
  | instruction target content => rfl

private theorem ofNodes_keptAll (ns : List Node) : ofNodes (Node.keptAll ns) = ofNodes ns := by
  cases ns with
  | nil => rfl
  | cons n ns => rw [Node.keptAll, ofNodes_append, ofNodes_kept n, ofNodes_keptAll ns, ofNodes]

end

mutual

private theorem textsOf_unplaced (n : Node) : textsOf n.unplaced = textsOf n := by
  cases n with
  | element tag children => exact textsOfAll_unplacedAll children
  | text s => rfl
  | comment s => rfl
  | instruction target content => rfl

private theorem textsOfAll_unplacedAll (ns : List Node) :
    textsOfAll (Node.unplacedAll ns) = textsOfAll ns := by
  cases ns with
  | nil => rfl
  | cons n ns =>
    rw [Node.unplacedAll, textsOfAll, textsOfAll, textsOf_unplaced n, textsOfAll_unplacedAll ns]

end

mutual

private theorem ofNode?_unplaced (n : Node) :
    ofNode? n.unplaced = (ofNode? n).map (·.unplaced) := by
  cases n with
  | element tag children =>
    have htext : keptText tag.unplaced (Node.unplacedAll children) = keptText tag children := by
      rw [keptText, keptText, textsOfAll_unplacedAll]
      rfl
    have hspace : tag.unplaced.space = tag.space := rfl
    rw [Node.unplaced, ofNode?, ofNode?, htext, ofNodes_unplacedAll children, hspace]
    split
    · rw [Option.map_some, unplaced, unplacedAll_eq]
    · rfl
  | text s => rfl
  | comment s => rfl
  | instruction target content => rfl

private theorem ofNodes_unplacedAll (ns : List Node) :
    ofNodes (Node.unplacedAll ns) = (ofNodes ns).map (·.unplaced) := by
  cases ns with
  | nil => rfl
  | cons n ns =>
    rw [Node.unplacedAll, ofNodes, ofNodes, ofNode?_unplaced n, ofNodes_unplacedAll ns,
      List.map_append, Option.toList_map]

end

/-- What is kept of a document holds its root element, if this is from the vocabulary. -/
theorem ofNodes_document_kept (doc : Markup.Document) :
    ofNodes doc.kept = ((ofNode? (.element doc.root doc.children)).map (·.unplaced)).toList := by
  rw [Markup.Document.kept, ofNodes_unplacedAll, ofNodes_kept, Option.toList_map]

end SchemaElement

/-- Documents that agree but for ignored nodes say the same schema: the same declarations, nested in
the same way, with the same names and documentation, the same references, and the same diagnostics
in the same order. Only lines and columns may differ. -/
theorem Written.Schema.unplaced_eq_of_kept {document : Option String} {text text' : String}
    {doc doc' : Markup.Document} {schema schema' : Written.Schema}
    (hdoc : Markup.Document.read? text = some doc) (hdoc' : Markup.Document.read? text' = some doc')
    (h : parse document text = .ok schema) (h' : parse document text' = .ok schema')
    (hkept : doc.kept = doc'.kept) :
    schema.relabel .unplaced = schema'.relabel .unplaced := by
  obtain ⟨found, root, hfound, hroot, rfl⟩ := Collection.exists_doc_of_parse h
  obtain ⟨found', root', hfound', hroot', rfl⟩ := Collection.exists_doc_of_parse h'
  obtain rfl : doc = found := Option.some.inj (hdoc.symm.trans hfound)
  obtain rfl : doc' = found' := Option.some.inj (hdoc'.symm.trans hfound')
  have hroots : [root.unplaced] = [root'.unplaced] :=
    calc [root.unplaced]
      _ = SchemaElement.ofNodes doc.kept := by
        rw [SchemaElement.ofNodes_document_kept, hroot]
        rfl
      _ = SchemaElement.ofNodes doc'.kept := by rw [hkept]
      _ = [root'.unplaced] := by
        rw [SchemaElement.ofNodes_document_kept, hroot']
        rfl
  rw [← Written.readSchema_unplaced, ← Written.readSchema_unplaced, List.singleton_inj.1 hroots]

/-- A schema with a group. -/
def plainText : String :=
  "<schema xmlns='http://www.w3.org/2001/XMLSchema'><group name='g'/></schema>"

/-- The same schema with a text, a foreign element, an instruction and a comment. -/
def strewnText : String :=
  "<schema xmlns='http://www.w3.org/2001/XMLSchema'>\n<x xmlns=''/><?i?><group name='g'><!---->"
    ++ "</group></schema>"

/-- What is kept of both. -/
def groupNodes : List Markup.Node :=
  [.element ⟨.start, some schemaSpace, "schema", [], [⟨"", schemaSpace⟩]⟩
    [.element ⟨.start, some schemaSpace, "group", [⟨none, "name", "g"⟩], [⟨"", schemaSpace⟩]⟩ []]]

private theorem Written.Schema.exists_of_parse_locations {document : Option String} {text : String}
    {locations : List Location}
    (h : (parse document text).toOption.map (·.locations) = some locations) :
    ∃ schema, parse document text = .ok schema ∧ schema.locations = locations := by
  cases hparse : parse document text with
  | error e =>
    rw [hparse] at h
    cases h
  | ok schema =>
    rw [hparse] at h
    exact ⟨schema, rfl, Option.some.inj h⟩

theorem Written.Schema.unplaced_eq_of_strewnText :
    ∃ schema schema', parse none plainText = .ok schema ∧ parse none strewnText = .ok schema' ∧
      schema.locations ≠ schema'.locations ∧
      schema.relabel .unplaced = schema'.relabel .unplaced := by
  have hkept : (Markup.Document.read? plainText).map (·.kept) = some groupNodes := by
    decide +kernel
  have hkept' : (Markup.Document.read? strewnText).map (·.kept) = some groupNodes := by
    decide +kernel
  have hlocations : (parse none plainText).toOption.map (·.locations)
      = some [⟨none, ⟨1, 50⟩⟩] := by
    decide +kernel
  have hlocations' : (parse none strewnText).toOption.map (·.locations)
      = some [⟨none, ⟨2, 19⟩⟩] := by
    decide +kernel
  obtain ⟨doc, hdoc, hkept⟩ := Option.map_eq_some_iff.1 hkept
  obtain ⟨doc', hdoc', hkept'⟩ := Option.map_eq_some_iff.1 hkept'
  obtain ⟨schema, h, hlocations⟩ := exists_of_parse_locations hlocations
  obtain ⟨schema', h', hlocations'⟩ := exists_of_parse_locations hlocations'
  refine ⟨schema, schema', h, h', ?_, ?_⟩
  · rw [hlocations, hlocations']
    decide
  · exact unplaced_eq_of_kept hdoc hdoc' h h' (hkept.trans hkept'.symm)

end XsdCatalog
