import Mathlib.Data.List.Flatten
import XsdCatalog.Proofs.FragmentOfLocation
import XsdCatalog.Proofs.OpenTags
import XsdCatalog.Proofs.WrittenNames

/-!
# How names are resolved

Each name in a schema is what the text of an attribute spells with the qualifiers bound by the tags
around the element that has the attribute. A schema has an error for each text with an undeclared
qualifier that was read and for each global component without name, and no other errors.
-/

namespace XsdCatalog

open Written

private theorem SchemaElement.tags_subset_of_mem {e : SchemaElement} {es : List SchemaElement}
    (h : e ∈ es) : e.tags ⊆ tagsOfAll es := by
  induction es with
  | nil => cases h
  | cons d es ih =>
    rcases List.mem_cons.1 h with rfl | h
    · exact List.subset_append_left _ _
    · exact List.subset_append_of_subset_right _ (ih h)

namespace Written

mutual

/-- Only elements that are read have attributes that are looked up. -/
theorem owner_of_mem_visits (role : Role) (holder e : SchemaElement) :
    ∀ l ∈ visits role holder e, l.owner.tag ∈ e.tags := by
  obtain ⟨tag, text, children⟩ := e
  let e : SchemaElement := ⟨tag, text, children⟩
  intro l hl
  rw [visits_eq, List.mem_append, List.mem_append] at hl
  rcases hl with (hl | hl) | hl
  · obtain ⟨name, -, rfl⟩ := List.mem_map.1 hl
    exact e.tag_mem_tags
  · exact e.tagsOfAll_subset_tags (owner_of_mem_visitsIn role _ children l hl)
  · obtain ⟨name, -, rfl⟩ := List.mem_map.1 hl
    exact e.tag_mem_tags
termination_by structural e

private theorem owner_of_mem_visitsIn (role : Role) (holder : SchemaElement)
    (es : List SchemaElement) :
    ∀ l ∈ visitsIn role holder es, l.owner.tag ∈ SchemaElement.tagsOfAll es := by
  cases es with
  | nil => exact List.forall_mem_nil _
  | cons e rest =>
    intro l hl
    have hrest (h : l ∈ visitsIn role holder rest) :=
      tagsOfAll_subset_cons e rest (owner_of_mem_visitsIn role holder rest l h)
    rw [visitsIn] at hl
    split at hl
    · next part _ =>
      rcases List.mem_append.1 hl with hl | hl
      · exact tags_subset_cons e rest (owner_of_mem_visits part holder e l hl)
      · split at hl
        · cases hl
        · exact hrest hl
    · exact hrest hl
termination_by structural es

end

private theorem owner_of_mem_globalLookups {e : SchemaElement} {l : Lookup}
    (h : l ∈ globalLookups e) : l.owner.tag ∈ e.tags := by
  rw [globalLookups] at h
  split at h
  · rw [visitsPart] at h
    split at h
    · next part _ => exact owner_of_mem_visits part e e l h
    · cases h
  · cases h

/-- A lookup gives an error if one of its texts has an undeclared qualifier. -/
theorem Lookup.exists_error_iff (ctx : Context) (l : Lookup) :
    (∃ d, d ∈ l.errors ctx) ↔ ∃ text ∈ l.texts, (undeclared? l.bound text).isSome := by
  simp only [errors, List.mem_filterMap]
  constructor
  · rintro ⟨d, text, htext, hd⟩
    obtain ⟨qualifier, hqualifier, -⟩ := Option.map_eq_some_iff.1 hd
    exact ⟨text, htext, by rw [hqualifier]; rfl⟩
  · rintro ⟨text, htext, hsome⟩
    obtain ⟨qualifier, hqualifier⟩ := Option.isSome_iff_exists.1 hsome
    exact ⟨_, text, htext, Option.map_eq_some_iff.2 ⟨qualifier, hqualifier, rfl⟩⟩

private theorem exists_missingName_iff (ctx : Context) (e : SchemaElement) :
    (∃ d, d ∈ missingName ctx e) ↔ isGlobal e.kind = true ∧ e.attribute? "name" = none := by
  rw [missingName]
  split
  · next h => exact iff_of_true ⟨_, List.mem_cons_self⟩ h
  · next h =>
    refine iff_of_false ?_ h
    rintro ⟨d, hd⟩
    cases hd

/-- The names in a schema and its errors. `met` is what the reader looks up. In the element with an
attribute that is looked up qualifiers are bound by the tags around it, the innermost one first and
beginning with its own. The names in the schema are those that some of the lookups find, and each
text there with an undeclared qualifier has its error. The errors of the schema are those of all
lookups and those about components without names. -/
theorem Schema.names_of_parse {document : Option String} {text : String} {schema : Schema}
    (h : Schema.parse document text = .ok schema) :
    ∃ events doc root, Markup.Document.events? text = some events ∧
      Markup.Document.read? text = some doc ∧
      SchemaElement.ofNode? (.element doc.root doc.children) = some root ∧
      let ctx := contextOf document root
      let tops := candidates root.children
      let met := tops.flatMap globalLookups
      (∀ l ∈ met, ∃ own outer, Markup.MadeFrom events l.owner.tag own outer ∧
        l.bound = Markup.innermost? (own :: outer)) ∧
      (∃ kept : List Lookup, kept.Sublist met ∧ (kept.map (·.use ctx)).Perm schema.uses ∧
        (kept.flatMap (·.errors ctx)).Sublist schema.diagnostics) ∧
      (schema.diagnostics.filter (·.severity = .error)
        = tops.flatMap fun e => missingName ctx e ++ (globalLookups e).flatMap (·.errors ctx)) ∧
      ((∃ d ∈ schema.diagnostics, d.severity = .error) ↔
        (∃ e ∈ tops, isGlobal e.kind = true ∧ e.attribute? "name" = none) ∨
          ∃ l ∈ met, ∃ text ∈ l.texts, (undeclared? l.bound text).isSome) := by
  obtain ⟨doc, root, hdoc, hroot, rfl⟩ := Collection.exists_doc_of_parse h
  obtain ⟨events, hevents, hmade⟩ := Markup.Document.madeFrom_of_read? hdoc
  refine ⟨events, doc, root, hevents, hdoc, hroot, ?_⟩
  intro ctx tops met
  have herrors : (readSchema document root).diagnostics.filter (·.severity = .error)
      = tops.flatMap fun e => missingName ctx e ++ (globalLookups e).flatMap (·.errors ctx) :=
    errors_readItems ctx tops
  refine ⟨fun l hl => ?_, ?_, herrors, ?_⟩
  · obtain ⟨e, he, hl⟩ := List.mem_flatMap.1 hl
    have htag : l.owner.tag ∈ SchemaElement.tagsOfAll tops :=
      SchemaElement.tags_subset_of_mem he (owner_of_mem_globalLookups hl)
    obtain ⟨children, hx⟩ := SchemaElement.exists_children_of_mem_tags hroot
      (root.tagsOfAll_subset_tags (tagsOfAll_candidates root.children htag))
    obtain ⟨own, outer, hfrom⟩ := hmade _ hx
    exact ⟨own, outer, hfrom, funext hfrom.bound⟩
  · obtain ⟨uses, hperm, hsublist⟩ := uses_readItems ctx tops
    obtain ⟨kept, hkept, rfl⟩ := List.sublist_map_iff.1 hsublist
    refine ⟨kept, hkept, hperm, ?_⟩
    have hlookups : (met.flatMap (·.errors ctx)).Sublist
        (tops.flatMap fun e => missingName ctx e ++ (globalLookups e).flatMap (·.errors ctx)) := by
      rw [List.flatMap_assoc]
      exact List.Sublist.flatMap_right tops fun e _ => List.sublist_append_right _ _
    have hall := herrors ▸ hlookups
    exact ((hkept.flatMap _).trans hall).trans List.filter_sublist
  · have hmem (d : Diagnostic) : d ∈ (readSchema document root).diagnostics ∧ d.severity = .error ↔
        ∃ e ∈ tops, d ∈ missingName ctx e ∨ ∃ l ∈ globalLookups e, d ∈ l.errors ctx := by
      have hfilter : d ∈ (readSchema document root).diagnostics.filter (·.severity = .error) ↔
          d ∈ (readSchema document root).diagnostics ∧ d.severity = .error := by
        rw [List.mem_filter, decide_eq_true_iff]
      rw [← hfilter, herrors]
      simp only [List.mem_flatMap, List.mem_append]
    constructor
    · rintro ⟨d, hd⟩
      obtain ⟨e, he, hd | ⟨l, hl, hd⟩⟩ := (hmem d).1 hd
      · exact .inl ⟨e, he, (exists_missingName_iff ctx e).1 ⟨d, hd⟩⟩
      · exact .inr ⟨l, List.mem_flatMap.2 ⟨e, he, hl⟩, (l.exists_error_iff ctx).1 ⟨d, hd⟩⟩
    · rintro (⟨e, he, hnameless⟩ | ⟨l, hl, hundeclared⟩)
      · obtain ⟨d, hd⟩ := (exists_missingName_iff ctx e).2 hnameless
        exact ⟨d, (hmem d).2 ⟨e, he, .inl hd⟩⟩
      · obtain ⟨e, he, hl⟩ := List.mem_flatMap.1 hl
        obtain ⟨d, hd⟩ := (l.exists_error_iff ctx).2 hundeclared
        exact ⟨d, (hmem d).2 ⟨e, he, .inr ⟨l, hl, hd⟩⟩⟩

/-- A schema in which a qualifier is bound anew and another one is not bound. -/
def reboundSource : String :=
  "<schema xmlns='http://www.w3.org/2001/XMLSchema' xmlns:p='a'>"
    ++ "<simpleType name='t'><union memberTypes='p:u v' xmlns:p='b'/></simpleType>"
    ++ "<attribute name='w' type='q:x'/></schema>"

theorem Schema.names_of_rebound :
    ∃ schema, Schema.parse none reboundSource = .ok schema ∧
      schema.uses.map (fun u => u.names.map fun n => (n.space, n.localName, n.qualifier))
        = [[(some "b", "u", some "p"), (some schemaSpace, "v", none)], [],
          [(none, "x", some "q")]] ∧
      ∃ (ctx : Context) (kept : List Lookup), (kept.map (·.use ctx)).Perm schema.uses ∧
        (kept.flatMap (·.errors ctx)).Sublist schema.diagnostics := by
  have hnames : (Schema.parse none reboundSource).toOption.map (fun s =>
      s.uses.map fun u => u.names.map fun n => (n.space, n.localName, n.qualifier))
        = some [[(some "b", "u", some "p"), (some schemaSpace, "v", none)], [],
          [(none, "x", some "q")]] := by
    decide +kernel
  cases hparse : Schema.parse none reboundSource with
  | error e =>
    rw [hparse] at hnames
    cases hnames
  | ok schema =>
    rw [hparse] at hnames
    obtain ⟨events, doc, root, -, -, -, -, ⟨kept, -, hperm, herrors⟩, -⟩ := names_of_parse hparse
    exact ⟨schema, rfl, Option.some.inj hnames, contextOf none root, kept, hperm, herrors⟩

end Written

end XsdCatalog
