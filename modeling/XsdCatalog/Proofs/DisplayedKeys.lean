import XsdCatalog.Catalog.Outline
import XsdCatalog.Proofs.NameKeys
import XsdCatalog.Proofs.Splitting

/-!
# Keys as names

An outline shows the key of a registry entry as a name: what stands in front of the first bar is put
in braces. This is the namespace of the entry exactly if there is no bar in it. Otherwise another
name with the same key is shown, the one whose namespace has no bar. Both forms of the outline print
the names in the order of the registry.
-/

namespace XsdCatalog

namespace QName

/-- The namespace in braces, if there is one, and the local name. -/
def braced (q : QName) : String :=
  if q.spaceText = "" then q.localName else "\x7b" ++ q.spaceText ++ "\x7d" ++ q.localName

/-- A text shows a name: in braces if its namespace has no bar, and else as the name with the same
key whose namespace has none. -/
structure ShownAs (q : QName) (shown : String) : Prop where
  braced_iff : shown = q.braced ↔ '|' ∉ q.spaceText.toList
  same_key : ∃ n : QName, n.key = q.key ∧ '|' ∉ n.spaceText.toList ∧ shown = n.braced

private theorem displayKey_key {q : QName} (h : '|' ∉ q.spaceText.toList) :
    displayKey q.key = q.braced := by
  have hkey : q.key = String.ofList (q.spaceText.toList ++ '|' :: q.localName.toList) := by
    rw [← String.toList_inj, String.toList_ofList, key, String.toList_append, String.toList_append,
      List.append_assoc]
    rfl
  rw [displayKey, hkey, Text.cut?_append h, String.ofList_toList, String.ofList_toList]
  rfl

/-- A name with a bar in its namespace has the key of a name that ends at the first one. -/
theorem exists_shifted {q : QName} (h : '|' ∈ q.spaceText.toList) :
    ∃ n : QName, q.Shifted n ∧ '|' ∉ n.spaceText.toList := by
  obtain ⟨before, behind, hsplit, hbefore⟩ := List.eq_append_cons_of_mem h
  refine ⟨{ space := some (String.ofList before),
            localName := String.ofList behind ++ "|" ++ q.localName },
    ⟨String.ofList behind, ?_, rfl⟩, ?_⟩
  · rw [← String.toList_inj, hsplit]
    simp [spaceText]
  · simpa [spaceText] using hbefore

/-- What is cut at another bar looks different in braces. -/
theorem Shifted.braced_ne {a b : QName} (h : a.Shifted b) : b.braced ≠ a.braced := by
  obtain ⟨between, hs, hl⟩ := h
  have ha : a.spaceText ≠ "" := by simp [hs]
  intro he
  rw [braced, braced, if_neg ha, hs, hl] at he
  split at he
  · next hb =>
    have hlength := congrArg (·.toList.length) he
    simp [hb] at hlength
    omega
  · have hchars := congrArg String.toList he
    simp [List.append_assoc] at hchars

private theorem shownAs_displayKey (q : QName) : q.ShownAs (displayKey q.key) := by
  by_cases hbar : '|' ∈ q.spaceText.toList
  · obtain ⟨n, hshifted, hn⟩ := exists_shifted hbar
    have hshown : displayKey q.key = n.braced := hshifted.key_eq ▸ displayKey_key hn
    refine ⟨iff_of_false ?_ (not_not_intro hbar), n, hshifted.key_eq.symm, hn, hshown⟩
    rw [hshown]
    exact hshifted.braced_ne
  · exact ⟨iff_of_true (displayKey_key hbar) hbar, q, rfl, hbar, displayKey_key hbar⟩

end QName

/-- The value of a field of an object. -/
def Json.Value.field? : Value → String → Option Value
  | object fields, name => fields.lookup name
  | _, _ => none

namespace Catalog

/-- An outline prints names under a title: as lines behind one that counts them, and as a field. -/
structure Prints (c : Catalog) (title : String) (shown : List String) : Prop where
  lines : Outline.registryLines title shown <:+: Outline.lines c
  field : ((Outline.value c).field? "registries").bind (·.field? title) = some (.texts shown)

/-- The names in the registries by the titles of these, in the order of the lines. -/
def titled (c : Catalog) : List (String × List String) :=
  [("elements", names c.elements), ("complexTypes", names c.complexTypes),
    ("simpleTypes", names c.simpleTypes), ("attributes", names c.attributes),
    ("groups", names c.groups), ("attributeGroups", names c.attributeGroups)]

private theorem prints_of_mem_titled {c : Catalog} {title : String} {shown : List String}
    (h : (title, shown) ∈ c.titled) : c.Prints title shown where
  lines := by
    have hlines : Outline.lines c = c.documents.map Outline.documentLine
        ++ (c.titled.map fun p => Outline.registryLines p.1 p.2).flatten
        ++ (c.diagnostics.map (·.display) ++ c.unresolved.map fun r => "unresolved " ++ r.display) := by
      simp [Outline.lines, titled]
    have hinfix := List.infix_of_mem_flatten
      (List.mem_map_of_mem (f := fun p => Outline.registryLines p.1 p.2) h)
    rw [hlines]
    exact hinfix.trans (List.infix_append _ _ _)
  field := by
    simp only [titled, List.mem_cons, List.not_mem_nil, or_false, Prod.mk.injEq] at h
    rcases h with ⟨rfl, rfl⟩ | ⟨rfl, rfl⟩ | ⟨rfl, rfl⟩ | ⟨rfl, rfl⟩ | ⟨rfl, rfl⟩ | ⟨rfl, rfl⟩ <;> rfl

end Catalog

/-- An outline shows the components of a registry under a title by their own names, in the order of
the registry. -/
structure Registry.ShownIn {α : Type} (r : Registry (Entry α)) (c : Catalog) (title : String)
    (name : α → Option QName) : Prop where
  names : List.Forall₂ (fun shown e => ∃ q, name e.component = some q ∧ q.ShownAs shown)
    (Catalog.names r) r.values
  printed : c.Prints title (Catalog.names r)

private theorem Registry.shownIn_of_eq {α : Type} {r : Registry (Entry α)} {c : Catalog}
    {title : String}
    {name : α → Option QName} {lists : List (List α)} (hr : r = ofList (Entry.collect name lists))
    (htitled : (title, Catalog.names r) ∈ c.titled) : r.ShownIn c title name where
  names := by
    rw [hr, Catalog.names, keys, values, List.map_map, List.forall₂_map_left_iff,
      List.forall₂_map_right_iff, List.forall₂_same]
    intro p hp
    obtain ⟨q, hq, hkey⟩ := Option.map_eq_some_iff.1 (keyed_collect hp).2
    refine ⟨q, hq, ?_⟩
    show q.ShownAs (displayKey p.1)
    exact hkey ▸ q.shownAs_displayKey
  printed := Catalog.prints_of_mem_titled htitled

/-- The names that an outline shows for the six registries of a catalog. -/
theorem names_of_registries (schemas : List Written.Schema) (options : Catalog.LoadOptions) :
    (∀ q : QName, q.ShownAs (displayKey q.key)) ∧
    let c := Catalog.load schemas options
    c.elements.ShownIn c "elements" (some ·.name) ∧
    c.complexTypes.ShownIn c "complexTypes" (·.name) ∧
    c.simpleTypes.ShownIn c "simpleTypes" (·.name) ∧
    c.attributes.ShownIn c "attributes" (some ·.name) ∧
    c.groups.ShownIn c "groups" (some ·.name) ∧
    c.attributeGroups.ShownIn c "attributeGroups" (some ·.name) := by
  refine ⟨QName.shownAs_displayKey, ?_⟩
  intro c
  have hc := Catalog.load_eq schemas options
  exact ⟨Registry.shownIn_of_eq (congrArg Catalog.elements hc) (by simp [c, Catalog.titled]),
    Registry.shownIn_of_eq (congrArg Catalog.complexTypes hc) (by simp [c, Catalog.titled]),
    Registry.shownIn_of_eq (congrArg Catalog.simpleTypes hc) (by simp [c, Catalog.titled]),
    Registry.shownIn_of_eq (congrArg Catalog.attributes hc) (by simp [c, Catalog.titled]),
    Registry.shownIn_of_eq (congrArg Catalog.groups hc) (by simp [c, Catalog.titled]),
    Registry.shownIn_of_eq (congrArg Catalog.attributeGroups hc) (by simp [c, Catalog.titled])⟩

/-- An element of a namespace with a bar is shown as if the namespace ended there. -/
theorem names_of_barred_namespace :
    let c := Catalog.load [{ items := [.element { name := some (.inSpace "a|b" "c") }] }]
    c.elements.values.map (·.component.name.braced) = ["\x7ba|b\x7dc"] ∧
      Catalog.names c.elements = ["\x7ba\x7db|c"] := by
  refine ⟨?_, ?_⟩ <;> rfl

end XsdCatalog
