import XsdCatalog.Proofs.RegistryContents

/-!
# Names and keys

A key joins a namespace and a local name with a bar, and nothing keeps bars out of either of them.
Two names have one key if they are equal or if they are cut out of one text at different bars.
Where the local names have no bar, one key is one name.
-/

namespace XsdCatalog

namespace QName

/-- The first name ends its namespace at a later bar than the second one. -/
def Shifted (a b : QName) : Prop :=
  ∃ between, a.spaceText = b.spaceText ++ "|" ++ between ∧
    b.localName = between ++ "|" ++ a.localName

theorem beq_iff {a b : QName} :
    (a == b) = true ↔ a.spaceText = b.spaceText ∧ a.localName = b.localName := by
  show (a.expanded == b.expanded) = true ↔ _
  rw [beq_iff_eq, expanded, expanded, Prod.mk.injEq]

private theorem key_eq_of_beq {a b : QName} (h : (a == b) = true) : a.key = b.key := by
  obtain ⟨hs, hl⟩ := beq_iff.1 h
  rw [key, key, hs, hl]

theorem Shifted.key_eq {a b : QName} (h : a.Shifted b) : a.key = b.key := by
  obtain ⟨between, hs, hl⟩ := h
  rw [key, key, hs, hl]
  simp only [String.append_assoc]

private theorem Shifted.bar_mem {a b : QName} (h : a.Shifted b) :
    '|' ∈ a.spaceText.toList ∧ '|' ∈ b.localName.toList := by
  obtain ⟨between, hs, hl⟩ := h
  simp [hs, hl]

/-- Of two namespaces in front of one text the longer one holds the bar behind the shorter one. -/
theorem beq_or_shifted {a b : QName} {rest : List Char}
    (hs : b.spaceText.toList = a.spaceText.toList ++ rest)
    (hl : '|' :: a.localName.toList = rest ++ '|' :: b.localName.toList) :
    (a == b) = true ∨ b.Shifted a := by
  cases rest with
  | nil =>
    rw [List.append_nil] at hs
    rw [List.nil_append, List.cons.injEq] at hl
    exact .inl (beq_iff.2 ⟨(String.toList_inj.1 hs).symm, String.toList_inj.1 hl.2⟩)
  | cons c rest =>
    rw [List.cons_append, List.cons.injEq] at hl
    obtain ⟨rfl, hl⟩ := hl
    refine .inr ⟨String.ofList rest, ?_, ?_⟩
    · apply String.toList_inj.1
      simp [hs]
    · apply String.toList_inj.1
      simp [hl]

private theorem key_eq_iff {a b : QName} :
    a.key = b.key ↔ (a == b) = true ∨ a.Shifted b ∨ b.Shifted a := by
  constructor
  · intro h
    have hchars : a.spaceText.toList ++ '|' :: a.localName.toList
        = b.spaceText.toList ++ '|' :: b.localName.toList := by
      have h := congrArg String.toList h
      simpa [key] using h
    rcases List.append_eq_append_iff.1 hchars with ⟨rest, hs, hl⟩ | ⟨rest, hs, hl⟩
    · exact (beq_or_shifted hs hl).imp_right .inr
    · rcases beq_or_shifted hs hl with he | hshift
      · exact .inl (beq_iff.2 ⟨(beq_iff.1 he).1.symm, (beq_iff.1 he).2.symm⟩)
      · exact .inr (.inl hshift)
  · rintro (h | h | h)
    · exact key_eq_of_beq h
    · exact h.key_eq
    · exact h.key_eq.symm

private theorem key_eq_iff_beq {a b : QName} (ha : '|' ∉ a.localName.toList)
    (hb : '|' ∉ b.localName.toList) : a.key = b.key ↔ (a == b) = true := by
  rw [key_eq_iff]
  constructor
  · rintro (h | h | h)
    · exact h
    · exact absurd h.bar_mem.2 hb
    · exact absurd h.bar_mem.2 ha
  · exact .inl

end QName

/-- What is found under a name is so called, or by a name cut out of the same text elsewhere. Where
neither local name has a bar, it is so called. -/
structure FoundAs {α : Type} (name : α → Option QName) (q : QName) (a : α) : Prop where
  named : ∃ n, name a = some n ∧ ((n == q) = true ∨ n.Shifted q ∨ q.Shifted n)
  beq : ∀ n, name a = some n → '|' ∉ n.localName.toList → '|' ∉ q.localName.toList →
    (n == q) = true

private theorem foundAs_of_key {α : Type} {name : α → Option QName} {q : QName} {a : α}
    (h : (name a).map (·.key) = some q.key) : FoundAs name q a := by
  obtain ⟨n, hn, hkey⟩ := Option.map_eq_some_iff.1 h
  refine ⟨⟨n, hn, QName.key_eq_iff.1 hkey⟩, fun m hm hmbar hqbar => ?_⟩
  obtain rfl : n = m := Option.some.inj (hn.symm.trans hm)
  exact (QName.key_eq_iff_beq hmbar hqbar).1 hkey

private theorem foundAs_of_collect {α : Type} {name : α → Option QName} {lists : List (List α)}
    {q : QName} {a : α}
    (h : ((Registry.ofList (Entry.collect name lists)).get? q.key).map (·.component) = some a) :
    FoundAs name q a := by
  obtain ⟨e, he, rfl⟩ := Option.map_eq_some_iff.1 h
  obtain ⟨-, -, -, hkey⟩ := (Registry.get?_collect.1 he).1
  exact foundAs_of_key hkey

/-- A lookup finds what is called by the name asked for, unless a bar in one of the local names lets
two names have one key; and those names are the only ones with one key. -/
theorem lookups_by_key (schemas : List Written.Schema) (options : Catalog.LoadOptions) (q : QName) :
    (∀ a b : QName, a.key = b.key ↔ (a == b) = true ∨ a.Shifted b ∨ b.Shifted a) ∧
    (∀ a b : QName, '|' ∉ a.localName.toList → '|' ∉ b.localName.toList →
      (a.key = b.key ↔ (a == b) = true)) ∧
    let c := Catalog.load schemas options
    (∀ e, c.element? q = some e → FoundAs (some ·.name) q e) ∧
    (∀ t, c.complexType? q = some t → FoundAs (·.name) q t) ∧
    (∀ t, c.simpleType? q = some t → FoundAs (·.name) q t) ∧
    (∀ a, c.attribute? q = some a → FoundAs (some ·.name) q a) ∧
    (∀ g, c.group? q = some g → FoundAs (some ·.name) q g) ∧
    (∀ g, c.attributeGroup? q = some g → FoundAs (some ·.name) q g) := by
  refine ⟨fun a b => QName.key_eq_iff, fun a b => QName.key_eq_iff_beq, ?_⟩
  intro c
  rw [show c = _ from Catalog.load_eq schemas options]
  exact ⟨fun _ => foundAs_of_collect, fun _ => foundAs_of_collect, fun _ => foundAs_of_collect,
    fun _ => foundAs_of_collect, fun _ => foundAs_of_collect, fun _ => foundAs_of_collect⟩

/-- Elements of two namespaces, in this order: `c` in `a|b`, and `b|c` in `a`. -/
def barredSchemas : List Written.Schema :=
  [{ items := [.element { name := some (.inSpace "a|b" "c") }] },
   { items := [.element { name := some (.inSpace "a" "b|c") }] }]

/-- The later of two declarations with different names is found under the name of the earlier one. -/
theorem element_under_another_name :
    ∃ e, (Catalog.load barredSchemas).element? (.inSpace "a|b" "c") = some e ∧
      e.name = .inSpace "a" "b|c" ∧ (e.name == QName.inSpace "a|b" "c") = false := by
  refine ⟨{ name := .inSpace "a" "b|c" }, ?_, rfl, by decide⟩
  rfl

end XsdCatalog
