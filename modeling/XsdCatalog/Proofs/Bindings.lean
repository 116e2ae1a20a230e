import Mathlib.Data.List.Find
import XsdCatalog.Proofs.Occurrence
import XsdCatalog.Proofs.TagDeclarations

/-!
# Bindings of a tag

What a qualifier is bound to in an element is said by the first attribute that binds it in the
innermost tag with one. Which other attributes stand in the tags is of no account.
-/

namespace XsdCatalog.Markup

/-- An attribute with this name declares a namespace. -/
def TagName.declares (n : TagName) : Bool :=
  n.qualifier == "xmlns" || n.localName == "xmlns"

/-- An attribute with this name binds the qualifier. The binding of `xml` is not changed. -/
def TagName.binds (n : TagName) (qualifier : String) : Bool :=
  if n.qualifier = "xmlns" then n.localName == qualifier && qualifier != "xml"
  else n.localName == "xmlns" && qualifier == ""

namespace Tag

private theorem lookup?_append (bs cs : List Binding) (qualifier : String) :
    lookup? (bs ++ cs) qualifier = (lookup? bs qualifier).or (lookup? cs qualifier) := by
  rw [lookup?, List.find?_append, Option.map_or]
  rfl

private theorem lookup?_singleton (b : Binding) (qualifier : String) :
    lookup? [b] qualifier = if b.qualifier = qualifier then some b.space else none := by
  rw [lookup?, List.find?_singleton]
  by_cases h : b.qualifier = qualifier
  · rw [if_pos h, if_pos (beq_iff_eq.2 h), Option.map_some]
  · rw [if_neg h, if_neg (mt beq_iff_eq.1 h), Option.map_none]

private theorem lookup?_eq_none_iff {bs : List Binding} {qualifier : String} :
    lookup? bs qualifier = none ↔ bs.any (·.qualifier == qualifier) = false := by
  rw [lookup?, Option.map_eq_none_iff, List.find?_eq_none, List.any_eq_false]

theorem lookup?_inForce (own outer : List Binding) (qualifier : String) :
    lookup? (inForce own outer) qualifier
      = (lookup? own qualifier).or (lookup? outer qualifier) := by
  rw [inForce, lookup?_append]
  cases hown : lookup? own qualifier with
  | some space => rfl
  | none =>
    have hnone := lookup?_eq_none_iff.1 hown
    rw [Option.none_or, Option.none_or, lookup?, lookup?, List.find?_filter]
    have hkept (b : Binding) : decide ((!own.any (·.qualifier == b.qualifier)) = true ∧
        (b.qualifier == qualifier) = true) = (b.qualifier == qualifier) := by
      by_cases hb : b.qualifier = qualifier
      · simp [hb, hnone]
      · simp [hb]
    rw [funext hkept]

/-- What an attribute adds to the bindings of its tag. -/
def bound : TagName × String → List Binding
  | (name, value) =>
    if name.qualifier = "xmlns" then if name.localName = "xml" then [] else [⟨name.localName, value⟩]
    else if name.localName = "xmlns" then [⟨"", value⟩] else []

private theorem lookup?_bound (p : TagName × String) (qualifier : String) :
    lookup? (bound p) qualifier = if p.1.binds qualifier then some p.2 else none := by
  obtain ⟨name, value⟩ := p
  rw [bound, TagName.binds]
  by_cases hname : name.qualifier = "xmlns"
  · rw [if_pos hname, if_pos hname]
    by_cases hlocal : name.localName = "xml"
    · have hbinds : (name.localName == qualifier && qualifier != "xml") = false := by
        rw [hlocal, Bool.and_eq_false_iff, beq_eq_false_iff_ne, bne_eq_false_iff_eq]
        exact (em (qualifier = "xml")).symm.imp_left fun h => h ∘ Eq.symm
      rw [if_pos hlocal, hbinds]
      rfl
    · rw [if_neg hlocal, lookup?_singleton]
      by_cases hq : name.localName = qualifier
      · have hxml : (qualifier != "xml") = true := bne_iff_ne.2 (hq ▸ hlocal)
        rw [if_pos hq, beq_iff_eq.2 hq, hxml]
        rfl
      · rw [if_neg hq, beq_false_of_ne hq]
        rfl
  · rw [if_neg hname, if_neg hname]
    by_cases hlocal : name.localName = "xmlns"
    · rw [if_pos hlocal, lookup?_singleton, beq_iff_eq.2 hlocal, Bool.true_and]
      by_cases hq : "" = qualifier
      · rw [if_pos hq, if_pos (beq_iff_eq.2 hq.symm)]
      · rw [if_neg hq, if_neg (mt beq_iff_eq.1 (Ne.symm hq))]
    · rw [if_neg hlocal, beq_false_of_ne hlocal]
      rfl

/-- The namespace may be declared: `xml` keeps the one it has, and nothing else is bound to it. -/
def allowed : TagName × String → Bool
  | (name, value) =>
    value != xmlnsSpace &&
      (value == xmlSpace) == (name.qualifier == "xmlns" && name.localName == "xml")

/-- The qualifier is not bound yet; the empty one may be. -/
def fresh (own : List Binding) (name : TagName) : Bool :=
  name.qualifier != "xmlns" || name.localName == "xml" || !own.any (·.qualifier == name.localName)

/-- An attribute declares something if it may, or it is left as it is. -/
theorem declare_cons (own : List Binding) (p : TagName × String) (as : List (TagName × String)) :
    declare own (p :: as)
      = if p.1.declares then
          if allowed p && fresh own p.1 then declare (own ++ bound p) as else none
        else (declare own as).map fun (own, others) => (own, p :: others) := by
  obtain ⟨name, value⟩ := p
  rw [declare]
  by_cases hname : name.qualifier = "xmlns"
  · have hdeclares : name.declares = true := by
      rw [TagName.declares, beq_iff_eq.2 hname, Bool.true_or]
    rw [if_pos hname, if_pos hdeclares, bound, if_pos hname]
    by_cases hlocal : name.localName = "xml"
    · rw [if_pos hlocal, if_pos hlocal, List.append_nil]
      by_cases hspace : value = xmlnsSpace <;> by_cases hxml : value = xmlSpace <;>
        simp [allowed, fresh, hname, hlocal, hspace, hxml]
    · have hfresh : fresh own name = !own.any (·.qualifier == name.localName) := by
        simp [fresh, hname, hlocal]
      rw [if_neg hlocal, if_neg hlocal, hfresh]
      generalize own.any (·.qualifier == name.localName) = taken
      cases taken <;> by_cases hspace : value = xmlnsSpace <;> by_cases hxml : value = xmlSpace <;>
        simp [allowed, hname, hlocal, hspace, hxml]
  · rw [if_neg hname, bound, if_neg hname]
    by_cases hlocal : name.localName = "xmlns"
    · by_cases hspace : value = xmlnsSpace <;> by_cases hxml : value = xmlSpace <;>
        simp [allowed, fresh, TagName.declares, hname, hlocal, hspace, hxml]
    · have hdeclares : ¬ name.declares = true := by
        simp [TagName.declares, hname, hlocal]
      rw [if_neg hlocal, if_neg hdeclares]

/-- The attributes that declare nothing are left. -/
theorem others_of_declare {own own' : List Binding} {as others : List (TagName × String)}
    (h : declare own as = some (own', others)) : others = as.filter (!·.1.declares) := by
  induction as generalizing own others with
  | nil =>
    cases h
    rfl
  | cons p as ih =>
    rw [declare_cons] at h
    split at h
    · next hdeclares =>
      obtain ⟨-, h⟩ := Option.ite_none_right_eq_some.1 h
      rw [ih h, List.filter_cons, hdeclares]
      rfl
    · next hdeclares =>
      obtain ⟨⟨own'', others'⟩, hrest, heq⟩ := Option.map_eq_some_iff.1 h
      cases heq
      rw [ih hrest, List.filter_cons, Bool.eq_false_iff.2 hdeclares]
      rfl

private theorem bound_of_not_declares {p : TagName × String} (h : ¬ p.1.declares = true) :
    bound p = [] := by
  rw [TagName.declares, Bool.or_eq_true, beq_iff_eq, beq_iff_eq, not_or] at h
  obtain ⟨name, value⟩ := p
  exact (if_neg h.1).trans (if_neg h.2)

variable {own own' : List Binding} {as others : List (TagName × String)}

private theorem eq_of_declare (h : declare own as = some (own', others)) :
    own' = own ++ as.flatMap bound := by
  induction as generalizing own others with
  | nil =>
    cases h
    exact (List.append_nil _).symm
  | cons p as ih =>
    rw [declare_cons] at h
    split at h
    · obtain ⟨-, h⟩ := Option.ite_none_right_eq_some.1 h
      rw [ih h, List.flatMap_cons, List.append_assoc]
    · next hdeclares =>
      obtain ⟨⟨own'', others'⟩, hrest, heq⟩ := Option.map_eq_some_iff.1 h
      cases heq
      rw [ih hrest, List.flatMap_cons, bound_of_not_declares hdeclares, List.nil_append]

/-- Of the attributes that bind a qualifier the first one counts. -/
theorem lookup?_of_declare (h : declare own as = some (own', others)) (qualifier : String) :
    lookup? own' qualifier
      = (lookup? own qualifier).or ((as.find? (·.1.binds qualifier)).map (·.2)) := by
  have hbound (as : List (TagName × String)) :
      lookup? (as.flatMap bound) qualifier = (as.find? (·.1.binds qualifier)).map (·.2) := by
    induction as with
    | nil => rfl
    | cons p as ih =>
      rw [List.flatMap_cons, lookup?_append, lookup?_bound, ih, List.find?_cons]
      cases p.1.binds qualifier <;> rfl
  rw [eq_of_declare h, lookup?_append, hbound]

private theorem declare_append (own : List Binding) (as bs : List (TagName × String)) :
    declare own (as ++ bs) = (declare own as).bind fun (own, others) =>
      (declare own bs).map fun (own, more) => (own, others ++ more) := by
  induction as generalizing own with
  | nil =>
    rw [List.nil_append]
    exact Option.map_id'.symm
  | cons p as ih =>
    rw [List.cons_append, declare_cons, declare_cons, ih, ih]
    split
    · split <;> rfl
    · cases declare own as with
      | none => rfl
      | some found =>
        rw [Option.bind_some, Option.map_some, Option.bind_some, Option.map_map]
        rfl

private theorem allowed_of_mem {p : TagName × String} (h : declare own as = some (own', others))
    (hp : p ∈ as) (hdeclares : p.1.declares = true) : allowed p = true := by
  induction as generalizing own others with
  | nil => cases hp
  | cons p' as ih =>
    rw [declare_cons] at h
    split at h
    · obtain ⟨hallowed, h⟩ := Option.ite_none_right_eq_some.1 h
      rcases List.mem_cons.1 hp with rfl | hp
      · exact (Bool.and_eq_true _ _ ▸ hallowed).1
      · exact ih h hp
    · next hother =>
      obtain ⟨⟨own'', others'⟩, hrest, heq⟩ := Option.map_eq_some_iff.1 h
      cases heq
      rcases List.mem_cons.1 hp with rfl | hp
      · exact absurd hdeclares hother
      · exact ih hrest hp

private theorem fresh_of_lookup? {name : TagName}
    (h : name.qualifier = "xmlns" → ∀ qualifier, name.binds qualifier = true →
      lookup? own qualifier = none) : fresh own name = true := by
  rw [fresh, Bool.or_eq_true, Bool.or_eq_true, bne_iff_ne, beq_iff_eq]
  by_cases hname : name.qualifier = "xmlns"
  · by_cases hxml : name.localName = "xml"
    · exact .inl (.inr hxml)
    · have hbinds : name.binds name.localName = true := by
        rw [TagName.binds, if_pos hname, beq_self_eq_true, Bool.true_and]
        exact bne_iff_ne.2 hxml
      rw [lookup?_eq_none_iff.1 (h hname _ hbinds)]
      exact .inr rfl
  · exact .inl (.inl hname)

/-- Attributes that declare different qualifiers declare them together. -/
theorem exists_declare (has : ∀ p ∈ as, p.1.declares = true ∧ allowed p = true)
    (hapart : as.Pairwise fun p p' => ∀ qualifier, p.1.binds qualifier = true →
      p'.1.binds qualifier = false)
    (hfresh : ∀ p ∈ as, p.1.qualifier = "xmlns" → ∀ qualifier, p.1.binds qualifier = true →
      lookup? own qualifier = none) :
    ∃ own', declare own as = some (own', []) := by
  induction as generalizing own with
  | nil => exact ⟨own, rfl⟩
  | cons p as ih =>
    rw [List.forall_mem_cons] at has hfresh
    rw [List.pairwise_cons] at hapart
    rw [declare_cons, if_pos has.1.1, has.1.2, fresh_of_lookup? hfresh.1, Bool.true_and,
      if_pos rfl]
    refine ih has.2 hapart.2 fun p' hp' hname qualifier hbinds => ?_
    have hp : p.1.binds qualifier = false := by
      by_contra hp
      rw [hapart.1 p' hp' qualifier (Bool.not_eq_false _ ▸ hp)] at hbinds
      cases hbinds
    rw [lookup?_append, hfresh.2 p' hp' hname qualifier hbinds, lookup?_bound, hp]
    rfl

end Tag

/-- The text that an attribute says. -/
def SpelledAttribute.text (a : SpelledAttribute) : String :=
  String.ofList ((value? a.value).getD [])

def SpelledAttribute.pair (a : SpelledAttribute) : TagName × String :=
  (a.name.name, a.text)

theorem values?_eq_some_iff {as : List SpelledAttribute} {values : List (TagName × String)} :
    values? (as.map (·.raw)) = some values ↔
      (∀ a ∈ as, (value? a.value).isSome = true) ∧ values = as.map (·.pair) := by
  induction as generalizing values with
  | nil =>
    refine ⟨fun h => ⟨fun a ha => absurd ha List.not_mem_nil, (Option.some.inj h).symm⟩, fun h => ?_⟩
    rw [h.2]
    rfl
  | cons a as ih =>
    have hpair {value : List Char} (h : value? a.value = some value) :
        a.pair = (a.name.name, String.ofList value) := by
      rw [SpelledAttribute.pair, SpelledAttribute.text, h]
      rfl
    rw [List.forall_mem_cons, List.map_cons, List.map_cons, values?]
    constructor
    · intro h
      obtain ⟨value, hvalue, h⟩ := Option.bind_eq_some_iff.1 h
      obtain ⟨rest, hrest, h⟩ := Option.bind_eq_some_iff.1 h
      cases h
      obtain ⟨hall, rfl⟩ := ih.1 hrest
      rw [hpair hvalue]
      exact ⟨⟨Option.isSome_of_eq_some hvalue, hall⟩, rfl⟩
    · rintro ⟨⟨ha, hall⟩, rfl⟩
      obtain ⟨value, hvalue⟩ := Option.isSome_iff_exists.1 ha
      have hraw : value? a.raw.value = some value := hvalue
      rw [hraw, ih.2 ⟨hall, rfl⟩, hpair hvalue]
      rfl

/-- The attribute that binds a qualifier in a tag. -/
def StartTag.binding? (t : StartTag) (qualifier : String) : Option SpelledAttribute :=
  t.attributes.find? (·.name.name.binds qualifier)

/-- A tag declares bindings of its own in front of those around it. -/
theorem Tag.exists_declare_of_make? {outer : List Binding} {position : Position} {name : TagName}
    {as : List (TagName × String)} {tag : Tag} (h : make? outer position name as = some tag) :
    ∃ own others, declare [] as = some (own, others) ∧ tag.bindings = inForce own outer := by
  rw [make?_eq] at h
  obtain ⟨-, h⟩ := Option.ite_none_left_eq_some.1 h
  obtain ⟨⟨bindings, attributes⟩, hscope, h⟩ := Option.bind_eq_some_iff.1 h
  obtain ⟨space, -, rfl⟩ := Option.map_eq_some_iff.1 h
  obtain ⟨⟨own, others⟩, hdeclare, hscope⟩ := Option.bind_eq_some_iff.1 hscope
  obtain ⟨attributes', -, hscope⟩ := Option.bind_eq_some_iff.1 hscope
  cases hscope
  exact ⟨own, others, hdeclare, rfl⟩

/-- A start tag that was read declares bindings and has other attributes, wherever it stands. -/
theorem StartTag.exists_declare_of_tag? {t : StartTag} {outer : List Binding} {position : Position}
    {tag : Tag} (h : t.tag? outer position = some tag) :
    ∃ own others, values? (t.attributes.map (·.raw)) = some (t.attributes.map (·.pair)) ∧
      Tag.declare [] (t.attributes.map (·.pair)) = some (own, others) ∧
      tag.bindings = Tag.inForce own outer := by
  obtain ⟨values, hvalues, h⟩ := Option.bind_eq_some_iff.1 h
  obtain ⟨-, rfl⟩ := values?_eq_some_iff.1 hvalues
  obtain ⟨own, others, hdeclare, hbindings⟩ := Tag.exists_declare_of_make? h
  exact ⟨own, others, hvalues, hdeclare, hbindings⟩

private theorem StartTag.lookup?_of_tag? {t : StartTag} {outer : List Binding} {position : Position}
    {tag : Tag} (h : t.tag? outer position = some tag) (qualifier : String) :
    Tag.lookup? tag.bindings qualifier
      = ((t.binding? qualifier).map (·.text)).or (Tag.lookup? outer qualifier) := by
  obtain ⟨own, others, -, hdeclare, hbindings⟩ := t.exists_declare_of_tag? h
  rw [hbindings, Tag.lookup?_inForce, Tag.lookup?_of_declare hdeclare, List.find?_map, Option.map_map]
  rfl

namespace SpelledName

variable {n : SpelledName} {qualifier : String}

private theorem name_of_chars (h : n.chars = declaringName qualifier) :
    n.name = if qualifier = "" then ⟨"", "xmlns"⟩ else ⟨"xmlns", qualifier⟩ := by
  rw [n.name_eq, h, declaringName]
  split
  · rfl
  · have hsplit : Cursor.splitName ('x' :: 'm' :: 'l' :: 'n' :: 's' :: ':' :: qualifier.toList)
        = (['x', 'm', 'l', 'n', 's'], qualifier.toList) := rfl
    rw [hsplit, String.ofList_toList]

private theorem binds_iff_of_chars (h : n.chars = declaringName qualifier) {other : String} :
    n.name.binds other = true ↔ other = qualifier ∧ qualifier ≠ "xml" := by
  rw [n.name_of_chars h, TagName.binds]
  by_cases hempty : qualifier = ""
  · subst hempty
    simp
  · rw [if_neg hempty, if_pos rfl, Bool.and_eq_true, beq_iff_eq, bne_iff_ne]
    constructor
    · rintro ⟨rfl, hxml⟩
      exact ⟨rfl, hxml⟩
    · rintro ⟨rfl, hxml⟩
      exact ⟨rfl, hxml⟩

/-- What binds a qualifier is spelled like that, but for what binds unqualified names. -/
theorem chars_of_binds (h : n.name.binds qualifier = true) (hempty : qualifier ≠ "") :
    n.chars = declaringName qualifier := by
  rw [TagName.binds] at h
  split at h
  · next hname =>
    rw [Bool.and_eq_true, beq_iff_eq] at h
    have hne : n.name.qualifier ≠ "" := hname ▸ by decide
    rcases n.chars_eq with hchars | ⟨-, hnone⟩
    · rw [hchars, TagName.chars, if_neg hne, hname, h.1, declaringName, if_neg hempty]
      rfl
    · exact absurd hnone hne
  · rw [Bool.and_eq_true, beq_iff_eq, beq_iff_eq] at h
    exact absurd h.2 hempty

end SpelledName

namespace StartTag

/-- What binds unqualified names is spelled `xmlns`. -/
def Plain (t : StartTag) : Prop :=
  ∀ a ∈ t.attributes, a.name.name.binds "" = true → a.name.chars = declaringName ""

variable {t : StartTag} {qualifier : String}

private theorem binding?_eq_declaring? (h : qualifier = "" → t.Plain) (hxml : qualifier ≠ "xml") :
    t.binding? qualifier = t.declaring? qualifier := by
  refine List.find?_congr fun a ha => ?_
  rw [Bool.eq_iff_iff, beq_iff_eq]
  refine ⟨fun hbinds => ?_, fun hchars => (SpelledName.binds_iff_of_chars hchars).2 ⟨rfl, hxml⟩⟩
  by_cases hempty : qualifier = ""
  · subst hempty
    exact h rfl a ha hbinds
  · exact SpelledName.chars_of_binds hbinds hempty

private theorem binding?_xml (t : StartTag) : t.binding? "xml" = none := by
  refine List.find?_eq_none.2 fun a _ => ?_
  rw [TagName.binds]
  split <;> simp

end StartTag

namespace Nested

variable {stack : List StartTag} {bindings : List Binding}

/-- A qualifier is bound by the innermost tag that declares it. -/
theorem lookup?_eq (h : Nested stack bindings) (hplain : ∀ t ∈ stack, t.Plain) {qualifier : String}
    (hxml : qualifier ≠ "xml") :
    Tag.lookup? bindings qualifier = (stack.findSome? (·.declaring? qualifier)).map (·.text) := by
  induction h with
  | nil => rfl
  | @cons stack outer position t tag _ htag ih =>
    rw [t.lookup?_of_tag? htag, ih fun s hs => hplain s (List.mem_cons_of_mem t hs),
      StartTag.binding?_eq_declaring? (fun _ => hplain t List.mem_cons_self) hxml,
      List.findSome?_cons]
    cases t.declaring? qualifier <;> rfl

private theorem lookup?_xml (h : Nested stack bindings) : Tag.lookup? bindings "xml" = none := by
  induction h with
  | nil => rfl
  | @cons stack outer position t tag _ htag ih =>
    rw [t.lookup?_of_tag? htag, ih, t.binding?_xml]
    rfl

private theorem exists_declare (h : Nested stack bindings) {t : StartTag} (ht : t ∈ stack) :
    ∃ own others, values? (t.attributes.map (·.raw)) = some (t.attributes.map (·.pair)) ∧
      Tag.declare [] (t.attributes.map (·.pair)) = some (own, others) := by
  induction h with
  | nil => cases ht
  | @cons stack outer position s tag _ htag ih =>
    rcases List.mem_cons.1 ht with rfl | ht
    · obtain ⟨own, others, hvalues, hdeclare, -⟩ := StartTag.exists_declare_of_tag? htag
      exact ⟨own, others, hvalues, hdeclare⟩
    · exact ih ht

end Nested

open Fragment (Inherits)

variable {stack : List StartTag} {t : StartTag} {extra : List SpelledAttribute}
  {bindings own : List Binding} {others : List (TagName × String)}

private theorem SpelledAttribute.pair_eq {a b : SpelledAttribute}
    (hname : a.name.chars = b.name.chars) (hvalue : a.value = b.value) : a.pair = b.pair := by
  rw [pair, pair, text, text, a.name.name_eq, b.name.name_eq, hname, hvalue]

/-- What is inherited was read as a declaration in the tag of an open element. -/
theorem Nested.allowed_of_inherits (hn : Nested stack bindings) (h : Inherits stack t extra)
    {a : SpelledAttribute} (ha : a ∈ extra) :
    a.name.name.declares = true ∧ Tag.allowed a.pair = true ∧ (value? a.value).isSome = true := by
  obtain ⟨qualifier, b, hchars, hb, hvalue⟩ := h.declared a ha
  obtain ⟨⟨s, hs, hmem⟩, hname⟩ :=
    StartTag.mem_of_findSome?_declaring? (Fragment.passed?_eq_some_iff.1 hb).1
  obtain ⟨own, others, hvalues, hdeclare⟩ := hn.exists_declare hs
  have hdeclares : b.name.name.declares = true := by
    rw [SpelledName.name_of_chars hname]
    split <;> rfl
  have hpair : a.pair = b.pair := SpelledAttribute.pair_eq (hchars.trans hname.symm) hvalue
  have hnames : a.name.name = b.name.name := congrArg Prod.fst hpair
  rw [hpair, hvalue, hnames]
  exact ⟨hdeclares, Tag.allowed_of_mem hdeclare (List.mem_map_of_mem hmem) hdeclares,
    (values?_eq_some_iff.1 hvalues).1 b hmem⟩

theorem lookup?_own (h : Tag.declare [] (t.attributes.map (·.pair)) = some (own, others))
    (qualifier : String) : Tag.lookup? own qualifier = (t.binding? qualifier).map (·.text) := by
  rw [Tag.lookup?_of_declare h, List.find?_map, Option.map_map]
  rfl

/-- A tag can be given what it inherits. -/
theorem Nested.exists_declare_append (hn : Nested stack bindings) (h : Inherits stack t extra)
    (hown : Tag.declare [] (t.attributes.map (·.pair)) = some (own, others)) :
    ∃ all, Tag.declare [] ((t.attributes ++ extra).map (·.pair)) = some (all, others) := by
  have hextra : ∃ all, Tag.declare own (extra.map (·.pair)) = some (all, []) := by
    refine Tag.exists_declare ?_ ?_ ?_
    · intro p hp
      obtain ⟨a, ha, rfl⟩ := List.mem_map.1 hp
      exact ⟨(hn.allowed_of_inherits h ha).1, (hn.allowed_of_inherits h ha).2.1⟩
    · refine List.pairwise_map.2 ((List.pairwise_map.1 h.nodup).imp_of_mem ?_)
      intro a b ha hb hne qualifier hbinds
      obtain ⟨qa, -, hachars, -⟩ := h.declared a ha
      obtain ⟨qb, -, hbchars, -⟩ := h.declared b hb
      have hqa := ((SpelledName.binds_iff_of_chars hachars).1 hbinds).1
      rw [Bool.eq_false_iff]
      intro hbinds'
      have hqb := ((SpelledName.binds_iff_of_chars hbchars).1 hbinds').1
      exact hne (by rw [hachars, hbchars, ← hqa, hqb])
    · intro p hp hname qualifier hbinds
      obtain ⟨a, ha, rfl⟩ := List.mem_map.1 hp
      obtain ⟨q, b, hchars, hb, -⟩ := h.declared a ha
      have hnone := (Fragment.passed?_eq_some_iff.1 hb).2.1
      obtain ⟨rfl, hxml⟩ := (SpelledName.binds_iff_of_chars hchars).1 hbinds
      have hempty : qualifier ≠ "" := by
        rintro rfl
        have hname' : a.name.name.qualifier = "xmlns" := hname
        rw [SpelledName.name_of_chars hchars] at hname'
        exact absurd hname' (by decide)
      rw [lookup?_own hown, StartTag.binding?_eq_declaring? (fun he => absurd he hempty) hxml, hnone]
      rfl
  obtain ⟨all, hall⟩ := hextra
  refine ⟨all, ?_⟩
  rw [List.map_append, Tag.declare_append, hown, Option.bind_some]
  show Option.map _ (Tag.declare own (extra.map (·.pair))) = _
  rw [hall]
  exact congrArg (fun others => some (all, others)) (List.append_nil others)

/-- With what it inherits a tag binds what was bound in its place, unless an empty declaration is
not passed on. -/
theorem Nested.lookup?_append (hn : Nested stack bindings) (hplain : ∀ s ∈ stack, s.Plain)
    (h : Inherits stack t extra)
    (hown : Tag.declare [] (t.attributes.map (·.pair)) = some (own, others)) {all : List Binding}
    (hall : Tag.declare [] ((t.attributes ++ extra).map (·.pair)) = some (all, others))
    {qualifier : String}
    (hpassed : t.binding? qualifier = none → Fragment.PassesOn stack qualifier) :
    Tag.lookup? all qualifier = (Tag.lookup? own qualifier).or (Tag.lookup? bindings qualifier) := by
  have hfind : Tag.lookup? all qualifier = ((t.binding? qualifier).map (·.text)).or
      ((extra.find? (·.name.name.binds qualifier)).map (·.text)) := by
    rw [Tag.lookup?_of_declare hall, List.find?_map, List.find?_append, Option.map_map, Option.map_or]
    rfl
  rw [hfind, lookup?_own hown]
  by_cases hxml : qualifier = "xml"
  · have hnone : extra.find? (·.name.name.binds qualifier) = none := by
      refine List.find?_eq_none.2 fun a ha hbinds => ?_
      obtain ⟨q, -, hchars, -⟩ := h.declared a ha
      obtain ⟨hq, hne⟩ := (SpelledName.binds_iff_of_chars hchars).1 hbinds
      exact hne (hq.symm.trans hxml)
    rw [hnone, hxml, hn.lookup?_xml]
    rfl
  · rw [hn.lookup?_eq hplain hxml]
    cases hbinding : t.binding? qualifier with
    | some a => rfl
    | none =>
      have hnone : t.declaring? qualifier = none := by
        refine List.find?_eq_none.2 fun a ha hchars => ?_
        refine List.find?_eq_none.1 hbinding a ha ?_
        exact (SpelledName.binds_iff_of_chars (beq_iff_eq.1 hchars)).2 ⟨rfl, hxml⟩
      have hfind : extra.find? (·.name.name.binds qualifier)
          = extra.find? (·.name.chars == declaringName qualifier) := by
        refine List.find?_congr fun a ha => ?_
        obtain ⟨q, -, hchars, -⟩ := h.declared a ha
        rw [Bool.eq_iff_iff, beq_iff_eq]
        refine ⟨fun hbinds => ?_, fun hchars => (SpelledName.binds_iff_of_chars hchars).2 ⟨rfl, hxml⟩⟩
        rw [hchars, ((SpelledName.binds_iff_of_chars hchars).1 hbinds).1]
      have hpassed : Fragment.passed? stack t qualifier
          = stack.findSome? (·.declaring? qualifier) := by
        ext a
        rw [Fragment.passed?_eq_some_iff]
        exact and_iff_left_of_imp fun ha => ⟨hnone, hpassed hbinding a ha⟩
      have htexts := congrArg (Option.map fun value => String.ofList ((value? value).getD []))
        (h.found qualifier)
      rw [hpassed, Option.map_map, Option.map_map] at htexts
      rw [hfind, Option.map_none, Option.none_or, Option.none_or]
      exact htexts

end XsdCatalog.Markup
