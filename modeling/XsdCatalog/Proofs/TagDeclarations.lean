import Mathlib.Data.List.Nodup
import XsdCatalog.Proofs.NormalSpelling

/-!
# Declarations in the bytes of tags

In a tag with differently spelled attribute names the declarations read from its bytes are its
attributes `xmlns` and `xmlns:` with something behind it. Inside several open elements the innermost
declaration of each key is in force.
-/

namespace XsdCatalog

open Text (encode)
open Markup (SpelledAttribute Spaces StartTag)

namespace Fragment.Declaration

/-- An attribute with the bytes of its name and value. -/
def ofAttribute (a : SpelledAttribute) : Declaration :=
  ⟨encode a.name.chars, encode a.value⟩

private theorem value?_encode (a : SpelledAttribute) (rest : List Char) :
    value? (encode (a.right.1 ++ (a.quoted ++ rest))) = some (some (encode a.value), encode rest) := by
  have hascii : a.quote.toNat < 128 := by
    rcases a.isQuote with h | h <;> rw [h] <;> decide
  have hquote : a.quote.toUInt8 = 0x22 ∨ a.quote.toUInt8 = 0x27 := by
    rcases a.isQuote with h | h <;> rw [h]
    · exact .inl (by decide)
    · exact .inr (by decide)
  have hspace : Text.Ends Markup.isSpace (a.quote :: (a.value ++ a.quote :: rest)) := by
    rcases a.isQuote with h | h <;> rw [h] <;> rfl
  have hvalue : ∀ c ∈ a.value, (c != a.quote) = true := fun c hc => bne_iff_ne.2 (a.isValue c hc).2.1
  have hends : Text.Ends (· != a.quote) (a.quote :: rest) := by
    simp [Text.Ends]
  have hrun : (encode (a.value ++ a.quote :: rest)).takeWhile (· != a.quote.toUInt8) = encode a.value ∧
      (encode (a.value ++ a.quote :: rest)).dropWhile (· != a.quote.toUInt8)
        = a.quote.toUInt8 :: encode rest := by
    rw [← Text.encode_cons_of_lt hascii]
    have hspan := (Text.mirrors_beq hascii).not.span (a.value ++ a.quote :: rest)
    exact ⟨hspan.1.trans (congrArg encode (Text.takeWhile_append hvalue hends)),
      hspan.2.trans (congrArg encode (Text.dropWhile_append hvalue hends))⟩
  have hquoted : a.quoted ++ rest = a.quote :: (a.value ++ a.quote :: rest) := by
    simp [SpelledAttribute.quoted]
  rw [value?, (Text.mirrors_isSpace.span _).2, hquoted, Text.dropWhile_append a.right.2 hspace,
    Text.encode_cons_of_lt hascii]
  simp only [hquote, if_true, hrun.1, hrun.2]

/-- Characters that may stand in a name may stand in a key. -/
theorem isKey_of_isNameChar {x : Char} (h : Markup.isNameChar x = true) :
    (x != '=' && !Markup.isSpace x) = true := by
  rw [not_isSpace_of_isNameChar h, Bool.not_false, Bool.and_true, bne_iff_ne]
  rintro rfl
  exact absurd h (by decide)

/-- The key at the start of the bytes of a name and of an equals sign behind it. -/
theorem exists_key (n : Markup.SpelledName) (left : Spaces) (rest : List Char) :
    ∃ b bytes, encode (n.chars ++ (left.1 ++ '=' :: rest)) = b :: bytes ∧
      (b :: bytes.takeWhile fun b => b != 0x3D && !isSpace b) = encode n.chars ∧
      (bytes.dropWhile fun b => b != 0x3D && !isSpace b).dropWhile isSpace = 0x3D :: encode rest := by
  have hname : ∀ c ∈ n.chars, (c != '=' && !Markup.isSpace c) = true := fun c hc =>
    isKey_of_isNameChar (n.isName c hc)
  have hkey : ∀ b ∈ encode n.chars, (b != 0x3D && !isSpace b) = true := mirrors_key.forall_mem hname
  have hbehind : Text.Ends (fun c => c != '=' && !Markup.isSpace c) (left.1 ++ '=' :: rest) :=
    Markup.Cursor.ends_append_of_spaces (fun h => by rw [h, Bool.not_true, Bool.and_false]) left rfl
  have hspan := mirrors_key.span (n.chars ++ (left.1 ++ '=' :: rest))
  rw [Text.takeWhile_append hname hbehind, Text.dropWhile_append hname hbehind] at hspan
  obtain ⟨x, tail, hx, -⟩ := n.exists_cons
  obtain ⟨b, bytes, hb, -⟩ := Text.exists_encode_cons x (tail ++ (left.1 ++ '=' :: rest))
  have hchars : encode (n.chars ++ (left.1 ++ '=' :: rest)) = b :: bytes := by
    rw [hx]
    exact hb
  have hfirst : (b != 0x3D && !isSpace b) = true := by
    obtain ⟨b', bytes', hb', -⟩ := Text.exists_encode_cons x tail
    refine hkey b ?_
    rw [Text.encode_append, hx, hb'] at hchars
    injection hchars with hbb _
    rw [hx, hb', hbb]
    exact List.mem_cons_self
  rw [hchars, List.takeWhile_cons_of_pos (p := fun b => b != 0x3D && !isSpace b) hfirst,
    List.dropWhile_cons_of_pos (p := fun b => b != 0x3D && !isSpace b) hfirst] at hspan
  refine ⟨b, bytes, hchars, hspan.1, ?_⟩
  have hequals : Text.Ends Markup.isSpace ('=' :: rest) := rfl
  rw [hspan.2, (Text.mirrors_isSpace.span _).2, Text.dropWhile_append left.2 hequals,
    Text.encode_cons_of_lt (by decide)]
  exact congrArg (· :: encode rest) (by decide : ('=').toUInt8 = 0x3D)

private theorem attributes_cons {seen : List Bytes} {a : SpelledAttribute}
    (h : encode a.name.chars ∉ seen) (rest : List Char) :
    attributes seen (encode (a.chars ++ rest))
      = ofAttribute a :: attributes (encode a.name.chars :: seen) (encode rest) := by
  obtain ⟨b, bytes, hb, hkey, hbehind⟩ := exists_key a.name a.left (a.right.1 ++ (a.quoted ++ rest))
  have hname : Text.Ends Markup.isSpace
      (a.name.chars ++ (a.left.1 ++ '=' :: (a.right.1 ++ (a.quoted ++ rest)))) := by
    obtain ⟨x, tail, hx, hname⟩ := a.name.exists_cons
    rw [hx]
    exact not_isSpace_of_isNameChar hname
  have hstart : (encode (a.chars ++ rest)).dropWhile isSpace = b :: bytes := by
    have hchars : a.chars ++ rest
        = a.gap.1 ++ (a.name.chars ++ (a.left.1 ++ '=' :: (a.right.1 ++ (a.quoted ++ rest)))) := by
      simp [SpelledAttribute.chars]
    rw [(Text.mirrors_isSpace.span _).2, hchars, Text.dropWhile_append a.gap.2 hname, hb]
  rw [attributes]
  split
  · next hnil =>
    rw [hstart] at hnil
    cases hnil
  · next first tail hfirst =>
    rw [hstart] at hfirst
    cases hfirst
    simp only
    split
    · next hnil =>
      rw [hbehind] at hnil
      cases hnil
    · next c behind hc =>
      rw [hbehind] at hc
      cases hc
      rw [if_pos rfl, hkey, if_neg (by simpa using h)]
      split
      · next hnone =>
        rw [value?_encode] at hnone
        cases hnone
      · next value after hvalue =>
        rw [value?_encode] at hvalue
        cases hvalue
        rfl

private theorem attributes_spaces (seen : List Bytes) (gap : Spaces) :
    attributes seen (encode gap.1) = [] := by
  have hend : (encode gap.1).dropWhile isSpace = [] :=
    List.dropWhile_eq_nil_iff.2 (Text.mirrors_isSpace.forall_mem gap.2)
  rw [attributes]
  split
  · rfl
  · next h =>
    rw [hend] at h
    cases h

/-- Differently spelled attributes are read one after the other. -/
theorem attributes_encode {seen : List Bytes} {as : List SpelledAttribute}
    (has : (as.map (·.name.chars)).Nodup) (hseen : ∀ a ∈ as, encode a.name.chars ∉ seen)
    (gap : Spaces) :
    attributes seen (encode (as.flatMap (·.chars) ++ gap.1)) = as.map ofAttribute := by
  induction as generalizing seen with
  | nil => exact attributes_spaces seen gap
  | cons a as ih =>
    rw [List.map_cons, List.nodup_cons] at has
    rw [List.flatMap_cons, List.append_assoc, attributes_cons (hseen a List.mem_cons_self), ih has.2]
    · rfl
    · intro b hb hmem
      rcases List.mem_cons.1 hmem with h | h
      · exact has.1 (List.mem_map.2 ⟨b, hb, Text.encode_injective h⟩)
      · exact hseen b (List.mem_cons_of_mem a hb) h

/-- Taking the place of declarations with its key, a declaration changes no key. -/
theorem key_replace (d e : Declaration) : (if e.key == d.key then d else e).key = e.key := by
  split
  · next h => exact (beq_iff_eq.1 h).symm
  · rfl

private theorem find?_put (ds : List Declaration) (d : Declaration) (key : Bytes) :
    (put ds d).find? (·.key == key) = if d.key = key then some d else ds.find? (·.key == key) := by
  rw [put]
  split
  · next hany =>
    have hkey : ((·.key == key) ∘ fun e => if e.key == d.key then d else e)
        = fun e : Declaration => e.key == key :=
      funext fun e => congrArg (· == key) (key_replace d e)
    rw [List.find?_map, hkey]
    cases hfind : ds.find? (·.key == key) with
    | none =>
      rw [if_neg, Option.map_none]
      rintro rfl
      obtain ⟨e, he, heq⟩ := List.any_eq_true.1 hany
      exact List.find?_eq_none.1 hfind e he heq
    | some e =>
      have he : e.key = key := by
        simpa using List.find?_some hfind
      rw [Option.map_some, he]
      by_cases hd : d.key = key
      · rw [if_pos hd, if_pos (beq_iff_eq.2 hd.symm)]
      · rw [if_neg hd, if_neg fun h => hd (beq_iff_eq.1 h).symm]
  · next hany =>
    rw [List.find?_append, List.find?_singleton]
    by_cases hd : d.key = key
    · have hnone : ds.find? (·.key == key) = none := by
        rw [List.find?_eq_none]
        intro e he heq
        refine hany (List.any_eq_true.2 ⟨e, he, ?_⟩)
        rw [hd]
        exact heq
      rw [hnone, if_pos hd, if_pos (beq_iff_eq.2 hd)]
      rfl
    · rw [if_neg hd, if_neg (mt beq_iff_eq.1 hd), Option.or_none]

/-- Of the declarations of a key the last one is in force. -/
theorem find?_inForce (scopes : List (List Declaration)) (key : Bytes) :
    (inForce scopes).find? (·.key == key) = scopes.flatten.reverse.find? (·.key == key) := by
  have hfold (ds es : List Declaration) :
      (ds.foldl put es).find? (·.key == key)
        = (ds.reverse.find? (·.key == key)).or (es.find? (·.key == key)) := by
    induction ds generalizing es with
    | nil => rfl
    | cons d ds ih =>
      rw [List.foldl_cons, ih, find?_put, List.reverse_cons, List.find?_append,
        List.find?_singleton, Option.or_assoc]
      by_cases hd : d.key = key
      · rw [if_pos hd, if_pos (beq_iff_eq.2 hd), Option.some_or]
      · rw [if_neg hd, if_neg (mt beq_iff_eq.1 hd), Option.none_or]
  rw [inForce, hfold, List.find?_nil, Option.or_none]

private theorem nodup_put {ds : List Declaration} (h : (ds.map (·.key)).Nodup) (d : Declaration) :
    ((put ds d).map (·.key)).Nodup := by
  rw [put]
  split
  · have hkey : ((·.key) ∘ fun e => if e.key == d.key then d else e)
        = fun e : Declaration => e.key :=
      funext (key_replace d)
    rw [List.map_map, hkey]
    exact h
  · next hany =>
    rw [List.map_append, List.nodup_append]
    refine ⟨h, List.pairwise_singleton _ _, fun key hkey key' hkey' heq => ?_⟩
    obtain ⟨e, he, rfl⟩ := List.mem_map.1 hkey
    obtain rfl := List.mem_singleton.1 hkey'
    exact hany (List.any_eq_true.2 ⟨e, he, beq_iff_eq.2 heq⟩)

/-- One declaration of a key is in force. -/
theorem nodup_inForce (scopes : List (List Declaration)) :
    ((inForce scopes).map (·.key)).Nodup := by
  rw [inForce]
  have hfold (ds es : List Declaration) (h : (es.map (·.key)).Nodup) :
      ((ds.foldl put es).map (·.key)).Nodup := by
    induction ds generalizing es with
    | nil => exact h
    | cons d ds ih => exact ih _ (nodup_put h d)
  exact hfold _ _ List.nodup_nil

theorem find?_eq_some_iff {ds : List Declaration} (h : (ds.map (·.key)).Nodup) {key : Bytes}
    {d : Declaration} : ds.find? (·.key == key) = some d ↔ d ∈ ds ∧ d.key = key := by
  constructor
  · intro hd
    exact ⟨List.mem_of_find?_eq_some hd, by simpa using List.find?_some hd⟩
  · rintro ⟨hd, rfl⟩
    cases hfind : ds.find? (·.key == d.key) with
    | none => exact absurd (beq_self_eq_true _) (List.find?_eq_none.1 hfind d hd)
    | some e =>
      have he : e.key = d.key := by
        simpa using List.find?_some hfind
      rw [List.inj_on_of_nodup_map h (List.mem_of_find?_eq_some hfind) hd he]

theorem find?_reverse {ds : List Declaration} (h : (ds.map (·.key)).Nodup) (key : Bytes) :
    ds.reverse.find? (·.key == key) = ds.find? (·.key == key) := by
  have hreverse : (ds.reverse.map (·.key)).Nodup := by
    rw [List.map_reverse]
    exact List.nodup_reverse.2 h
  ext d
  rw [find?_eq_some_iff hreverse, find?_eq_some_iff h, List.mem_reverse]

end Fragment.Declaration

/-- The spelling of the attribute that declares a qualifier; the empty one is for unqualified
names. -/
def declaringName (qualifier : String) : List Char :=
  if qualifier = "" then ['x', 'm', 'l', 'n', 's']
  else 'x' :: 'm' :: 'l' :: 'n' :: 's' :: ':' :: qualifier.toList

private theorem declaringName_injective : Function.Injective declaringName := by
  intro q q' h
  rw [declaringName, declaringName] at h
  split at h <;> split at h
  · next hq hq' => rw [hq, hq']
  · cases h
  · cases h
  · have hchars : q.toList = q'.toList := by simpa using h
    exact String.toList_inj.1 hchars

namespace Markup.StartTag

/-- No name stands twice among the attributes. -/
def NamedApart (t : StartTag) : Prop :=
  (t.attributes.map (·.name.chars)).Nodup

/-- The attribute that declares a qualifier, by its spelling. -/
def declaring? (t : StartTag) (qualifier : String) : Option SpelledAttribute :=
  t.attributes.find? (·.name.chars == declaringName qualifier)

theorem mem_of_findSome?_declaring? {stack : List StartTag} {qualifier : String}
    {a : SpelledAttribute} (h : stack.findSome? (·.declaring? qualifier) = some a) :
    (∃ t ∈ stack, a ∈ t.attributes) ∧ a.name.chars = declaringName qualifier := by
  obtain ⟨t, ht, ha⟩ := List.exists_of_findSome?_eq_some h
  exact ⟨⟨t, ht, List.mem_of_find?_eq_some ha⟩, by simpa using List.find?_some ha⟩

end Markup.StartTag

namespace Markup.SpelledAttribute

private theorem isSpace_of_mem_singleton : ∀ c ∈ [' '], isSpace c = true :=
  List.forall_mem_singleton.2 rfl

def oneSpace : Spaces :=
  ⟨[' '], isSpace_of_mem_singleton⟩

theorem oneSpace_ne_nil : oneSpace.1 ≠ [] :=
  List.cons_ne_nil _ _

/-- The attribute behind one space and in double quotes. -/
def tight (a : SpelledAttribute) (h : '"' ∉ a.value) : SpelledAttribute where
  gap := oneSpace
  name := a.name
  left := noSpaces
  right := noSpaces
  quote := '"'
  value := a.value
  gapped := oneSpace_ne_nil
  isQuote := .inl rfl
  isValue c hc := ⟨(a.isValue c hc).1, fun he => h (he ▸ hc), (a.isValue c hc).2.2⟩

end Markup.SpelledAttribute

namespace Fragment

open Declaration (ofAttribute declares inForce missing)

private theorem scopeOf_eq {t : StartTag} (h : t.NamedApart) :
    scopeOf t = (t.attributes.map ofAttribute).filter declares := by
  rw [scopeOf, Declaration.ofTag, (Text.mirrors_isSpace.not.span t.body).2, (span_body t).2,
    Declaration.attributes_encode h fun _ _ => List.not_mem_nil]

private theorem declares_of_key {d : Declaration} {qualifier : String}
    (h : d.key = encode (declaringName qualifier)) : declares d = true := by
  rw [declares, h, declaringName]
  split
  · rfl
  · have hcolon : ascii "xmlns:" = encode ['x', 'm', 'l', 'n', 's', ':'] := by decide
    rw [hcolon, Bool.or_eq_true, List.isPrefixOf_iff_prefix, Text.prefix_encode_iff]
    exact .inr ⟨qualifier.toList, rfl⟩

private theorem nodup_scopeOf {t : StartTag} (h : t.NamedApart) :
    ((scopeOf t).map (·.key)).Nodup := by
  have hkeys : ((t.attributes.map ofAttribute).map (·.key)).Nodup := by
    have hencoded := List.Nodup.map Text.encode_injective h
    rwa [List.map_map] at hencoded ⊢
  rw [scopeOf_eq h]
  exact hkeys.sublist (List.filter_sublist.map _)

private theorem find?_scopeOf {t : StartTag} (h : t.NamedApart) (qualifier : String) :
    (scopeOf t).find? (·.key == encode (declaringName qualifier))
      = (t.declaring? qualifier).map ofAttribute := by
  have hkey (a : SpelledAttribute) :
      decide (declares (ofAttribute a) = true ∧
        ((ofAttribute a).key == encode (declaringName qualifier)) = true)
        = (a.name.chars == declaringName qualifier) := by
    by_cases ha : a.name.chars = declaringName qualifier
    · have hd : (ofAttribute a).key = encode (declaringName qualifier) := congrArg encode ha
      rw [beq_iff_eq.2 ha]
      exact decide_eq_true ⟨declares_of_key hd, beq_iff_eq.2 hd⟩
    · rw [beq_false_of_ne ha]
      exact decide_eq_false fun hd => ha (Text.encode_injective (beq_iff_eq.1 hd.2))
  rw [scopeOf_eq h, List.find?_filter, List.find?_map, StartTag.declaring?]
  exact congrArg (fun p => (t.attributes.find? p).map ofAttribute) (funext hkey)

/-- The declaration in force inside open elements is the one in the innermost tag with one. -/
theorem find?_inForce_scopeOf {stack : List StartTag} (h : ∀ t ∈ stack, t.NamedApart)
    (qualifier : String) :
    (inForce (stack.map scopeOf).reverse).find? (·.key == encode (declaringName qualifier))
      = (stack.findSome? (·.declaring? qualifier)).map ofAttribute := by
  rw [Declaration.find?_inForce]
  induction stack with
  | nil => rfl
  | cons t stack ih =>
    have ht : t.NamedApart := h t List.mem_cons_self
    have hflatten : ((t :: stack).map scopeOf).reverse.flatten.reverse
        = (scopeOf t).reverse ++ (stack.map scopeOf).reverse.flatten.reverse := by
      simp
    rw [hflatten, List.find?_append, Declaration.find?_reverse (nodup_scopeOf ht), find?_scopeOf ht,
      ih fun s hs => h s (List.mem_cons_of_mem t hs), List.findSome?_cons]
    cases t.declaring? qualifier <;> rfl

private theorem nodup_missing (own : List Declaration) (outer : List (List Declaration)) :
    ((missing own outer).map (·.key)).Nodup :=
  (Declaration.nodup_inForce outer).sublist (List.filter_sublist.map _)

/-- The declaration of a qualifier that a tag is given: the one in force around it, if the tag makes
none itself. An empty one is passed on for unqualified names only. -/
def passed? (stack : List StartTag) (t : StartTag) (qualifier : String) : Option SpelledAttribute :=
  (stack.findSome? (·.declaring? qualifier)).filter fun a =>
    (t.declaring? qualifier).isNone && (!a.value.isEmpty || qualifier == "")

theorem passed?_eq_some_iff {stack : List StartTag} {t : StartTag} {qualifier : String}
    {a : SpelledAttribute} :
    passed? stack t qualifier = some a ↔
      stack.findSome? (·.declaring? qualifier) = some a ∧ t.declaring? qualifier = none ∧
        (a.value = [] → qualifier = "") := by
  rw [passed?, Option.filter_eq_some_iff, Bool.and_eq_true, Option.isNone_iff_eq_none,
    Bool.or_eq_true, Bool.not_eq_true', beq_iff_eq, List.isEmpty_eq_false_iff, or_iff_not_imp_left,
    not_not]

/-- No empty declaration of the qualifier is in force inside the tags, unless it is for unqualified
names. -/
def PassesOn (stack : List StartTag) (qualifier : String) : Prop :=
  ∀ a, stack.findSome? (·.declaring? qualifier) = some a → a.value = [] → qualifier = ""

/-- A tag is given the declarations that are passed on to it. -/
theorem find?_missing {stack : List StartTag} {t : StartTag} (hstack : ∀ s ∈ stack, s.NamedApart)
    (ht : t.NamedApart) (qualifier : String) :
    (missing (scopeOf t) (stack.map scopeOf).reverse).find?
        (·.key == encode (declaringName qualifier))
      = (passed? stack t qualifier).map ofAttribute := by
  have hmissing := nodup_missing (scopeOf t) (stack.map scopeOf).reverse
  have hown : (scopeOf t).any (·.key == encode (declaringName qualifier))
      = (t.declaring? qualifier).isSome := by
    rw [Bool.eq_iff_iff, List.any_eq_true, ← List.find?_isSome, find?_scopeOf ht, Option.isSome_map]
  have hfound (d : Declaration) : d ∈ inForce (stack.map scopeOf).reverse ∧
      d.key = encode (declaringName qualifier) ↔
        ∃ a, stack.findSome? (·.declaring? qualifier) = some a ∧ ofAttribute a = d := by
    rw [← Declaration.find?_eq_some_iff (Declaration.nodup_inForce _),
      find?_inForce_scopeOf hstack, Option.map_eq_some_iff]
  have hkept {a : SpelledAttribute} (ha : a.name.chars = declaringName qualifier) :
      (!(ofAttribute a).value.isEmpty || (ofAttribute a).key == ascii "xmlns") = true ↔
        (a.value = [] → qualifier = "") := by
    have hname : ascii "xmlns" = encode (declaringName "") := by decide
    have hkey : (ofAttribute a).key = ascii "xmlns" ↔ qualifier = "" := by
      rw [hname, ← declaringName_injective.eq_iff, ← ha]
      exact Text.encode_injective.eq_iff
    have hvalue : (ofAttribute a).value = encode [] ↔ a.value = [] := Text.encode_injective.eq_iff
    rw [Text.encode_nil] at hvalue
    rw [Bool.or_eq_true, Bool.not_eq_true', beq_iff_eq, List.isEmpty_eq_false_iff, ne_eq, hvalue,
      hkey, ← imp_iff_not_or]
  ext d
  rw [Declaration.find?_eq_some_iff hmissing, missing, List.mem_filter, Bool.and_eq_true,
    Option.map_eq_some_iff]
  constructor
  · rintro ⟨⟨hmem, habsent, hvalue⟩, hkey⟩
    obtain ⟨a, ha, rfl⟩ := (hfound d).1 ⟨hmem, hkey⟩
    rw [hkey, hown, Bool.not_eq_true', Option.isSome_eq_false_iff, Option.isNone_iff_eq_none]
      at habsent
    have hname := (StartTag.mem_of_findSome?_declaring? ha).2
    exact ⟨a, passed?_eq_some_iff.2 ⟨ha, habsent, (hkept hname).1 hvalue⟩, rfl⟩
  · rintro ⟨a, ha, rfl⟩
    obtain ⟨ha, habsent, hvalue⟩ := passed?_eq_some_iff.1 ha
    have hname := (StartTag.mem_of_findSome?_declaring? ha).2
    obtain ⟨hmem, hkey⟩ := (hfound _).2 ⟨a, ha, rfl⟩
    refine ⟨⟨hmem, ?_, (hkept hname).2 hvalue⟩, hkey⟩
    rw [hkey, hown, habsent]
    rfl

private theorem encode_tight (a : SpelledAttribute) (h : '"' ∉ a.value) :
    encode (a.tight h).chars = Declaration.written (ofAttribute a) := by
  have hopen : ascii "=\"" = encode ['=', '"'] := by decide
  have hclose : ascii "\"" = encode ['"'] := by decide
  have hchars : (a.tight h).chars = ' ' :: (a.name.chars ++ (['=', '"'] ++ (a.value ++ ['"']))) := rfl
  rw [hchars, Declaration.written, hopen, hclose, Text.encode_cons_of_lt (by decide),
    Text.encode_append, Text.encode_append, Text.encode_append, ofAttribute,
    (by decide : (' ').toUInt8 = 0x20)]
  simp

private theorem exists_declaringName {a : SpelledAttribute} (h : declares (ofAttribute a) = true) :
    ∃ qualifier, a.name.chars = declaringName qualifier := by
  have hxmlns : ascii "xmlns" = encode (declaringName "") := by decide
  have hcolon : ascii "xmlns:" = encode ['x', 'm', 'l', 'n', 's', ':'] := by decide
  rw [declares, Bool.or_eq_true, hxmlns, hcolon, List.isPrefixOf_iff_prefix] at h
  rcases h with h | h
  · exact ⟨"", Text.encode_injective (beq_iff_eq.1 h)⟩
  · obtain ⟨rest, hrest⟩ := Text.prefix_encode_iff.1 h
    have hne : String.ofList rest ≠ "" := by
      have hlocal := a.name.split_chars.2
      rw [← hrest] at hlocal
      rw [ne_eq, ← String.toList_inj, String.toList_ofList]
      exact hlocal
    refine ⟨String.ofList rest, ?_⟩
    rw [declaringName, if_neg hne, String.toList_ofList]
    exact hrest.symm

/-- The attributes are what an element inherits inside open elements. -/
structure Inherits (stack : List StartTag) (t : StartTag) (extra : List SpelledAttribute) : Prop where
  bytes : encode (extra.flatMap (·.chars)) = inherited stack t
  nodup : (extra.map (·.name.chars)).Nodup
  declared : ∀ a ∈ extra, ∃ qualifier b, a.name.chars = declaringName qualifier ∧
    passed? stack t qualifier = some b ∧ a.value = b.value
  found : ∀ qualifier, (extra.find? (·.name.chars == declaringName qualifier)).map (·.value)
    = (passed? stack t qualifier).map (·.value)

private theorem exists_map_eq {α β : Type} {p : α → Prop} {f : α → β} {bs : List β}
    (h : ∀ b ∈ bs, ∃ a, p a ∧ f a = b) : ∃ as : List α, (∀ a ∈ as, p a) ∧ as.map f = bs := by
  induction bs with
  | nil => exact ⟨[], fun _ h => absurd h List.not_mem_nil, rfl⟩
  | cons b bs ih =>
    obtain ⟨a, ha, rfl⟩ := h b List.mem_cons_self
    obtain ⟨as, has, rfl⟩ := ih fun b hb => h b (List.mem_cons_of_mem _ hb)
    exact ⟨a :: as, List.forall_mem_cons.2 ⟨ha, has⟩, rfl⟩

theorem exists_inherits {stack : List StartTag} {t : StartTag} (hstack : ∀ s ∈ stack, s.NamedApart)
    (ht : t.NamedApart) (h : ∀ qualifier a, passed? stack t qualifier = some a → '"' ∉ a.value) :
    ∃ extra, Inherits stack t extra := by
  have hfind := find?_missing hstack ht
  have hmissing := nodup_missing (scopeOf t) (stack.map scopeOf).reverse
  have hsource : ∀ d ∈ missing (scopeOf t) (stack.map scopeOf).reverse, ∃ a : SpelledAttribute,
      ((∃ qualifier b, a.name.chars = declaringName qualifier ∧
        passed? stack t qualifier = some b ∧ a.value = b.value) ∧
        encode a.chars = Declaration.written (ofAttribute a)) ∧ ofAttribute a = d := by
    intro d hd
    obtain ⟨scope, hscope, hmem⟩ := Declaration.mem_of_mem_inForce (List.mem_of_mem_filter hd)
    obtain ⟨s, hs, rfl⟩ := List.mem_map.1 (List.mem_reverse.1 hscope)
    rw [scopeOf_eq (hstack s hs), List.mem_filter] at hmem
    obtain ⟨a', -, rfl⟩ := List.mem_map.1 hmem.1
    obtain ⟨qualifier, hname⟩ := exists_declaringName hmem.2
    have hfound := hfind qualifier
    rw [(Declaration.find?_eq_some_iff hmissing).2 ⟨hd, congrArg encode hname⟩] at hfound
    obtain ⟨b, hb, heq⟩ := Option.map_eq_some_iff.1 hfound.symm
    have hquote := h qualifier b hb
    have hbname := (StartTag.mem_of_findSome?_declaring? (passed?_eq_some_iff.1 hb).1).2
    exact ⟨b.tight hquote, ⟨⟨qualifier, b, hbname, hb, rfl⟩, encode_tight b hquote⟩, heq⟩
  obtain ⟨extra, hextra, hmap⟩ := exists_map_eq hsource
  refine ⟨extra, ?_, ?_, fun a ha => (hextra a ha).1, fun qualifier => ?_⟩
  · rw [inherited, ← hmap, Text.encode_flatMap, List.flatMap_map]
    exact List.flatMap_congr fun a ha => (hextra a ha).2
  · rw [← hmap, List.map_map] at hmissing
    refine List.Nodup.of_map encode ?_
    rw [List.map_map]
    exact hmissing
  · have hkey : ((·.key == encode (declaringName qualifier)) ∘ ofAttribute)
        = fun a : SpelledAttribute => a.name.chars == declaringName qualifier :=
      funext fun a => by
        rw [Bool.eq_iff_iff]
        exact beq_iff_eq.trans (Text.encode_injective.eq_iff.trans beq_iff_eq.symm)
    have hfound := hfind qualifier
    rw [← hmap, List.find?_map, hkey] at hfound
    have hvalues := congrArg (Option.map (·.value)) hfound
    rw [Option.map_map, Option.map_map] at hvalues
    refine Option.map_injective Text.encode_injective ?_
    rw [Option.map_map, Option.map_map]
    exact hvalues

end Fragment

end XsdCatalog
