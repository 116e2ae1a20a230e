import XsdCatalog.Markup.Token
import XsdCatalog.Proofs.Splitting

/-!
# How tags are spelled

A tag that is read is spelled by names, spaces and quoted values, and a tag spelled like that is
read, whatever follows it.
-/

namespace XsdCatalog.Markup

namespace Cursor

/-- The second cursor is the first one behind some text. -/
def Passes (c : Cursor) (passed : List Char) (d : Cursor) : Prop :=
  c.rest = passed ++ d.rest ∧ d.position = c.position.after passed

theorem Passes.refl (c : Cursor) : c.Passes [] c :=
  ⟨rfl, rfl⟩

theorem Passes.trans {c d e : Cursor} {s t : List Char} (hc : c.Passes s d) (hd : d.Passes t e) :
    c.Passes (s ++ t) e := by
  exact ⟨by rw [hc.1, hd.1, List.append_assoc], by rw [hd.2, hc.2, Position.after_append]⟩

private theorem passes_behind {c : Cursor} {s rest : List Char} (h : c.rest = s ++ rest) :
    c.Passes s (c.behind s rest) :=
  ⟨h, rfl⟩

theorem passes_takeWhile (c : Cursor) (p : Char → Bool) :
    c.Passes (c.takeWhile p).1 (c.takeWhile p).2 :=
  passes_behind List.takeWhile_append_dropWhile.symm

theorem passes_of_eat? {c d : Cursor} {word : List Char} (h : c.eat? word = some d) :
    c.Passes word d := by
  obtain ⟨hp, h⟩ := Option.ite_none_right_eq_some.1 h
  obtain rfl := Option.some.inj h
  obtain ⟨rest, hr⟩ := List.isPrefixOf_iff_prefix.1 hp
  refine passes_behind ?_
  rw [← hr, List.drop_left]

theorem passes_of_before? {c d : Cursor} {marker taken : List Char}
    (h : c.before? marker = some (taken, d)) :
    c.Passes (taken ++ marker) d ∧ Text.Closes marker taken := by
  obtain ⟨⟨t, rest⟩, hs, he⟩ := Option.map_eq_some_iff.1 h
  obtain ⟨rfl, rfl⟩ := Prod.mk.inj he
  exact ⟨passes_behind (Text.splitFirst?_eq_some hs).symm, Text.closes_of_splitFirst? hs⟩

theorem takeWhile_append {p : Char → Bool} {s rest : List Char} (hs : ∀ x ∈ s, p x = true)
    (hr : Text.Ends p rest) (position : Position) :
    takeWhile ⟨s ++ rest, position⟩ p = (s, ⟨rest, position.after s⟩) := by
  rw [takeWhile, Text.takeWhile_append hs hr, Text.dropWhile_append hs hr]
  rfl

theorem eat?_append (word rest : List Char) (position : Position) :
    eat? ⟨word ++ rest, position⟩ word = some ⟨rest, position.after word⟩ := by
  have hp : startsWith ⟨word ++ rest, position⟩ word = true :=
    List.isPrefixOf_iff_prefix.2 (List.prefix_append word rest)
  rw [eat?, if_pos hp, List.drop_left]
  rfl

theorem before?_append {marker body : List Char} (hm : marker ≠ []) (h : Text.Closes marker body)
    (rest : List Char) (position : Position) :
    before? ⟨body ++ marker ++ rest, position⟩ marker
      = some (body, ⟨rest, position.after (body ++ marker)⟩) := by
  rw [before?, Text.splitFirst?_of_closes hm h]
  rfl

end Cursor

/-- A run of spaces. -/
abbrev Spaces := { cs : List Char // ∀ c ∈ cs, isSpace c = true }

/-- A name as it is spelled and its parts. -/
structure SpelledName where
  chars : List Char
  name : TagName
  isName : ∀ c ∈ chars, isNameChar c = true
  parts : (Cursor.tagName? ⟨chars, .start⟩).map (·.1) = some name

/-- A name is not empty. -/
theorem SpelledName.exists_cons (n : SpelledName) :
    ∃ x cs, n.chars = x :: cs ∧ isNameChar x = true := by
  obtain ⟨chars, name, hall, hparts⟩ := n
  cases chars with
  | nil => cases hparts
  | cons x cs => exact ⟨x, cs, rfl, hall x List.mem_cons_self⟩

namespace Cursor

theorem passes_skipSpaces (c : Cursor) :
    ∃ gap : Spaces, c.Passes gap.1 c.skipSpaces ∧ Text.Ends isSpace c.skipSpaces.rest :=
  ⟨⟨c.rest.takeWhile isSpace, fun _ hx => List.mem_takeWhile_imp hx⟩, c.passes_takeWhile isSpace,
    Text.ends_dropWhile isSpace c.rest⟩

theorem isSpace_iff {x : Char} :
    isSpace x = true ↔ x = ' ' ∨ x = '\t' ∨ x = '\r' ∨ x = '\n' := by
  simp [isSpace, or_assoc]

theorem isNameChar_of_isSpace {x : Char} (h : isSpace x = true) : isNameChar x = false := by
  rcases isSpace_iff.1 h with rfl | rfl | rfl | rfl <;> decide

/-- Spaces end every run that spaces are no part of. -/
theorem ends_append_of_spaces {p : Char → Bool} (hp : ∀ {x}, isSpace x = true → p x = false)
    (gap : Spaces) {rest : List Char} (hr : Text.Ends p rest) : Text.Ends p (gap.1 ++ rest) := by
  obtain ⟨gap, hg⟩ := gap
  cases gap with
  | nil => exact hr
  | cons x gap => exact hp (hg x List.mem_cons_self)

theorem skipSpaces_append (gap : Spaces) {rest : List Char} (hr : Text.Ends isSpace rest)
    (position : Position) :
    skipSpaces ⟨gap.1 ++ rest, position⟩ = ⟨rest, position.after gap.1⟩ := by
  rw [skipSpaces, takeWhile_append gap.2 hr]

/-- Nothing but the run of name characters counts for a name. -/
theorem tagName?_eq (c : Cursor) :
    c.tagName? = (tagName? ⟨(c.takeWhile isNameChar).1, .start⟩).map fun p =>
      (p.1, (c.takeWhile isNameChar).2) := by
  have hall : ∀ x ∈ (c.takeWhile isNameChar).1, isNameChar x = true := fun _ hx =>
    List.mem_takeWhile_imp hx
  have hrun (position : Position) : takeWhile ⟨(c.takeWhile isNameChar).1, position⟩ isNameChar
      = ((c.takeWhile isNameChar).1, ⟨[], position.after (c.takeWhile isNameChar).1⟩) := by
    have h : takeWhile ⟨(c.takeWhile isNameChar).1 ++ [], position⟩ isNameChar
        = ((c.takeWhile isNameChar).1, ⟨[], position.after (c.takeWhile isNameChar).1⟩) :=
      takeWhile_append hall (Text.ends_nil isNameChar) position
    rwa [List.append_nil] at h
  rw [tagName?, tagName?, hrun]
  simp only
  split
  · rfl
  · split <;> rfl

theorem passes_of_tagName? {c d : Cursor} {name : TagName} (h : c.tagName? = some (name, d)) :
    ∃ n : SpelledName, n.name = name ∧ c.Passes n.chars d ∧ Text.Ends isNameChar d.rest := by
  rw [tagName?_eq, Option.map_eq_some_iff] at h
  obtain ⟨⟨name', e⟩, hn, he⟩ := h
  obtain ⟨rfl, rfl⟩ := Prod.mk.inj he
  refine ⟨⟨(c.takeWhile isNameChar).1, name', fun _ hx => List.mem_takeWhile_imp hx, ?_⟩, rfl,
    c.passes_takeWhile isNameChar, Text.ends_dropWhile isNameChar c.rest⟩
  rw [hn]
  rfl

theorem tagName?_append (n : SpelledName) {rest : List Char} (hr : Text.Ends isNameChar rest)
    (position : Position) :
    tagName? ⟨n.chars ++ rest, position⟩ = some (n.name, ⟨rest, position.after n.chars⟩) := by
  obtain ⟨⟨name, e⟩, hn, he⟩ := Option.map_eq_some_iff.1 n.parts
  rw [tagName?_eq, takeWhile_append n.isName hr, hn, ← he]
  rfl

end Cursor

/-- A name as it is written without a colon in front. -/
def TagName.chars (n : TagName) : List Char :=
  if n.qualifier = "" then n.localName.toList
  else n.qualifier.toList ++ ':' :: n.localName.toList

namespace SpelledName

theorem split_chars (n : SpelledName) :
    n.name = ⟨String.ofList (Cursor.splitName n.chars).1, String.ofList (Cursor.splitName n.chars).2⟩ ∧
      (Cursor.splitName n.chars).2 ≠ [] := by
  obtain ⟨⟨name, c⟩, hn, he⟩ := Option.map_eq_some_iff.1 n.parts
  have hrun : Cursor.takeWhile ⟨n.chars, .start⟩ isNameChar
      = (n.chars, ⟨[], Position.start.after n.chars⟩) := by
    have h := Cursor.takeWhile_append n.isName (Text.ends_nil isNameChar) .start
    rwa [List.append_nil] at h
  rw [Cursor.tagName?, hrun] at hn
  simp only at hn
  split at hn
  · cases hn
  · obtain ⟨hfirst, hn⟩ := Option.ite_none_right_eq_some.1 hn
    cases hn
    refine ⟨he.symm, fun hnil => ?_⟩
    rw [hnil, Bool.and_eq_true] at hfirst
    cases hfirst.2

theorem name_eq (n : SpelledName) :
    n.name = ⟨String.ofList (Cursor.splitName n.chars).1, String.ofList (Cursor.splitName n.chars).2⟩ :=
  n.split_chars.1

/-- Only a colon in front can be left out of a name without changing its parts. -/
theorem chars_eq (n : SpelledName) :
    n.chars = n.name.chars ∨ n.chars = ':' :: n.name.chars ∧ n.name.qualifier = "" := by
  have hempty (cs : List Char) : String.ofList cs = "" ↔ cs = [] := by
    rw [← String.toList_inj, String.toList_ofList]
    rfl
  rw [n.name_eq, TagName.chars, Cursor.splitName]
  have hsplit := List.takeWhile_append_dropWhile (p := (· != ':')) (l := n.chars)
  cases hd : n.chars.dropWhile (· != ':') with
  | nil =>
    left
    simp
  | cons c rest =>
    have hc : c = ':' := by
      have h : Text.Ends (· != ':') (c :: rest) := hd ▸ Text.ends_dropWhile _ _
      exact bne_eq_false_iff_eq.1 h
    subst hc
    rw [hd] at hsplit
    simp only [hempty, String.toList_ofList]
    split
    · next hnil =>
      rw [hnil] at hsplit
      exact .inr ⟨hsplit.symm, hnil⟩
    · exact .inl hsplit.symm

end SpelledName

/-- An attribute as it is spelled, with the spaces before it. -/
structure SpelledAttribute where
  gap : Spaces
  name : SpelledName
  left : Spaces
  right : Spaces
  quote : Char
  value : List Char
  gapped : gap.1 ≠ []
  isQuote : quote = '"' ∨ quote = '\''
  isValue : ∀ c ∈ value, isAllowed c = true ∧ c ≠ quote ∧ c ≠ '<'

namespace SpelledAttribute

def quoted (a : SpelledAttribute) : List Char :=
  a.quote :: (a.value ++ [a.quote])

def chars (a : SpelledAttribute) : List Char :=
  a.gap.1 ++ (a.name.chars ++ (a.left.1 ++ '=' :: (a.right.1 ++ a.quoted)))

def raw (a : SpelledAttribute) : RawAttribute :=
  ⟨a.name.name, a.value⟩

end SpelledAttribute

/-- A start tag as it is spelled, without its last mark. -/
structure StartTag where
  name : SpelledName
  attributes : List SpelledAttribute
  gap : Spaces

namespace StartTag

/-- What stands between `<` and the last mark. -/
def body (t : StartTag) : List Char :=
  t.name.chars ++ (t.attributes.flatMap (·.chars) ++ t.gap.1)

/-- The last mark of a start tag, or of an empty tag. -/
def lastMark (closed : Bool) : List Char :=
  if closed then ['/', '>'] else ['>']

def ending (closed : Bool) : TagEnd :=
  if closed then .closed else .opened

def chars (t : StartTag) (closed : Bool) : List Char :=
  '<' :: (t.body ++ lastMark closed)

def token (t : StartTag) (closed : Bool) (position : Position) : Token :=
  .start position t.name.name (t.attributes.map (·.raw)) (ending closed)

end StartTag

namespace Cursor

private theorem passes_of_quoted? {c d : Cursor} {value : List Char}
    (h : c.quoted? = some (value, d)) :
    ∃ q, (q = '"' ∨ q = '\'') ∧ (∀ x ∈ value, isAllowed x = true ∧ x ≠ q ∧ x ≠ '<') ∧
      c.Passes (q :: (value ++ [q])) d := by
  unfold quoted? at h
  split at h
  · next q rest hr =>
    obtain ⟨hq, h⟩ := Option.ite_none_right_eq_some.1 h
    simp only at h
    obtain ⟨hall, h⟩ := Option.ite_none_right_eq_some.1 h
    obtain ⟨e, he, heq⟩ := Option.map_eq_some_iff.1 h
    obtain ⟨rfl, rfl⟩ := Prod.mk.inj heq
    have hopen : c.Passes [q] (c.behind [q] rest) := passes_behind hr
    have hvalue := passes_takeWhile (c.behind [q] rest) fun x => x != q && x != '<'
    refine ⟨q, hq, fun x hx => ⟨List.all_eq_true.1 hall x hx, ?_⟩,
      (hopen.trans hvalue).trans (passes_of_eat? he)⟩
    simpa using List.mem_takeWhile_imp hx
  · cases h

private theorem quoted?_append {q : Char} {value : List Char} (hq : q = '"' ∨ q = '\'')
    (hv : ∀ x ∈ value, isAllowed x = true ∧ x ≠ q ∧ x ≠ '<') (rest : List Char)
    (position : Position) :
    quoted? ⟨q :: (value ++ q :: rest), position⟩
      = some (value, ⟨rest, position.after (q :: (value ++ [q]))⟩) := by
  have hrun : takeWhile ⟨value ++ q :: rest, position.after [q]⟩ (fun x => x != q && x != '<')
      = (value, ⟨q :: rest, (position.after [q]).after value⟩) :=
    takeWhile_append (fun x hx => by simpa using (hv x hx).2) (by simp [Text.Ends]) _
  have hall : value.all isAllowed = true := List.all_eq_true.2 fun x hx => (hv x hx).1
  have hclose := eat?_append [q] rest ((position.after [q]).after value)
  rw [quoted?]
  simp only [behind, hq, if_true, hrun, hall, List.singleton_append] at hclose ⊢
  rw [hclose]
  simp [Position.after]

theorem passes_of_attribute? {c d : Cursor} {a : RawAttribute}
    (h : c.attribute? = some (a, d)) :
    ∃ (n : SpelledName) (left right : Spaces) (q : Char), a.name = n.name ∧
      (q = '"' ∨ q = '\'') ∧ (∀ x ∈ a.value, isAllowed x = true ∧ x ≠ q ∧ x ≠ '<') ∧
      c.Passes (n.chars ++ (left.1 ++ '=' :: (right.1 ++ q :: (a.value ++ [q])))) d := by
  obtain ⟨⟨name, c1⟩, h1, h⟩ := Option.bind_eq_some_iff.1 h
  obtain ⟨c2, h2, h⟩ := Option.bind_eq_some_iff.1 h
  obtain ⟨⟨value, c3⟩, h3, h⟩ := Option.bind_eq_some_iff.1 h
  cases h
  obtain ⟨n, rfl, hn, -⟩ := passes_of_tagName? h1
  obtain ⟨left, hl, -⟩ := c1.passes_skipSpaces
  obtain ⟨right, hr, -⟩ := c2.passes_skipSpaces
  obtain ⟨q, hq, hv, hp⟩ := passes_of_quoted? h3
  refine ⟨n, left, right, q, rfl, hq, hv, ?_⟩
  exact hn.trans (hl.trans ((passes_of_eat? h2).trans (hr.trans hp)))

private theorem attribute?_append (a : SpelledAttribute) (rest : List Char) (position : Position) :
    attribute? ⟨a.name.chars ++ (a.left.1 ++ '=' :: (a.right.1 ++ (a.quoted ++ rest))), position⟩
      = some (a.raw, ⟨rest, position.after
          (a.name.chars ++ (a.left.1 ++ '=' :: (a.right.1 ++ a.quoted)))⟩) := by
  obtain ⟨gap, n, left, right, q, value, hg, hq, hv⟩ := a
  have hleft : Text.Ends isNameChar (left.1 ++ '=' :: (right.1 ++ q :: (value ++ q :: rest))) :=
    ends_append_of_spaces isNameChar_of_isSpace left (by decide : isNameChar '=' = false)
  have hequals : Text.Ends isSpace ('=' :: (right.1 ++ q :: (value ++ q :: rest))) := rfl
  have hquote : Text.Ends isSpace (q :: (value ++ q :: rest)) := by
    rcases hq with rfl | rfl <;> rfl
  have heat (p : Position) : eat? ⟨'=' :: (right.1 ++ q :: (value ++ q :: rest)), p⟩ ['=']
      = some ⟨right.1 ++ q :: (value ++ q :: rest), p.after ['=']⟩ :=
    eat?_append ['='] _ p
  have happ : q :: (value ++ [q]) ++ rest = q :: (value ++ q :: rest) := by simp
  rw [SpelledAttribute.quoted, attribute?]
  simp only [happ, tagName?_append n hleft, Option.bind_eq_bind, Option.bind_some,
    skipSpaces_append left hequals, heat, skipSpaces_append right hquote,
    quoted?_append hq hv rest]
  simp [SpelledAttribute.raw, Position.after]

private theorem passes_of_attributesFrom {done as : List RawAttribute} {c d : Cursor}
    {ending : TagEnd} (h : attributesFrom done c = some (as, ending, d)) (he : ending ≠ .missing) :
    ∃ (spelled : List SpelledAttribute) (gap : Spaces) (closed : Bool),
      as = done.reverse ++ spelled.map (·.raw) ∧
      ending = StartTag.ending closed ∧
      c.Passes (spelled.flatMap (·.chars) ++ (gap.1 ++ StartTag.lastMark closed)) d := by
  fun_induction attributesFrom done c with
  | case1 done c =>
    cases h
    exact absurd rfl he
  | case2 done c _ e hend =>
    cases h
    obtain ⟨gap, hg, -⟩ := c.passes_skipSpaces
    exact ⟨[], gap, false, by simp, rfl, hg.trans (passes_of_eat? hend)⟩
  | case3 done c _ _ e hend =>
    cases h
    obtain ⟨gap, hg, -⟩ := c.passes_skipSpaces
    exact ⟨[], gap, true, by simp, rfl, hg.trans (passes_of_eat? hend)⟩
  | case4 done c _ _ _ hspace a e ha ih =>
    obtain ⟨spelled, gap, closed, rfl, hending, hp⟩ := ih h
    obtain ⟨before, hb, hends⟩ := c.passes_skipSpaces
    obtain ⟨n, left, right, q, hn, hq, hv, hap⟩ := passes_of_attribute? ha
    have hgapped : before.1 ≠ [] := by
      intro hnil
      rw [hb.1, hnil, List.nil_append, hends] at hspace
      cases hspace
    let s : SpelledAttribute := ⟨before, n, left, right, q, a.value, hgapped, hq, hv⟩
    have hs : s.raw = a := by
      cases a
      exact congrArg (RawAttribute.mk · _) hn.symm
    refine ⟨s :: spelled, gap, closed, by simp [hs], hending, ?_⟩
    rw [List.flatMap_cons, List.append_assoc]
    exact (hb.trans hap).trans hp
  | case5 => cases h
  | case6 => cases h

/-- Only at the end of the text a tag lacks its last mark. -/
theorem rest_of_attributesFrom {done as : List RawAttribute} {c d : Cursor}
    (h : attributesFrom done c = some (as, .missing, d)) : d.rest = [] := by
  fun_induction attributesFrom done c with
  | case1 done c hnil =>
    cases h
    exact List.isEmpty_iff.1 hnil
  | case2 => cases h
  | case3 => cases h
  | case4 done c _ _ _ _ a e _ ih => exact ih h
  | case5 => cases h
  | case6 => cases h

theorem eat?_of_ne {x y : Char} (h : x ≠ y) (cs word : List Char) (position : Position) :
    eat? ⟨x :: cs, position⟩ (y :: word) = none := by
  have hp : ¬ startsWith ⟨x :: cs, position⟩ (y :: word) = true := by
    rw [startsWith, List.isPrefixOf_iff_prefix, List.cons_prefix_cons]
    exact fun hp => h hp.1.symm
  rw [eat?, if_neg hp]

/-- The end of a start tag, which is what tells an empty one from others. -/
theorem attributesFrom_end (done : List RawAttribute) (gap : Spaces) (closed : Bool)
    (rest : List Char) (position : Position) :
    attributesFrom done ⟨gap.1 ++ (StartTag.lastMark closed ++ rest), position⟩
      = some (done.reverse, StartTag.ending closed,
          ⟨rest, position.after (gap.1 ++ StartTag.lastMark closed)⟩) := by
  rw [StartTag.lastMark, StartTag.ending]
  cases closed with
  | false =>
    have hend : Text.Ends isSpace ('>' :: rest) := rfl
    have heat (p : Position) : eat? ⟨'>' :: rest, p⟩ ['>'] = some ⟨rest, p.after ['>']⟩ :=
      eat?_append ['>'] rest p
    rw [attributesFrom]
    simp [skipSpaces_append gap hend, heat]
  | true =>
    have hend : Text.Ends isSpace ('/' :: '>' :: rest) := rfl
    have hne (p : Position) : eat? ⟨'/' :: '>' :: rest, p⟩ ['>'] = none :=
      eat?_of_ne (by decide) _ _ p
    have heat (p : Position) :
        eat? ⟨'/' :: '>' :: rest, p⟩ ['/', '>'] = some ⟨rest, p.after ['/', '>']⟩ :=
      eat?_append ['/', '>'] rest p
    rw [attributesFrom]
    simp [skipSpaces_append gap hend, hne, heat]

private theorem attributesFrom_cons (done : List RawAttribute) (a : SpelledAttribute)
    (behind : List Char) (position : Position) :
    attributesFrom done ⟨a.chars ++ behind, position⟩
      = attributesFrom (a.raw :: done) ⟨behind, position.after a.chars⟩ := by
  let inner := a.name.chars ++ (a.left.1 ++ '=' :: (a.right.1 ++ (a.quoted ++ behind)))
  have hchars : a.chars ++ behind = a.gap.1 ++ inner := by
    simp [inner, SpelledAttribute.chars]
  obtain ⟨x, name, hx, hname⟩ := a.name.exists_cons
  have hinner : inner = x :: (name ++ (a.left.1 ++ '=' :: (a.right.1 ++ (a.quoted ++ behind)))) :=
    congrArg (· ++ _) hx
  have hskip : Text.Ends isSpace inner := by
    rw [hinner]
    exact Bool.eq_false_iff.2 fun hs => by simp [isNameChar_of_isSpace hs] at hname
  have heat (word : List Char) {y : Char} (hy : isNameChar y = false) (p : Position) :
      eat? ⟨inner, p⟩ (y :: word) = none := by
    rw [hinner]
    refine eat?_of_ne ?_ _ word p
    rintro rfl
    rw [hname] at hy
    cases hy
  obtain ⟨y, gap, hy⟩ := List.exists_cons_of_ne_nil a.gapped
  have hspace : isSpace y = true := a.gap.2 y (hy ▸ List.mem_cons_self)
  have ha : attribute? ⟨inner, position.after a.gap.1⟩ = some (a.raw, _) :=
    attribute?_append a behind (position.after a.gap.1)
  rw [hchars, attributesFrom]
  simp only [skipSpaces_append a.gap hskip, heat [] (by decide : isNameChar '>' = false),
    heat ['>'] (by decide : isNameChar '/' = false)]
  rw [if_neg (by simp [hy]), if_pos (by simpa [hy] using hspace)]
  split
  · next b d hb =>
    rw [skipSpaces_append a.gap hskip, ha] at hb
    obtain ⟨rfl, rfl⟩ := Prod.mk.inj (Option.some.inj hb)
    simp only [SpelledAttribute.chars, Position.after_append]
  · next hb =>
    rw [skipSpaces_append a.gap hskip, ha] at hb
    cases hb

private theorem attributesFrom_append (done : List RawAttribute) (spelled : List SpelledAttribute)
    (gap : Spaces) (closed : Bool) (rest : List Char) (position : Position) :
    attributesFrom done
        ⟨spelled.flatMap (·.chars) ++ (gap.1 ++ (StartTag.lastMark closed ++ rest)), position⟩
      = some (done.reverse ++ spelled.map (·.raw), StartTag.ending closed,
          ⟨rest, position.after (spelled.flatMap (·.chars)
            ++ (gap.1 ++ StartTag.lastMark closed))⟩) := by
  induction spelled generalizing done position with
  | nil => simpa using attributesFrom_end done gap closed rest position
  | cons a spelled ih =>
    rw [List.flatMap_cons, List.append_assoc, attributesFrom_cons, ih]
    simp

theorem passes_of_startTag? {c d : Cursor} {t : Token} (h : c.startTag? = some (t, d)) :
    (∃ position name as, t = .start position name as .missing ∧ d.rest = []) ∨
      ∃ (s : StartTag) (closed : Bool), t = s.token closed c.position ∧
        c.Passes (s.chars closed) d := by
  obtain ⟨c1, h1, h⟩ := Option.bind_eq_some_iff.1 h
  obtain ⟨⟨name, c2⟩, h2, h⟩ := Option.bind_eq_some_iff.1 h
  obtain ⟨⟨as, ending, c3⟩, h3, h⟩ := Option.bind_eq_some_iff.1 h
  cases h
  by_cases hmissing : ending = .missing
  · subst hmissing
    exact .inl ⟨c.position, name, as, rfl, rest_of_attributesFrom h3⟩
  · obtain ⟨n, rfl, hn, -⟩ := passes_of_tagName? h2
    obtain ⟨spelled, gap, closed, rfl, rfl, hp⟩ := passes_of_attributesFrom h3 hmissing
    refine .inr ⟨⟨n, spelled, gap⟩, closed, rfl, ?_⟩
    have hall := (passes_of_eat? h1).trans (hn.trans hp)
    simpa [StartTag.chars, StartTag.body] using hall

private theorem ends_lastMark {p : Char → Bool} (hp : p '/' = false ∧ p '>' = false) (closed : Bool)
    (rest : List Char) : Text.Ends p (StartTag.lastMark closed ++ rest) := by
  cases closed with
  | false => exact hp.2
  | true => exact hp.1

theorem startTag?_append (t : StartTag) (closed : Bool) (rest : List Char)
    (position : Position) :
    startTag? ⟨t.chars closed ++ rest, position⟩
      = some (t.token closed position, ⟨rest, position.after (t.chars closed)⟩) := by
  obtain ⟨n, spelled, gap⟩ := t
  have hname : Text.Ends isNameChar (spelled.flatMap (·.chars)
      ++ (gap.1 ++ (StartTag.lastMark closed ++ rest))) := by
    cases spelled with
    | nil =>
      exact ends_append_of_spaces isNameChar_of_isSpace gap
        (ends_lastMark (by decide) closed rest)
    | cons a spelled =>
      obtain ⟨y, gap', hy⟩ := List.exists_cons_of_ne_nil a.gapped
      have hspace : isSpace y = true := a.gap.2 y (hy ▸ List.mem_cons_self)
      rw [List.flatMap_cons, SpelledAttribute.chars, hy]
      exact isNameChar_of_isSpace hspace
  have heat : eat? ⟨'<' :: (n.chars ++ (spelled.flatMap (·.chars)
        ++ (gap.1 ++ (StartTag.lastMark closed ++ rest)))), position⟩ ['<']
      = some ⟨n.chars ++ (spelled.flatMap (·.chars)
        ++ (gap.1 ++ (StartTag.lastMark closed ++ rest))), position.next '<'⟩ :=
    eat?_append ['<'] _ position
  have hchars : (StartTag.mk n spelled gap).chars closed ++ rest
      = '<' :: (n.chars ++ (spelled.flatMap (·.chars)
        ++ (gap.1 ++ (StartTag.lastMark closed ++ rest)))) := by
    simp [StartTag.chars, StartTag.body]
  rw [startTag?, hchars, heat]
  simp only [Option.bind_eq_bind, Option.bind_some, tagName?_append n hname,
    attributesFrom_append]
  simp [StartTag.token, StartTag.chars, StartTag.body, Position.after_cons]

end Cursor

end XsdCatalog.Markup
