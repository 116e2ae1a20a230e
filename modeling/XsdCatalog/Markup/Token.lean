import XsdCatalog.Markup.Cursor

/-!
# Tokens of markup

The content of a document or of an entity is cut into tags, texts and the other marks. References
in texts and attribute values are kept as they are written. Each token is longer than nothing
(`token?_length`), so cutting comes to an end.
-/

namespace XsdCatalog.Markup

/-- A name as it is written, with an empty qualifier if it has no colon. -/
structure TagName where
  qualifier : String
  localName : String
deriving DecidableEq, Repr

/-- An attribute as it is written. -/
structure RawAttribute where
  name : TagName
  value : List Char

/-- What stands at the end of a start tag: `>`, `/>`, or the end of the text the tag stands in. -/
inductive TagEnd
  | opened
  | closed
  | missing
deriving DecidableEq, Repr

inductive Token
  | start (position : Position) (name : TagName) (attributes : List RawAttribute) (ending : TagEnd)
  | stop (name : TagName)
  | text (chars : List Char)
  | cdata (chars : List Char)
  | comment (chars : List Char)
  | instruction (target body : List Char)

/-- The number of open elements behind a token; none behind the end tag of an element that was not
among them. -/
def Token.depth? (t : Token) (depth : Nat) : Option Nat :=
  match t, depth with
  | .start _ _ _ .opened, depth => some (depth + 1)
  | .stop _, 0 => none
  | .stop _, depth + 1 => some depth
  | _, depth => some depth

namespace Cursor

/-- A name that may hold colons anywhere. -/
def name? (c : Cursor) : Option (List Char × Cursor) :=
  let (name, d) := c.takeWhile isNameChar
  match name with
  | first :: _ => if isNameStart first then some (name, d) else none
  | [] => none

/-- The parts of a written name before and behind its first colon. -/
def splitName (name : List Char) : List Char × List Char :=
  match name.dropWhile (· != ':') with
  | [] => ([], name)
  | _ :: localName => (name.takeWhile (· != ':'), localName)

/-- A name with at most one colon. -/
def tagName? (c : Cursor) : Option (TagName × Cursor) :=
  let (name, d) := c.takeWhile isNameChar
  let (qualifier, localName) := splitName name
  if localName.contains ':' then none
  else if qualifier.head?.all isNameStart && localName.head?.any isNameStart then
    some (⟨String.ofList qualifier, String.ofList localName⟩, d)
  else none

/-- What stands between quotes. Only allowed characters may, and no `<`. -/
def quoted? (c : Cursor) : Option (List Char × Cursor) :=
  match c.rest with
  | q :: rest =>
    if q = '"' ∨ q = '\'' then
      let (value, d) := (c.behind [q] rest).takeWhile fun x => x != q && x != '<'
      if value.all isAllowed then (d.eat? [q]).map (value, ·) else none
    else none
  | [] => none

/-- A name, an equals sign and a value in quotes, with spaces around the equals sign. -/
def attribute? (c : Cursor) : Option (RawAttribute × Cursor) := do
  let (name, c) ← c.tagName?
  let c ← c.skipSpaces.eat? ['=']
  let (value, c) ← c.skipSpaces.quoted?
  return (⟨name, value⟩, c)

theorem name?_length {c d : Cursor} {name : List Char} (h : c.name? = some (name, d)) :
    d.length ≤ c.length := by
  unfold name? at h
  simp only at h
  split at h
  · split at h
    · cases h
      exact c.takeWhile_length _
    · cases h
  · cases h

private theorem tagName?_length {c d : Cursor} {name : TagName} (h : c.tagName? = some (name, d)) :
    d.length ≤ c.length := by
  unfold tagName? at h
  simp only at h
  split at h
  · cases h
  · split at h
    · cases h
      exact c.takeWhile_length _
    · cases h

private theorem quoted?_length {c d : Cursor} {value : List Char}
    (h : c.quoted? = some (value, d)) : d.length < c.length := by
  unfold quoted? at h
  split at h
  · next q rest hr =>
    split at h
    · simp only at h
      split at h
      · obtain ⟨e, he, heq⟩ := Option.map_eq_some_iff.1 h
        cases heq
        have h1 := eat?_length he
        have h2 := (c.behind [q] rest).takeWhile_length fun x => x != q && x != '<'
        have h3 : (c.behind [q] rest).length + 1 = c.length := by simp [length, behind, hr]
        simp only [List.length_cons, List.length_nil] at h1
        omega
      · cases h
    · cases h
  · cases h

private theorem attribute?_length {c d : Cursor} {a : RawAttribute}
    (h : c.attribute? = some (a, d)) : d.length < c.length := by
  obtain ⟨⟨name, c1⟩, h1, h⟩ := Option.bind_eq_some_iff.1 h
  obtain ⟨c2, h2, h⟩ := Option.bind_eq_some_iff.1 h
  obtain ⟨⟨value, c3⟩, h3, h⟩ := Option.bind_eq_some_iff.1 h
  cases h
  have := tagName?_length h1
  have := skipSpaces_length c1
  have := eat?_length h2
  have := skipSpaces_length c2
  have := quoted?_length h3
  omega

/-- The attributes of a start tag up to its end, which may be missing behind the name and behind an
attribute. Spaces stand before each attribute. `done` are the attributes read so far, last one
first. -/
def attributesFrom (done : List RawAttribute) (c : Cursor) :
    Option (List RawAttribute × TagEnd × Cursor) :=
  if c.rest.isEmpty then some (done.reverse, .missing, c)
  else
    match c.skipSpaces.eat? ['>'] with
    | some e => some (done.reverse, .opened, e)
    | none =>
      match c.skipSpaces.eat? ['/', '>'] with
      | some e => some (done.reverse, .closed, e)
      | none =>
        if c.rest.head?.any isSpace then
          match _h : c.skipSpaces.attribute? with
          | some (a, e) => attributesFrom (a :: done) e
          | none => none
        else none
termination_by c.length
decreasing_by
  have := attribute?_length _h
  have := skipSpaces_length c
  omega

private theorem attributesFrom_length {done : List RawAttribute} {c d : Cursor}
    {as : List RawAttribute} {ending : TagEnd} (h : attributesFrom done c = some (as, ending, d)) :
    d.length ≤ c.length := by
  fun_induction attributesFrom done c with
  | case1 done c =>
    cases h
    exact Nat.le_refl _
  | case2 done c _ e he =>
    cases h
    have := eat?_length he
    have := skipSpaces_length c
    omega
  | case3 done c _ _ e he =>
    cases h
    have := eat?_length he
    have := skipSpaces_length c
    omega
  | case4 done c _ _ _ _ a e he ih =>
    have := ih h
    have := attribute?_length he
    have := skipSpaces_length c
    omega
  | case5 => cases h
  | case6 => cases h

/-- The start tag at a `<`. -/
def startTag? (c : Cursor) : Option (Token × Cursor) := do
  let d ← c.eat? ['<']
  let (name, d) ← d.tagName?
  let (attributes, ending, d) ← attributesFrom [] d
  return (.start c.position name attributes ending, d)

/-- The end tag at `</`. -/
def stopTag? (c : Cursor) : Option (Token × Cursor) := do
  let d ← c.eat? ['<', '/']
  let (name, d) ← d.tagName?
  let d ← d.skipSpaces.eat? ['>']
  return (.stop name, d)

/-- What a comment may hold: no two hyphens in a row, and no hyphen at the end. -/
def isCommentBody (body : List Char) : Bool :=
  body.all isAllowed && !Text.occursIn "--".toList body && body.getLast? != some '-'

/-- The comment at `<!--`. -/
def comment? (c : Cursor) : Option (Token × Cursor) := do
  let d ← c.eat? "<!--".toList
  let (body, d) ← d.before? "-->".toList
  if isCommentBody body then some (.comment body, d) else none

/-- The character data at `<![CDATA[`. -/
def cdata? (c : Cursor) : Option (Token × Cursor) := do
  let d ← c.eat? "<![CDATA[".toList
  let (body, d) ← d.before? "]]>".toList
  if body.all isAllowed then some (.cdata body, d) else none

/-- The processing instruction at `<?`; an XML declaration is none. -/
def instruction? (c : Cursor) : Option (Token × Cursor) :=
  if c.startsWith "<?xml ".toList then none
  else do
    let d ← c.eat? ['<', '?']
    let (target, d) ← d.name?
    let (body, d) ← d.skipSpaces.before? "?>".toList
    if body.all isAllowed then some (.instruction target body, d) else none

/-- The text up to the next `<`; it holds no `]]>`. -/
def text? (c : Cursor) : Option (Token × Cursor) :=
  let (chars, d) := c.takeWhile (· != '<')
  if chars.all isAllowed && !Text.occursIn "]]>".toList chars then some (.text chars, d) else none

/-- The token at the start of content that is not empty. -/
def token? (c : Cursor) : Option (Token × Cursor) :=
  match c.rest with
  | '<' :: '/' :: _ => c.stopTag?
  | '<' :: '?' :: _ => c.instruction?
  | '<' :: '!' :: _ => c.comment?.or c.cdata?
  | '<' :: _ => c.startTag?
  | [] => none
  | _ => c.text?

private theorem startTag?_length {c d : Cursor} {t : Token} (h : c.startTag? = some (t, d)) :
    d.length < c.length := by
  obtain ⟨c1, h1, h⟩ := Option.bind_eq_some_iff.1 h
  obtain ⟨⟨name, c2⟩, h2, h⟩ := Option.bind_eq_some_iff.1 h
  obtain ⟨⟨as, ending, c3⟩, h3, h⟩ := Option.bind_eq_some_iff.1 h
  cases h
  have := eat?_length h1
  have := tagName?_length h2
  have := attributesFrom_length h3
  simp only [List.length_cons, List.length_nil] at *
  omega

private theorem stopTag?_length {c d : Cursor} {t : Token} (h : c.stopTag? = some (t, d)) :
    d.length < c.length := by
  obtain ⟨c1, h1, h⟩ := Option.bind_eq_some_iff.1 h
  obtain ⟨⟨name, c2⟩, h2, h⟩ := Option.bind_eq_some_iff.1 h
  obtain ⟨c3, h3, h⟩ := Option.bind_eq_some_iff.1 h
  cases h
  have := eat?_length h1
  have := tagName?_length h2
  have := skipSpaces_length c2
  have := eat?_length h3
  simp only [List.length_cons, List.length_nil] at *
  omega

theorem comment?_length {c d : Cursor} {t : Token} (h : c.comment? = some (t, d)) :
    d.length < c.length := by
  obtain ⟨c1, h1, h⟩ := Option.bind_eq_some_iff.1 h
  obtain ⟨⟨body, c2⟩, h2, h⟩ := Option.bind_eq_some_iff.1 h
  obtain ⟨_, h⟩ := Option.ite_none_right_eq_some.1 h
  cases h
  have h3 := eat?_length h1
  have := before?_length h2
  have : "<!--".toList.length = 4 := by decide
  omega

private theorem cdata?_length {c d : Cursor} {t : Token} (h : c.cdata? = some (t, d)) :
    d.length < c.length := by
  obtain ⟨c1, h1, h⟩ := Option.bind_eq_some_iff.1 h
  obtain ⟨⟨body, c2⟩, h2, h⟩ := Option.bind_eq_some_iff.1 h
  obtain ⟨_, h⟩ := Option.ite_none_right_eq_some.1 h
  cases h
  have h3 := eat?_length h1
  have := before?_length h2
  have : "<![CDATA[".toList.length = 9 := by decide
  omega

theorem instruction?_length {c d : Cursor} {t : Token} (h : c.instruction? = some (t, d)) :
    d.length < c.length := by
  unfold instruction? at h
  split at h
  · cases h
  · obtain ⟨c1, h1, h⟩ := Option.bind_eq_some_iff.1 h
    obtain ⟨⟨target, c2⟩, h2, h⟩ := Option.bind_eq_some_iff.1 h
    obtain ⟨⟨body, c3⟩, h3, h⟩ := Option.bind_eq_some_iff.1 h
    obtain ⟨_, h⟩ := Option.ite_none_right_eq_some.1 h
    cases h
    have := eat?_length h1
    have := name?_length h2
    have := skipSpaces_length c2
    have := before?_length h3
    simp only [List.length_cons, List.length_nil] at *
    omega

private theorem text?_length {c d : Cursor} {t : Token} {x : Char} {rest : List Char}
    (hc : c.rest = x :: rest) (hx : x ≠ '<') (h : c.text? = some (t, d)) :
    d.length < c.length := by
  unfold text? at h
  simp only at h
  split at h
  · cases h
    simp only [takeWhile, behind, length, hc]
    rw [List.dropWhile_cons_of_pos (by simpa using hx)]
    have := (List.dropWhile_suffix (· != '<') (l := rest)).length_le
    simp only [List.length_cons]
    omega
  · cases h

/-- Every token takes at least one character. -/
theorem token?_length {c d : Cursor} {t : Token} (h : c.token? = some (t, d)) :
    d.length < c.length := by
  unfold token? at h
  split at h
  · exact stopTag?_length h
  · exact instruction?_length h
  · rcases Option.or_eq_some_iff.1 h with h | ⟨_, h⟩
    · exact comment?_length h
    · exact cdata?_length h
  · exact startTag?_length h
  · cases h
  · next h1 h2 h3 h4 h5 =>
    match hr : c.rest with
    | [] => exact absurd hr h5
    | x :: rest =>
      refine text?_length hr ?_ h
      rintro rfl
      exact h4 rest hr

/-- The tokens up to the first end tag of an element that was not opened on the way, or up to the
end of the text, and the cursor behind them. `done` are the tokens read so far, last one first,
`depth` is the number of elements opened on the way. -/
def contentFrom (done : List Token) (depth : Nat) (c : Cursor) : Option (List Token × Cursor) :=
  if c.rest.isEmpty then some (done.reverse, c)
  else
    match _h : c.token? with
    | some (t, d) =>
      match t.depth? depth with
      | some depth => contentFrom (t :: done) depth d
      | none => some ((t :: done).reverse, d)
    | none => none
termination_by c.length
decreasing_by exact token?_length _h

/-- The tokens of content. -/
def content? (c : Cursor) : Option (List Token × Cursor) :=
  contentFrom [] 0 c

/-- The tokens of one element, and the cursor behind them. -/
def element? (c : Cursor) : Option (List Token × Cursor) := do
  let (t, d) ← c.startTag?
  match t with
  | .start _ _ _ .opened => contentFrom [t] 0 d
  | _ => some ([t], d)

end Cursor

end XsdCatalog.Markup
