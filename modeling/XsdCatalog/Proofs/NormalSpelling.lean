import XsdCatalog.Proofs.Extraction

/-!
# Spellings with normalised line ends

What is handed out is spelled by lexemes again: those of the element, with normalised line ends and
without spaces in end tags. Line ends stand in runs of spaces, in values and in marks, and no lexeme
ends inside of one, so each is normalised apart from its neighbours.
-/

namespace XsdCatalog

namespace Text

/-- A carriage return by itself is a line end. -/
def unixChar (c : Char) : Char :=
  if c = '\r' then '\n' else c

private theorem head?_unixLines (cs : List Char) :
    (unixLines cs).head? = cs.head?.map unixChar := by
  rw [unixLines.eq_def]
  split <;> rfl

private theorem getLast?_unixLines (cs : List Char) :
    (unixLines cs).getLast? = cs.getLast?.map unixChar := by
  fun_induction unixLines cs with
  | case1 => rfl
  | case2 cs ih =>
    rw [List.getLast?_cons, ih, List.getLast?_cons_cons, List.getLast?_cons]
    cases cs.getLast? <;> rfl
  | case3 c cs _ ih =>
    rw [List.getLast?_cons, ih, List.getLast?_cons]
    cases cs.getLast? <;> rfl

private theorem ends_unixLines_iff {p : Char → Bool} (hp : p '\r' = p '\n') {cs : List Char} :
    Ends p (unixLines cs) ↔ Ends p cs := by
  have hchar (c : Char) : p (unixChar c) = p c := by
    rw [unixChar]
    split
    · next hc => rw [hc, hp]
    · rfl
  rw [Ends, Ends, head?_unixLines]
  cases cs.head? with
  | none => rfl
  | some c =>
    show p (unixChar c) = false ↔ p c = false
    rw [hchar]

private theorem unixLines_ne_nil {cs : List Char} (h : cs ≠ []) : unixLines cs ≠ [] := by
  intro hnil
  have hhead := head?_unixLines cs
  rw [hnil, List.head?_nil] at hhead
  exact h (List.head?_eq_none_iff.1 (Option.map_eq_none_iff.1 hhead.symm))

private theorem unixLines_append_cons {d : Char} (h : d ≠ '\n') (cs ds : List Char) :
    unixLines (cs ++ d :: ds) = unixLines cs ++ unixLines (d :: ds) :=
  unixLines_append (.inr fun hd => h (Option.some.inj hd))

theorem unixLines_append_of_not_mem {cs : List Char} (h : '\r' ∉ cs) (ds : List Char) :
    unixLines (cs ++ ds) = cs ++ unixLines ds := by
  rw [unixLines_append (.inl fun hl => h (List.mem_of_getLast? hl)), unixLines_of_not_mem h]

/-- A property of line feeds and of characters is one of characters with normalised line ends. -/
theorem forall_mem_unixLines {p : Char → Prop} (hp : p '\n') {cs : List Char}
    (h : ∀ c ∈ cs, p c) : ∀ c ∈ unixLines cs, p c := by
  intro c hc
  rcases mem_unixLines hc with hc | rfl
  · exact h c hc
  · exact hp

end Text

namespace Markup

open Text (unixLines)

private theorem all_isAllowed_unixLines {cs : List Char} (h : cs.all isAllowed = true) :
    (unixLines cs).all isAllowed = true :=
  List.all_eq_true.2 (Text.forall_mem_unixLines (by decide) (List.all_eq_true.1 h))

private theorem isSpace_of_mem_nil : ∀ c ∈ [], isSpace c = true :=
  List.forall_mem_nil _

def noSpaces : Spaces :=
  ⟨[], isSpace_of_mem_nil⟩

def Spaces.normal (gap : Spaces) : Spaces :=
  ⟨unixLines gap.1, Text.forall_mem_unixLines (p := fun c => isSpace c = true) rfl gap.2⟩

def SpelledAttribute.normal (a : SpelledAttribute) : SpelledAttribute where
  gap := Spaces.normal a.gap
  name := a.name
  left := Spaces.normal a.left
  right := Spaces.normal a.right
  quote := a.quote
  value := unixLines a.value
  gapped := Text.unixLines_ne_nil a.gapped
  isQuote := a.isQuote
  isValue := Text.forall_mem_unixLines
    ⟨by decide, by rcases a.isQuote with h | h <;> rw [h] <;> decide, by decide⟩ a.isValue

def StartTag.normal (t : StartTag) : StartTag where
  name := t.name
  attributes := t.attributes.map (·.normal)
  gap := Spaces.normal t.gap

private theorem SpelledName.not_mem_return (n : SpelledName) : '\r' ∉ n.chars :=
  fun h => absurd (n.isName _ h) (by decide)

private theorem SpelledAttribute.chars_normal_append (a : SpelledAttribute) (rest : List Char) :
    unixLines (a.chars ++ rest) = a.normal.chars ++ unixLines rest := by
  obtain ⟨x, name, hx, hname⟩ := a.name.exists_cons
  have hfeed : x ≠ '\n' := fun h => absurd (h ▸ hname) (by decide)
  have hquote : a.quote ≠ '\n' ∧ a.quote ≠ '\r' := by
    rcases a.isQuote with h | h <;> rw [h] <;> decide
  have hquoted : unixLines (a.quote :: (a.value ++ a.quote :: rest))
      = a.quote :: (unixLines a.value ++ a.quote :: unixLines rest) := by
    rw [Text.unixLines_cons_of_ne hquote.2, Text.unixLines_append_cons hquote.1,
      Text.unixLines_cons_of_ne hquote.2]
  have hbehind : unixLines (a.name.chars ++ (a.left.1 ++ '=' :: (a.right.1
        ++ a.quote :: (a.value ++ a.quote :: rest))))
      = a.name.chars ++ (unixLines a.left.1 ++ '=' :: (unixLines a.right.1
        ++ a.quote :: (unixLines a.value ++ a.quote :: unixLines rest))) := by
    rw [Text.unixLines_append_of_not_mem a.name.not_mem_return,
      Text.unixLines_append_cons (by decide), Text.unixLines_cons_of_ne (by decide),
      Text.unixLines_append_cons hquote.1, hquoted]
  have hchars : a.chars ++ rest = a.gap.1 ++ (a.name.chars ++ (a.left.1 ++ '=' :: (a.right.1
      ++ a.quote :: (a.value ++ a.quote :: rest)))) := by
    simp [SpelledAttribute.chars, SpelledAttribute.quoted]
  rw [hchars, hx, List.cons_append, Text.unixLines_append_cons hfeed, ← List.cons_append, ← hx,
    hbehind]
  simp [SpelledAttribute.chars, SpelledAttribute.quoted, SpelledAttribute.normal, Spaces.normal]

private theorem StartTag.body_normal (t : StartTag) : t.normal.body = unixLines t.body := by
  have hattributes (as : List SpelledAttribute) (rest : List Char) :
      unixLines (as.flatMap (·.chars) ++ rest)
        = (as.map (·.normal)).flatMap (·.chars) ++ unixLines rest := by
    induction as with
    | nil => rfl
    | cons a as ih =>
      rw [List.flatMap_cons, List.append_assoc, a.chars_normal_append, ih, List.map_cons,
        List.flatMap_cons, List.append_assoc]
  show t.name.chars ++ ((t.attributes.map (·.normal)).flatMap (·.chars) ++ unixLines t.gap.1) = _
  rw [← hattributes, ← Text.unixLines_append_of_not_mem t.name.not_mem_return]
  rfl

private theorem StartTag.chars_normal (t : StartTag) (closed : Bool) :
    t.normal.chars closed = unixLines (t.chars closed) := by
  have hmark : ∃ d ds, lastMark closed = d :: ds ∧ d ≠ '\n' ∧ '\r' ∉ d :: ds := by
    cases closed with
    | false => exact ⟨'>', [], rfl, by decide, by decide⟩
    | true => exact ⟨'/', ['>'], rfl, by decide, by decide⟩
  obtain ⟨d, ds, hd, hfeed, hreturn⟩ := hmark
  rw [chars, chars, hd, Text.unixLines_cons_of_ne (by decide), Text.unixLines_append_cons hfeed,
    Text.unixLines_of_not_mem hreturn, t.body_normal]

def TextChars.normal (cs : TextChars) : TextChars :=
  ⟨unixLines cs.1, Text.unixLines_ne_nil cs.2.1,
    fun h => cs.2.2.1 ((Text.mem_unixLines h).resolve_right (by decide)),
    all_isAllowed_unixLines cs.2.2.2.1, by
      rw [Bool.eq_false_iff, ne_eq, Text.occursIn_iff]
      intro h
      have hopen := Text.infix_of_infix_unixLines (by decide) h
      rw [← Text.occursIn_iff, cs.2.2.2.2] at hopen
      cases hopen⟩

def CdataBody.normal (body : CdataBody) : CdataBody :=
  ⟨unixLines body.1, all_isAllowed_unixLines body.2.1,
    body.2.2.unixLines (by decide) (by decide)⟩

private theorem isCommentBody_unixLines {body : List Char} (h : Cursor.isCommentBody body = true) :
    Cursor.isCommentBody (unixLines body) = true := by
  rw [Cursor.isCommentBody, Bool.and_eq_true, Bool.and_eq_true] at h
  obtain ⟨⟨hall, hhyphens⟩, hlast⟩ := h
  have hhyphens' : Text.occursIn "--".toList (unixLines body) = false := by
    rw [Bool.eq_false_iff, ne_eq, Text.occursIn_iff]
    intro hwithin
    have hwithin := Text.infix_of_infix_unixLines (by decide) hwithin
    rw [← Text.occursIn_iff] at hwithin
    rw [hwithin] at hhyphens
    cases hhyphens
  have hlast' : (unixLines body).getLast? ≠ some '-' := by
    rw [Text.getLast?_unixLines]
    intro hhyphen
    obtain ⟨c, hc, hchar⟩ := Option.map_eq_some_iff.1 hhyphen
    rw [Text.unixChar] at hchar
    split at hchar
    · cases hchar
    · rw [hc, hchar] at hlast
      cases hlast
  rw [Cursor.isCommentBody, all_isAllowed_unixLines hall, hhyphens']
  simpa using hlast'

def CommentBody.normal (body : CommentBody) : CommentBody :=
  ⟨unixLines body.1, isCommentBody_unixLines body.2⟩

private theorem Instruction.unixLines_behind (i : Instruction) :
    unixLines (i.gap.1 ++ (i.body ++ ['?', '>']))
      = unixLines i.gap.1 ++ (unixLines i.body ++ ['?', '>']) := by
  have hhead : (i.body ++ ['?', '>']).head? ≠ some '\n' := by
    intro h
    have hends := i.endsGap
    rw [Text.Ends, h] at hends
    cases hends
  rw [Text.unixLines_append (.inr hhead), Text.unixLines_append_cons (by decide)]
  rfl

def Instruction.normal (i : Instruction) : Instruction where
  target := i.target
  gap := Spaces.normal i.gap
  body := unixLines i.body
  isTarget := i.isTarget
  endsTarget := by
    have h := (Text.ends_unixLines_iff (by decide)).2 i.endsTarget
    rwa [i.unixLines_behind] at h
  notDeclaration := by
    intro htarget hhead
    show False
    rw [Spaces.normal, Text.head?_unixLines] at hhead
    obtain ⟨c, hc, hchar⟩ := Option.map_eq_some_iff.1 hhead
    rw [Text.unixChar] at hchar
    split at hchar
    · cases hchar
    · exact i.notDeclaration htarget (hchar ▸ hc)
  endsGap := by
    have h := (Text.ends_unixLines_iff (by decide)).2 i.endsGap
    rwa [Text.unixLines_append_cons (by decide)] at h
  isBody := all_isAllowed_unixLines i.isBody
  closes := i.closes.unixLines (by decide) (by decide)

def Mark.normal : Mark → Mark
  | text cs => text (TextChars.normal cs)
  | cdata body => cdata (CdataBody.normal body)
  | comment body => comment (CommentBody.normal body)
  | instruction i => instruction i.normal

private theorem Mark.chars_normal (m : Mark) : m.normal.chars = unixLines m.chars := by
  cases m with
  | text cs => rfl
  | cdata body =>
    obtain ⟨body, hbody⟩ := body
    have hopen : "<![CDATA[".toList = ['<', '!', '[', 'C', 'D', 'A', 'T', 'A', '['] := by simp
    have hclose : "]]>".toList = [']', ']', '>'] := by simp
    show "<![CDATA[".toList ++ (unixLines body ++ "]]>".toList)
      = unixLines ("<![CDATA[".toList ++ (body ++ "]]>".toList))
    clear hbody
    rw [hopen, hclose, Text.unixLines_append_of_not_mem (by decide),
      Text.unixLines_append_cons (by decide)]
    rfl
  | comment body =>
    obtain ⟨body, hbody⟩ := body
    have hopen : "<!--".toList = ['<', '!', '-', '-'] := by simp
    have hclose : "-->".toList = ['-', '-', '>'] := by simp
    show "<!--".toList ++ (unixLines body ++ "-->".toList)
      = unixLines ("<!--".toList ++ (body ++ "-->".toList))
    clear hbody
    rw [hopen, hclose, Text.unixLines_append_of_not_mem (by decide),
      Text.unixLines_append_cons (by decide)]
    rfl
  | instruction i =>
    have htarget : '\r' ∉ i.target := fun h => absurd (i.isTarget.1 _ h) (by decide)
    show '<' :: '?' :: (i.target ++ (unixLines i.gap.1 ++ (unixLines i.body ++ ['?', '>'])))
      = unixLines ('<' :: '?' :: (i.target ++ (i.gap.1 ++ (i.body ++ ['?', '>']))))
    rw [Text.unixLines_cons_of_ne (by decide), Text.unixLines_cons_of_ne (by decide),
      Text.unixLines_append_of_not_mem htarget, i.unixLines_behind]

/-- The lexeme with normalised line ends, and without spaces in an end tag. -/
def Lexeme.normal : Lexeme → Lexeme
  | start t => start t.normal
  | empty t => empty t.normal
  | stop name _ => stop name noSpaces
  | mark m => mark m.normal

namespace Lexeme

private theorem chars_normal (l : Lexeme) : l.normal.chars = unixLines l.tight.chars := by
  cases l with
  | start t => exact t.chars_normal false
  | empty t => exact t.chars_normal true
  | stop name gap =>
    show '<' :: '/' :: (name.chars ++ ['>']) = unixLines ('<' :: '/' :: (name.chars ++ ['>']))
    rw [Text.unixLines_cons_of_ne (by decide), Text.unixLines_cons_of_ne (by decide),
      Text.unixLines_append_of_not_mem name.not_mem_return]
    rfl
  | mark m => exact m.chars_normal

private theorem isText_normal (l : Lexeme) : l.normal.isText = l.isText := by
  cases l with
  | mark m => cases m <;> rfl
  | _ => rfl

private theorem isText_tight (l : Lexeme) : l.tight.isText = l.isText := by
  cases l <;> rfl

/-- Only a text may end in a carriage return. -/
theorem getLast?_chars_ne {l : Lexeme} (h : l.isText = false) : l.chars.getLast? ≠ some '\r' := by
  suffices hclose : ∃ front last, l.chars = front ++ last ∧ last.getLast? = some '>' by
    obtain ⟨front, last, hchars, hlast⟩ := hclose
    rw [hchars, List.getLast?_append, hlast, Option.some_or]
    decide
  cases l with
  | start t => exact ⟨'<' :: t.body, ['>'], rfl, rfl⟩
  | empty t => exact ⟨'<' :: t.body, ['/', '>'], rfl, rfl⟩
  | stop name gap => exact ⟨'<' :: '/' :: (name.chars ++ gap.1), ['>'], by simp [chars], rfl⟩
  | mark m =>
    cases m with
    | text cs => cases h
    | cdata body => exact ⟨_, _, (List.append_assoc ..).symm, by simp⟩
    | comment body => exact ⟨_, _, (List.append_assoc ..).symm, by simp⟩
    | instruction i =>
      refine ⟨'<' :: '?' :: (i.target ++ (i.gap.1 ++ i.body)), ['?', '>'], ?_, rfl⟩
      show (Mark.instruction i).chars = _
      rw [Mark.chars_instruction]
      simp

private theorem unixLines_tight_append {l : Lexeme} {rest : List Char} (h : l.tight.Fits rest) :
    unixLines (l.tight.chars ++ rest) = l.normal.chars ++ unixLines rest := by
  rw [chars_normal]
  refine Text.unixLines_append ?_
  cases htext : l.tight.isText with
  | false => exact .inl (getLast?_chars_ne htext)
  | true =>
    right
    intro hfeed
    have hends := h htext
    rw [Text.Ends, hfeed] at hends
    cases hends

private theorem apart_map {f : Lexeme → Lexeme} (hf : ∀ l, (f l).isText = l.isText)
    {ls : List Lexeme} (h : Apart ls) : Apart (ls.map f) := by
  rw [Apart, List.isChain_map]
  refine h.imp fun l k hlk => ?_
  rwa [hf, hf]

private theorem spell_normal {ls : List Lexeme} (h : Apart ls) :
    spell (ls.map normal) = unixLines (spell (ls.map tight)) := by
  induction ls with
  | nil => rfl
  | cons l ls ih =>
    have hfits : l.tight.Fits (spell (ls.map tight)) := by
      have hapart : Apart (l.tight :: ls.map tight) := apart_map isText_tight h
      have hrest := @fits_of_apart _ _ [] hapart fun _ _ _ => Text.ends_nil _
      rwa [List.append_nil] at hrest
    rw [List.map_cons, List.map_cons, spell_cons, spell_cons, ih h.tail,
      unixLines_tight_append hfits]

end Lexeme

/-- The content with normalised line ends, and without spaces in end tags. -/
def Content.normal : Content → Content
  | nil => nil
  | mark m rest => mark m.normal rest.normal
  | empty t rest => empty t.normal rest.normal
  | element t inner name _ rest => element t.normal inner.normal name noSpaces rest.normal

private theorem Content.lexemes_normal (k : Content) :
    k.normal.lexemes = k.lexemes.map Lexeme.normal := by
  induction k with
  | nil => rfl
  | mark m k ih => exact congrArg (Lexeme.mark m.normal :: ·) ih
  | empty t k ih => exact congrArg (Lexeme.empty t.normal :: ·) ih
  | element t inner name gap k ihInner ihRest =>
    rw [normal, lexemes, ihInner, ihRest, lexemes, List.map_cons, List.map_append, List.map_cons]
    rfl

/-- The attribute with more spaces in front of it. -/
def SpelledAttribute.behind (gap : Spaces) (a : SpelledAttribute) : SpelledAttribute :=
  { a with
    gap := ⟨gap.1 ++ a.gap.1, fun c hc => (List.mem_append.1 hc).elim (gap.2 c) (a.gap.2 c)⟩
    gapped := List.append_ne_nil_of_right_ne_nil _ a.gapped }

/-- The tag with more attributes behind what it ends with. -/
def StartTag.append (t : StartTag) : List SpelledAttribute → StartTag
  | [] => t
  | a :: as =>
    { t with
      attributes := t.attributes ++ a.behind t.gap :: as
      gap := noSpaces }

private theorem StartTag.body_append (t : StartTag) (more : List SpelledAttribute) :
    (t.append more).body = t.body ++ more.flatMap (·.chars) := by
  cases more with
  | nil => simp [append]
  | cons a as => simp [append, noSpaces, body, SpelledAttribute.behind, SpelledAttribute.chars,
      SpelledAttribute.quoted]

theorem StartTag.raw_append (t : StartTag) (more : List SpelledAttribute) :
    (t.append more).attributes.map (·.raw) = (t.attributes ++ more).map (·.raw) := by
  cases more with
  | nil => rw [append, List.append_nil]
  | cons a as =>
    rw [append, List.map_append, List.map_append]
    rfl

namespace Element

def normal : Element → Element
  | empty t => empty t.normal
  | full t inner name _ => full t.normal inner.normal name noSpaces

/-- The element with more attributes in its first tag. -/
def inheriting (more : List SpelledAttribute) : Element → Element
  | empty t => empty (t.append more)
  | full t inner name gap => full (t.append more) inner name gap

private theorem lexemes_normal (e : Element) : e.normal.lexemes = e.lexemes.map Lexeme.normal := by
  cases e with
  | empty t => rfl
  | full t inner name gap => exact (Content.element t inner name gap .nil).lexemes_normal

theorem apart_inheriting {e : Element} (h : Lexeme.Apart e.lexemes) (more : List SpelledAttribute) :
    Lexeme.Apart (e.inheriting more).lexemes := by
  cases e with
  | empty t => exact List.isChain_singleton _
  | full t inner name gap =>
    exact @Lexeme.apart_cons (.start (t.append more)) _ [] (Lexeme.fits_of_not_text rfl _) h.tail

/-- What is handed out for an element is spelled by an element. -/
theorem chars_normal_inheriting {e : Element} (h : Lexeme.Apart e.lexemes)
    (more : List SpelledAttribute) :
    (e.inheriting more).normal.chars = unixLines (e.extended (more.flatMap (·.chars))) := by
  rw [chars, lexemes_normal, Lexeme.spell_normal (apart_inheriting h more)]
  congr 1
  cases e with
  | empty t =>
    show (t.append more).chars true ++ [] = _
    rw [List.append_nil, StartTag.chars, t.body_append]
    rfl
  | full t inner name gap =>
    show (t.append more).chars false
      ++ Lexeme.spell ((inner.lexemes ++ [Lexeme.stop name gap]).map Lexeme.tight) = _
    rw [StartTag.chars, t.body_append, extended]
    simp [StartTag.lastMark]

theorem apart_normal {e : Element} (h : Lexeme.Apart e.lexemes) : Lexeme.Apart e.normal.lexemes := by
  rw [lexemes_normal]
  exact Lexeme.apart_map Lexeme.isText_normal h

end Element

end Markup

end XsdCatalog
