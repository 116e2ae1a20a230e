import XsdCatalog.Proofs.Spelling

/-!
# How content is spelled

Every token of content is spelled by a lexeme, and a lexeme is read as its token wherever it stands;
only a text must be followed by a tag or another mark, or by nothing.
-/

namespace XsdCatalog.Markup

/-- Characters that are a text. -/
abbrev TextChars :=
  { cs : List Char // cs ≠ [] ∧ '<' ∉ cs ∧ cs.all isAllowed = true ∧
    Text.occursIn "]]>".toList cs = false }

/-- Characters that may stand in a character data section. -/
abbrev CdataBody :=
  { cs : List Char // cs.all isAllowed = true ∧ Text.Closes "]]>".toList cs }

/-- Characters that may stand in a comment. -/
abbrev CommentBody := { cs : List Char // Cursor.isCommentBody cs = true }

/-- A processing instruction as it is spelled. -/
structure Instruction where
  target : List Char
  gap : Spaces
  body : List Char
  isTarget : (∀ x ∈ target, isNameChar x = true) ∧ target.head?.any isNameStart = true
  endsTarget : Text.Ends isNameChar (gap.1 ++ (body ++ ['?', '>']))
  notDeclaration : target = ['x', 'm', 'l'] → gap.1.head? ≠ some ' '
  endsGap : Text.Ends isSpace (body ++ ['?', '>'])
  isBody : body.all isAllowed = true
  closes : Text.Closes ['?', '>'] body

namespace Instruction

/-- All that stands between the marks. -/
def whole (i : Instruction) : List Char :=
  i.target ++ (i.gap.1 ++ i.body)

theorem closes_whole (i : Instruction) : Text.Closes ['?', '>'] i.whole := by
  have htarget : '?' ∉ i.target := fun hm => absurd (i.isTarget.1 _ hm) (by decide)
  have hgap : '?' ∉ i.gap.1 := fun hm => absurd (i.gap.2 _ hm) (by decide)
  exact (i.closes.append_of_not_mem hgap).append_of_not_mem htarget

theorem head?_whole_ne (i : Instruction) : i.whole.head? ≠ some '>' := by
  intro h
  have hfirst := i.isTarget.2
  rw [whole] at h
  cases ht : i.target with
  | nil =>
    rw [ht] at hfirst
    cases hfirst
  | cons x target =>
    rw [ht] at h hfirst
    cases h
    have hclose : isNameStart '>' = true := hfirst
    exact absurd hclose (by decide)

end Instruction

/-- Content that is no element, as it is spelled. -/
inductive Mark
  | text (chars : TextChars)
  | cdata (body : CdataBody)
  | comment (body : CommentBody)
  | instruction (i : Instruction)

namespace Mark

def chars : Mark → List Char
  | text cs => cs.1
  | cdata body => "<![CDATA[".toList ++ (body.1 ++ "]]>".toList)
  | comment body => "<!--".toList ++ (body.1 ++ "-->".toList)
  | instruction i => '<' :: '?' :: (i.target ++ (i.gap.1 ++ (i.body ++ ['?', '>'])))

def token : Mark → Token
  | text cs => .text cs.1
  | cdata body => .cdata body.1
  | comment body => .comment body.1
  | instruction i => .instruction i.target i.body

def isText : Mark → Bool
  | text _ => true
  | _ => false

theorem chars_instruction (i : Instruction) :
    (instruction i).chars = '<' :: '?' :: (i.target ++ (i.gap.1 ++ (i.body ++ ['?', '>']))) := rfl

private theorem chars_ne_nil (m : Mark) : m.chars ≠ [] := by
  cases m with
  | text cs => exact cs.2.1
  | _ => exact List.cons_ne_nil _ _

end Mark

/-- A token as it is spelled. -/
inductive Lexeme
  | start (tag : StartTag)
  | empty (tag : StartTag)
  | stop (name : SpelledName) (gap : Spaces)
  | mark (m : Mark)

namespace Lexeme

def chars : Lexeme → List Char
  | start tag => tag.chars false
  | empty tag => tag.chars true
  | stop name gap => '<' :: '/' :: (name.chars ++ (gap.1 ++ ['>']))
  | mark m => m.chars

def token (position : Position) : Lexeme → Token
  | start tag => tag.token false position
  | empty tag => tag.token true position
  | stop name _ => .stop name.name
  | mark m => m.token

def isText : Lexeme → Bool
  | mark m => m.isText
  | _ => false

/-- The lexeme can be followed by this: behind a text the next mark begins. -/
def Fits (l : Lexeme) (rest : List Char) : Prop :=
  l.isText = true → Text.Ends (· != '<') rest

theorem fits_of_not_text {l : Lexeme} (h : l.isText = false) (rest : List Char) : l.Fits rest :=
  fun ht => absurd (h.symm.trans ht) Bool.false_ne_true

theorem chars_ne_nil (l : Lexeme) : l.chars ≠ [] := by
  cases l with
  | mark m => exact m.chars_ne_nil
  | _ => exact List.cons_ne_nil _ _

end Lexeme

theorem closes_of_isCommentBody {body : List Char} (h : Cursor.isCommentBody body = true) :
    Text.Closes "-->".toList body := by
  have hinfix : ¬ "--".toList <:+: body := by
    rw [← Text.occursIn_iff]
    intro ho
    rw [Cursor.isCommentBody, ho, Bool.not_true, Bool.and_false, Bool.false_and] at h
    cases h
  clear h
  induction body with
  | nil => trivial
  | cons c cs ih =>
    refine ⟨fun hp => ?_, ih fun h => hinfix (List.infix_cons h)⟩
    obtain ⟨rest, hr⟩ := hp
    injection hr with hc hr
    cases cs with
    | nil =>
      injection hr with _ hr
      injection hr with hr _
      exact absurd hr (by decide)
    | cons d cs =>
      injection hr with hd _
      exact hinfix ⟨[], cs, by rw [← hc, ← hd]; rfl⟩

namespace Cursor

private theorem comment?_append (body : CommentBody) (rest : List Char) (position : Position) :
    comment? ⟨"<!--".toList ++ (body.1 ++ "-->".toList) ++ rest, position⟩
      = some (.comment body.1,
          ⟨rest, position.after ("<!--".toList ++ (body.1 ++ "-->".toList))⟩) := by
  have heat := eat?_append "<!--".toList (body.1 ++ "-->".toList ++ rest) position
  have hbefore := before?_append (by decide) (closes_of_isCommentBody body.2) rest
    (position.after "<!--".toList)
  rw [comment?, List.append_assoc, heat]
  simp only [Option.bind_eq_bind, Option.bind_some, hbefore, body.2, if_true,
    Position.after_append]

private theorem cdata?_append (body : CdataBody) (rest : List Char) (position : Position) :
    cdata? ⟨"<![CDATA[".toList ++ (body.1 ++ "]]>".toList) ++ rest, position⟩
      = some (.cdata body.1,
          ⟨rest, position.after ("<![CDATA[".toList ++ (body.1 ++ "]]>".toList))⟩) := by
  have heat := eat?_append "<![CDATA[".toList (body.1 ++ "]]>".toList ++ rest) position
  have hbefore := before?_append (by decide) body.2.2 rest (position.after "<![CDATA[".toList)
  rw [cdata?, List.append_assoc, heat]
  simp only [Option.bind_eq_bind, Option.bind_some, hbefore, body.2.1, if_true,
    Position.after_append]

private theorem text?_append (cs : TextChars) {rest : List Char} (hr : Text.Ends (· != '<') rest)
    (position : Position) :
    text? ⟨cs.1 ++ rest, position⟩ = some (.text cs.1, ⟨rest, position.after cs.1⟩) := by
  obtain ⟨cs, hne, hopen, hall, hclose⟩ := cs
  have hrun : takeWhile ⟨cs ++ rest, position⟩ (· != '<') = (cs, ⟨rest, position.after cs⟩) :=
    takeWhile_append (fun x hx => by
      rw [bne_iff_ne]
      rintro rfl
      exact hopen hx) hr position
  rw [text?, hrun]
  simp only [hall, hclose]
  rfl

private theorem stopTag?_append (n : SpelledName) (gap : Spaces) (rest : List Char)
    (position : Position) :
    stopTag? ⟨'<' :: '/' :: (n.chars ++ (gap.1 ++ ['>'])) ++ rest, position⟩
      = some (.stop n.name,
          ⟨rest, position.after ('<' :: '/' :: (n.chars ++ (gap.1 ++ ['>'])))⟩) := by
  have hopen : eat? ⟨'<' :: '/' :: (n.chars ++ (gap.1 ++ '>' :: rest)), position⟩ ['<', '/']
      = some ⟨n.chars ++ (gap.1 ++ '>' :: rest), position.after ['<', '/']⟩ :=
    eat?_append ['<', '/'] _ position
  have hname : Text.Ends isNameChar (gap.1 ++ '>' :: rest) :=
    ends_append_of_spaces isNameChar_of_isSpace gap (by decide : isNameChar '>' = false)
  have hgap : Text.Ends isSpace ('>' :: rest) := rfl
  have hend (p : Position) : eat? ⟨'>' :: rest, p⟩ ['>'] = some ⟨rest, p.after ['>']⟩ :=
    eat?_append ['>'] rest p
  have hchars : '<' :: '/' :: (n.chars ++ (gap.1 ++ ['>'])) ++ rest
      = '<' :: '/' :: (n.chars ++ (gap.1 ++ '>' :: rest)) := by simp
  rw [stopTag?, hchars, hopen]
  simp only [Option.bind_eq_bind, Option.bind_some, tagName?_append n hname,
    skipSpaces_append gap hgap, hend]
  simp [Position.after_cons]

private theorem name?_append {target rest : List Char} (hall : ∀ x ∈ target, isNameChar x = true)
    (hfirst : target.head?.any isNameStart = true) (hr : Text.Ends isNameChar rest)
    (position : Position) :
    name? ⟨target ++ rest, position⟩ = some (target, ⟨rest, position.after target⟩) := by
  rw [name?, takeWhile_append hall hr]
  cases target with
  | nil => cases hfirst
  | cons x target => exact if_pos hfirst

/-- An instruction is not taken for an XML declaration. -/
theorem startsWith_instruction (i : Instruction) (rest : List Char) (position : Position) :
    startsWith ⟨(Mark.instruction i).chars ++ rest, position⟩ "<?xml ".toList = false := by
  rw [Bool.eq_false_iff]
  intro hp
  obtain ⟨r, hr⟩ := List.isPrefixOf_iff_prefix.1 hp
  have hword : "<?xml ".toList = ['<', '?', 'x', 'm', 'l', ' '] := by simp
  rw [hword] at hr
  have hr : ['x', 'm', 'l'] ++ ' ' :: r
      = i.target ++ (i.gap.1 ++ (i.body ++ ['?', '>']) ++ rest) := by
    simpa [Mark.chars_instruction] using hr
  have hends : Text.Ends isNameChar (i.gap.1 ++ (i.body ++ ['?', '>']) ++ rest) :=
    i.endsTarget.append (by simp) rest
  have hspace : Text.Ends isNameChar (' ' :: r) := (by decide : isNameChar ' ' = false)
  have hxml : ∀ x ∈ ['x', 'm', 'l'], isNameChar x = true :=
    List.all_eq_true.1 (by decide)
  have htarget : i.target = ['x', 'm', 'l'] := by
    have h := congrArg (List.takeWhile isNameChar) hr
    rw [Text.takeWhile_append i.isTarget.1 hends, Text.takeWhile_append hxml hspace] at h
    exact h.symm
  rw [htarget, List.append_cancel_left_eq] at hr
  refine i.notDeclaration htarget ?_
  cases hg : i.gap.1 with
  | nil =>
    have hspace : Text.Ends isSpace (' ' :: r) := by
      rw [hr, hg, List.nil_append]
      exact i.endsGap.append (by simp) rest
    cases hspace
  | cons x gap =>
    rw [hg] at hr
    injection hr with hx _
    rw [← hx]
    rfl

private theorem instruction?_append (i : Instruction) (rest : List Char) (position : Position) :
    instruction? ⟨(Mark.instruction i).chars ++ rest, position⟩
      = some (.instruction i.target i.body,
          ⟨rest, position.after (Mark.instruction i).chars⟩) := by
  have hname : Text.Ends isNameChar (i.gap.1 ++ (i.body ++ ['?', '>'] ++ rest)) := by
    have h := i.endsTarget.append (by simp) rest
    rwa [List.append_assoc] at h
  have hgap : Text.Ends isSpace (i.body ++ ['?', '>'] ++ rest) :=
    i.endsGap.append (by simp) rest
  have hopen : eat? ⟨'<' :: '?' :: (i.target ++ (i.gap.1 ++ (i.body ++ ['?', '>'] ++ rest))),
      position⟩ ['<', '?'] = some ⟨i.target ++ (i.gap.1 ++ (i.body ++ ['?', '>'] ++ rest)),
        position.after ['<', '?']⟩ :=
    eat?_append ['<', '?'] _ position
  have hchars : (Mark.instruction i).chars ++ rest
      = '<' :: '?' :: (i.target ++ (i.gap.1 ++ (i.body ++ ['?', '>'] ++ rest))) := by
    simp [Mark.chars_instruction]
  have hword : "?>".toList = ['?', '>'] := by simp
  have hbody (p : Position) : before? ⟨i.body ++ ['?', '>'] ++ rest, p⟩ ['?', '>']
      = some (i.body, ⟨rest, p.after (i.body ++ ['?', '>'])⟩) :=
    before?_append (by decide) i.closes rest p
  rw [instruction?, startsWith_instruction i rest position, hchars, hopen, hword]
  simp only [Bool.false_eq_true, if_false, Option.bind_eq_bind, Option.bind_some,
    name?_append i.isTarget.1 i.isTarget.2 hname, skipSpaces_append i.gap hgap,
    hbody, i.isBody, if_true]
  simp [Mark.chars_instruction, Position.after_cons]

private theorem token?_tag (t : StartTag) (closed : Bool) (rest : List Char) (position : Position) :
    token? ⟨t.chars closed ++ rest, position⟩
      = some (t.token closed position, ⟨rest, position.after (t.chars closed)⟩) := by
  obtain ⟨x, cs, hx, hname⟩ := t.name.exists_cons
  have hchars : ∃ tail, t.chars closed ++ rest = '<' :: x :: tail :=
    ⟨_, by rw [StartTag.chars, StartTag.body, hx]; rfl⟩
  have hdispatch : token? ⟨t.chars closed ++ rest, position⟩
      = startTag? ⟨t.chars closed ++ rest, position⟩ := by
    obtain ⟨tail, ht⟩ := hchars
    rw [token?, ht]
    split
    · next he => cases he; exact absurd hname (by decide)
    · next he => cases he; exact absurd hname (by decide)
    · next he => cases he; exact absurd hname (by decide)
    · rfl
    · next he => cases he
    · next hopen _ => exact (hopen _ rfl).elim
  exact hdispatch.trans (startTag?_append t closed rest position)

private theorem token?_mark {m : Mark} {rest : List Char}
    (h : m.isText = true → Text.Ends (· != '<') rest) (position : Position) :
    token? ⟨m.chars ++ rest, position⟩ = some (m.token, ⟨rest, position.after m.chars⟩) := by
  have hcomment : "<!--".toList = ['<', '!', '-', '-'] := by simp
  have hcdata : "<![CDATA[".toList = ['<', '!', '[', 'C', 'D', 'A', 'T', 'A', '['] := by simp
  cases m with
  | text cs =>
    have hdispatch : token? ⟨cs.1 ++ rest, position⟩ = text? ⟨cs.1 ++ rest, position⟩ := by
      obtain ⟨x, tail, hx⟩ := List.exists_cons_of_ne_nil cs.2.1
      have hopen : x ≠ '<' := fun he => cs.2.2.1 (by rw [hx, he]; exact List.mem_cons_self)
      rw [token?, hx]
      split
      · next he => exact absurd (List.cons.inj he).1 hopen
      · next he => exact absurd (List.cons.inj he).1 hopen
      · next he => exact absurd (List.cons.inj he).1 hopen
      · next he => exact absurd (List.cons.inj he).1 hopen
      · next he => cases he
      · rfl
    exact hdispatch.trans (text?_append cs (h rfl) position)
  | cdata body =>
    have hnone : comment? ⟨"<![CDATA[".toList ++ (body.1 ++ "]]>".toList) ++ rest, position⟩
        = none := by
      rw [comment?, hcdata, hcomment]
      rfl
    have hdispatch : token? ⟨"<![CDATA[".toList ++ (body.1 ++ "]]>".toList) ++ rest, position⟩
        = (comment? ⟨"<![CDATA[".toList ++ (body.1 ++ "]]>".toList) ++ rest, position⟩).or
          (cdata? ⟨"<![CDATA[".toList ++ (body.1 ++ "]]>".toList) ++ rest, position⟩) := by
      rw [token?, hcdata]
      rfl
    exact hdispatch.trans (by rw [hnone, cdata?_append]; rfl)
  | comment body =>
    have hdispatch : token? ⟨"<!--".toList ++ (body.1 ++ "-->".toList) ++ rest, position⟩
        = (comment? ⟨"<!--".toList ++ (body.1 ++ "-->".toList) ++ rest, position⟩).or
          (cdata? ⟨"<!--".toList ++ (body.1 ++ "-->".toList) ++ rest, position⟩) := by
      rw [token?, hcomment]
      rfl
    exact hdispatch.trans (by rw [comment?_append]; rfl)
  | instruction i => exact instruction?_append i rest position

theorem token?_append {l : Lexeme} {rest : List Char} (h : l.Fits rest) (position : Position) :
    token? ⟨l.chars ++ rest, position⟩
      = some (l.token position, ⟨rest, position.after l.chars⟩) := by
  cases l with
  | start t => exact token?_tag t false rest position
  | empty t => exact token?_tag t true rest position
  | stop n gap => exact stopTag?_append n gap rest position
  | mark m => exact token?_mark h position

/-- The token read is spelled by the lexeme, which begins and ends where the cursors stand. -/
def Reads (c : Cursor) (l : Lexeme) (t : Token) (d : Cursor) : Prop :=
  t = l.token c.position ∧ c.Passes l.chars d ∧ l.Fits d.rest

private theorem reads_of_stopTag? {c d : Cursor} {t : Token} (h : c.stopTag? = some (t, d)) :
    ∃ n gap, c.Reads (.stop n gap) t d := by
  obtain ⟨c1, h1, h⟩ := Option.bind_eq_some_iff.1 h
  obtain ⟨⟨name, c2⟩, h2, h⟩ := Option.bind_eq_some_iff.1 h
  obtain ⟨c3, h3, h⟩ := Option.bind_eq_some_iff.1 h
  cases h
  obtain ⟨n, rfl, hn, -⟩ := passes_of_tagName? h2
  obtain ⟨gap, hg, -⟩ := c2.passes_skipSpaces
  refine ⟨n, gap, rfl, ?_, nofun⟩
  exact (passes_of_eat? h1).trans (hn.trans (hg.trans (passes_of_eat? h3)))

private theorem reads_of_comment? {c d : Cursor} {t : Token} (h : c.comment? = some (t, d)) :
    ∃ m : Mark, c.Reads (.mark m) t d := by
  obtain ⟨c1, h1, h⟩ := Option.bind_eq_some_iff.1 h
  obtain ⟨⟨body, c2⟩, h2, h⟩ := Option.bind_eq_some_iff.1 h
  obtain ⟨hbody, h⟩ := Option.ite_none_right_eq_some.1 h
  cases h
  exact ⟨.comment ⟨body, hbody⟩, rfl, (passes_of_eat? h1).trans (passes_of_before? h2).1, nofun⟩

private theorem reads_of_cdata? {c d : Cursor} {t : Token} (h : c.cdata? = some (t, d)) :
    ∃ m : Mark, c.Reads (.mark m) t d := by
  obtain ⟨c1, h1, h⟩ := Option.bind_eq_some_iff.1 h
  obtain ⟨⟨body, c2⟩, h2, h⟩ := Option.bind_eq_some_iff.1 h
  obtain ⟨hbody, h⟩ := Option.ite_none_right_eq_some.1 h
  cases h
  obtain ⟨hp, hc⟩ := passes_of_before? h2
  exact ⟨.cdata ⟨body, hbody, hc⟩, rfl, (passes_of_eat? h1).trans hp, nofun⟩

private theorem reads_of_text? {c d : Cursor} {t : Token} (hc : c.rest.head?.any (· != '<') = true)
    (h : c.text? = some (t, d)) : ∃ m : Mark, c.Reads (.mark m) t d := by
  rw [text?] at h
  simp only at h
  obtain ⟨hall, h⟩ := Option.ite_none_right_eq_some.1 h
  rw [Bool.and_eq_true, Bool.not_eq_true'] at hall
  cases h
  have hne : (c.takeWhile (· != '<')).1 ≠ [] := by
    rw [takeWhile]
    cases hr : c.rest with
    | nil =>
      rw [hr] at hc
      cases hc
    | cons x rest =>
      rw [hr] at hc
      have hx : (x != '<') = true := hc
      simp [hx]
  have hopen : '<' ∉ (c.takeWhile (· != '<')).1 := fun hm => by
    have hx := List.mem_takeWhile_imp hm
    cases hx
  exact ⟨.text ⟨_, hne, hopen, hall.1, hall.2⟩, rfl, c.passes_takeWhile _,
    fun _ => Text.ends_dropWhile _ _⟩

private theorem passes_of_name? {c d : Cursor} {name : List Char} (h : c.name? = some (name, d)) :
    (∀ x ∈ name, isNameChar x = true) ∧ name.head?.any isNameStart = true ∧ c.Passes name d ∧
      Text.Ends isNameChar d.rest := by
  rw [name?] at h
  have hall : ∀ x ∈ (c.takeWhile isNameChar).1, isNameChar x = true := fun _ hx =>
    List.mem_takeWhile_imp hx
  have hends : Text.Ends isNameChar (c.takeWhile isNameChar).2.rest :=
    Text.ends_dropWhile isNameChar c.rest
  have hpass := c.passes_takeWhile isNameChar
  generalize c.takeWhile isNameChar = run at *
  obtain ⟨name', e⟩ := run
  simp only at h
  split at h
  · obtain ⟨hfirst, h⟩ := Option.ite_none_right_eq_some.1 h
    cases h
    exact ⟨hall, hfirst, hpass, hends⟩
  · cases h

theorem reads_of_instruction? {c d : Cursor} {t : Token} (h : c.instruction? = some (t, d)) :
    ∃ i, c.Reads (.mark (.instruction i)) t d := by
  rw [instruction?] at h
  split at h
  · cases h
  · next hdeclaration =>
    obtain ⟨c1, h1, h⟩ := Option.bind_eq_some_iff.1 h
    obtain ⟨⟨target, c2⟩, h2, h⟩ := Option.bind_eq_some_iff.1 h
    obtain ⟨⟨body, c3⟩, h3, h⟩ := Option.bind_eq_some_iff.1 h
    obtain ⟨hbody, h⟩ := Option.ite_none_right_eq_some.1 h
    cases h
    have hword : "?>".toList = ['?', '>'] := by simp
    obtain ⟨hall, hfirst, hn, hname⟩ := passes_of_name? h2
    obtain ⟨gap, hg, hspace⟩ := c2.passes_skipSpaces
    obtain ⟨hb, hcloses⟩ := passes_of_before? h3
    rw [hword] at hb hcloses
    have hpass : c.Passes ('<' :: '?' :: (target ++ (gap.1 ++ (body ++ ['?', '>'])))) d :=
      (passes_of_eat? h1).trans (hn.trans (hg.trans hb))
    have hgap := (hg.trans hb).1
    have hend : body ++ ['?', '>'] ≠ [] := by simp
    refine ⟨⟨target, gap, body, ⟨hall, hfirst⟩, ?_, ?_, ?_, hbody, hcloses⟩, rfl,
      hpass, nofun⟩
    · rw [hgap] at hname
      exact hname.of_append (by simp)
    · rintro rfl hhead
      obtain ⟨more, hmore⟩ := List.head?_eq_some_iff.1 hhead
      refine hdeclaration (List.isPrefixOf_iff_prefix.2 ?_)
      have hxml : "<?xml ".toList = ['<', '?', 'x', 'm', 'l', ' '] := by simp
      rw [hxml, hpass.1, hmore]
      exact ⟨_, rfl⟩
    · rw [hb.1] at hspace
      exact hspace.of_append hend

theorem reads_of_token? {c d : Cursor} {t : Token} (h : c.token? = some (t, d)) :
    (∃ position name as, t = .start position name as .missing ∧ d.rest = []) ∨
      ∃ l, c.Reads l t d := by
  rw [token?] at h
  split at h
  · obtain ⟨n, gap, h⟩ := reads_of_stopTag? h
    exact .inr ⟨_, h⟩
  · obtain ⟨m, h⟩ := reads_of_instruction? h
    exact .inr ⟨_, h⟩
  · rcases Option.or_eq_some_iff.1 h with h | ⟨-, h⟩
    · obtain ⟨m, h⟩ := reads_of_comment? h
      exact .inr ⟨_, h⟩
    · obtain ⟨m, h⟩ := reads_of_cdata? h
      exact .inr ⟨_, h⟩
  · refine (passes_of_startTag? h).imp_right ?_
    rintro ⟨s, closed, ht, hp⟩
    cases closed with
    | false => exact ⟨.start s, ht, hp, nofun⟩
    | true => exact ⟨.empty s, ht, hp, nofun⟩
  · cases h
  · next hopen hnil =>
    have hc : c.rest.head?.any (· != '<') = true := by
      cases hr : c.rest with
      | nil => exact absurd hr hnil
      | cons x rest =>
        refine bne_iff_ne.2 fun hx => ?_
        exact hopen rest (hx ▸ hr)
    obtain ⟨m, h⟩ := reads_of_text? hc h
    exact .inr ⟨_, h⟩

end Cursor

end XsdCatalog.Markup
