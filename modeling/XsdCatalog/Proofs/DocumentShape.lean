import XsdCatalog.Proofs.TreeReading

/-!
# The shape of a document

A document without a document type is one element with something around it that opens no element:
runs without `<`, comments and instructions.
-/

namespace XsdCatalog.Markup

/-- A comment, an instruction or an XML declaration. -/
inductive Misc : List Char → Prop
  | comment {body : List Char} : Text.Closes "-->".toList body →
    Misc ("<!--".toList ++ (body ++ "-->".toList))
  | instruction {body : List Char} : body.head? ≠ some '>' → Text.Closes ['?', '>'] body →
    Misc ('<' :: '?' :: (body ++ ['?', '>']))

/-- Characters that open no element. -/
inductive Inert : List Char → Prop
  | plain {cs : List Char} : '<' ∉ cs → Inert cs
  | misc {cs ms ds : List Char} : '<' ∉ cs → Misc ms → Inert ds → Inert (cs ++ (ms ++ ds))

private theorem Inert.plain_append {cs ds : List Char} (h : '<' ∉ cs) (hd : Inert ds) :
    Inert (cs ++ ds) := by
  cases hd with
  | plain hds => exact .plain (List.not_mem_append h hds)
  | misc hes hm hrest =>
    rw [← List.append_assoc]
    exact .misc (List.not_mem_append h hes) hm hrest

private theorem Inert.append {cs ds : List Char} (h : Inert cs) (hd : Inert ds) :
    Inert (cs ++ ds) := by
  induction h with
  | plain hcs => exact hd.plain_append hcs
  | misc hcs hm _ ih =>
    rw [List.append_assoc, List.append_assoc]
    exact .misc hcs hm ih

theorem not_mem_spaces (gap : Spaces) : '<' ∉ gap.1 :=
  fun h => absurd (gap.2 _ h) (by decide)

theorem not_mem_nameChars {cs : List Char} (h : ∀ c ∈ cs, isNameChar c = true) : '<' ∉ cs :=
  fun hm => absurd (h _ hm) (by decide)

namespace Cursor

private theorem misc_of_comment? {c d : Cursor} {t : Token} (h : c.comment? = some (t, d)) :
    ∃ s, c.Passes s d ∧ Misc s := by
  obtain ⟨c1, h1, h⟩ := Option.bind_eq_some_iff.1 h
  obtain ⟨⟨body, c2⟩, h2, h⟩ := Option.bind_eq_some_iff.1 h
  obtain ⟨-, h⟩ := Option.ite_none_right_eq_some.1 h
  cases h
  obtain ⟨hp, hcloses⟩ := passes_of_before? h2
  exact ⟨_, (passes_of_eat? h1).trans hp, .comment hcloses⟩

private theorem misc_instruction (i : Instruction) : Misc (Mark.instruction i).chars := by
  have h : Misc ('<' :: '?' :: (i.whole ++ ['?', '>'])) := .instruction i.head?_whole_ne i.closes_whole
  rw [Instruction.whole, List.append_assoc, List.append_assoc] at h
  exact h

private theorem misc_of_misc? {c d : Cursor} (h : c.misc? = some d) :
    ∃ s, c.Passes s d ∧ Misc s := by
  rw [misc?] at h
  split at h
  · obtain ⟨⟨t, e⟩, ht, rfl⟩ := Option.map_eq_some_iff.1 h
    exact misc_of_comment? ht
  · split at h
    · obtain ⟨⟨t, e⟩, ht, rfl⟩ := Option.map_eq_some_iff.1 h
      obtain ⟨i, -, hp, -⟩ := reads_of_instruction? ht
      exact ⟨_, hp, misc_instruction i⟩
    · cases h

private theorem inert_of_skipMisc? {c d : Cursor} (h : c.skipMisc? = some d) :
    ∃ s, c.Passes s d ∧ Inert s := by
  fun_induction skipMisc? c with
  | case1 c _ e he ih =>
    obtain ⟨gap, hg, -⟩ := c.passes_skipSpaces
    obtain ⟨ms, hm, hmisc⟩ := misc_of_misc? he
    obtain ⟨ds, hd, hinert⟩ := ih h
    exact ⟨_, hg.trans (hm.trans hd), .misc (not_mem_spaces gap) hmisc hinert⟩
  | case2 => cases h
  | case3 c =>
    cases h
    obtain ⟨gap, hg, -⟩ := c.passes_skipSpaces
    exact ⟨_, hg, .plain (not_mem_spaces gap)⟩

/-- The second cursor is the first one behind characters none of which is `<`. -/
def PassesPlain (c d : Cursor) : Prop :=
  ∃ s, c.Passes s d ∧ '<' ∉ s

private theorem PassesPlain.trans {c d e : Cursor} (hc : c.PassesPlain d) (hd : d.PassesPlain e) :
    c.PassesPlain e := by
  obtain ⟨s, hs, hms⟩ := hc
  obtain ⟨t, ht, hmt⟩ := hd
  exact ⟨s ++ t, hs.trans ht, List.not_mem_append hms hmt⟩

private theorem plain_skipSpaces (c : Cursor) : c.PassesPlain c.skipSpaces := by
  obtain ⟨gap, hg, -⟩ := c.passes_skipSpaces
  exact ⟨gap.1, hg, not_mem_spaces gap⟩

private theorem plain_of_attribute? {c d : Cursor} {a : RawAttribute}
    (h : c.attribute? = some (a, d)) : c.PassesPlain d := by
  obtain ⟨n, left, right, q, -, hq, hv, hp⟩ := passes_of_attribute? h
  refine ⟨_, hp, ?_⟩
  have hquote : '<' ≠ q := by
    rcases hq with rfl | rfl <;> decide
  have hvalue : '<' ∉ a.value := fun hm => (hv _ hm).2.2 rfl
  simp [not_mem_nameChars n.isName, not_mem_spaces, hquote, hvalue]

private theorem plain_of_declarationPart? {c d : Cursor} {word : String}
    (h : c.declarationPart? word = some d) : c.PassesPlain d := by
  obtain ⟨-, h⟩ := Option.ite_none_right_eq_some.1 h
  obtain ⟨⟨a, e⟩, ha, rfl⟩ := Option.map_eq_some_iff.1 h
  exact plain_of_attribute? ha

private theorem plain_of_declarationGap? {c d : Cursor} (h : c.declarationGap? = some d) :
    c.PassesPlain d := by
  rw [declarationGap?] at h
  split at h
  · cases h
    exact c.plain_skipSpaces
  · obtain ⟨-, h⟩ := Option.ite_none_right_eq_some.1 h
    cases h
    exact ⟨[], Passes.refl c, List.not_mem_nil⟩

private theorem plain_of_declaration? {c d : Cursor} (h : c.declaration? = some d) :
    ∃ e f, c.Passes "<?xml".toList e ∧ e.PassesPlain f ∧ f.Passes "?>".toList d := by
  have hclose {c d e : Cursor} (hc : e.PassesPlain c)
      (h : c.skipSpaces.eat? "?>".toList = some d) :
      ∃ f, e.PassesPlain f ∧ f.Passes "?>".toList d :=
    ⟨c.skipSpaces, hc.trans c.plain_skipSpaces, passes_of_eat? h⟩
  obtain ⟨c1, h1, h⟩ := Option.bind_eq_some_iff.1 h
  obtain ⟨c2, h2, h⟩ := Option.bind_eq_some_iff.1 h
  obtain ⟨c3, h3, h⟩ := Option.bind_eq_some_iff.1 h
  obtain ⟨c4, h4, h⟩ := Option.bind_eq_some_iff.1 h
  have hplain : c1.PassesPlain c4 :=
    ((plain_of_declarationGap? h2).trans (plain_of_declarationPart? h3)).trans
      (plain_of_declarationGap? h4)
  have htail {c : Cursor} (hc : c1.PassesPlain c)
      (h : (if c.startsWith "standalone".toList then
          (c.declarationPart? "standalone").bind fun c => c.skipSpaces.eat? "?>".toList
        else c.skipSpaces.eat? "?>".toList) = some d) :
      ∃ f, c1.PassesPlain f ∧ f.Passes "?>".toList d := by
    split at h
    · obtain ⟨e, he, h⟩ := Option.bind_eq_some_iff.1 h
      exact hclose (hc.trans (plain_of_declarationPart? he)) h
    · exact hclose hc h
  suffices hfinal : ∃ f, c1.PassesPlain f ∧ f.Passes "?>".toList d by
    obtain ⟨f, hf, hend⟩ := hfinal
    exact ⟨c1, f, passes_of_eat? h1, hf, hend⟩
  dsimp only at h
  by_cases hword : c4.startsWith "encoding".toList = true
  · rw [if_pos hword] at h
    obtain ⟨c5, h5, h⟩ := Option.bind_eq_some_iff.1 h
    obtain ⟨c6, h6, h⟩ := Option.bind_eq_some_iff.1 h
    exact htail (hplain.trans ((plain_of_declarationPart? h5).trans
      (plain_of_declarationGap? h6))) h
  · rw [if_neg hword] at h
    exact htail hplain h

private theorem inert_of_declaration? {c d : Cursor} (h : c.declaration? = some d) :
    ∃ s, c.Passes s d ∧ Inert s := by
  obtain ⟨e, f, hopen, ⟨s, hs, hplain⟩, hclose⟩ := plain_of_declaration? h
  have hopened : "<?xml".toList = ['<', '?', 'x', 'm', 'l'] := by simp
  have hclosed : "?>".toList = ['?', '>'] := by simp
  rw [hopened] at hopen
  rw [hclosed] at hclose
  obtain ⟨body, rest, hbody, hcloses⟩ : ∃ body rest,
      'x' :: 'm' :: 'l' :: (s ++ ['?', '>']) = body ++ (['?', '>'] ++ rest) ∧
        Text.Closes ['?', '>'] body :=
    Text.exists_closes ⟨'x' :: 'm' :: 'l' :: s, [], by simp⟩
  have hhead : body.head? ≠ some '>' := by
    cases body with
    | nil => exact nofun
    | cons x body =>
      injection hbody with hx _
      rw [← hx]
      exact nofun
  have hrest : '<' ∉ rest := by
    intro hm
    have hall : '<' ∈ 'x' :: 'm' :: 'l' :: (s ++ ['?', '>']) := by
      rw [hbody]
      simp [hm]
    simp [hplain] at hall
  refine ⟨_, hopen.trans (hs.trans hclose), ?_⟩
  have hinert : Inert ([] ++ ('<' :: '?' :: (body ++ ['?', '>']) ++ rest)) :=
    .misc List.not_mem_nil (.instruction hhead hcloses) (.plain hrest)
  have hchars : ['<', '?', 'x', 'm', 'l'] ++ (s ++ ['?', '>'])
      = [] ++ ('<' :: '?' :: (body ++ ['?', '>']) ++ rest) := by
    show '<' :: '?' :: 'x' :: 'm' :: 'l' :: (s ++ ['?', '>']) = _
    rw [hbody]
    simp
  rw [hchars]
  exact hinert

/-- The cursor where a document type may stand. -/
def beforeDoctype? (c : Cursor) : Option Cursor := do
  let c := (c.eat? ['\ufeff']).getD c
  let c ← if c.startsWith "<?xml ".toList then c.declaration? else some c
  c.skipMisc?

private theorem prolog?_eq (c : Cursor) :
    c.prolog? = c.beforeDoctype?.bind fun c =>
      if c.startsWith "<!DOCTYPE".toList then do
        let (entities, c) ← c.doctype?
        return (entities, ← c.skipMisc?)
      else some ([], c) := by
  rw [prolog?, beforeDoctype?]
  simp only [Option.bind_eq_bind]
  split
  · rw [Option.bind_assoc]
  · rfl

private theorem inert_of_beforeDoctype? {c d : Cursor} (h : c.beforeDoctype? = some d) :
    ∃ s, c.Passes s d ∧ Inert s := by
  have hmark : ∃ s, c.Passes s ((c.eat? ['\ufeff']).getD c) ∧ '<' ∉ s := by
    cases he : c.eat? ['\ufeff'] with
    | none => exact ⟨[], Passes.refl c, List.not_mem_nil⟩
    | some e => exact ⟨_, passes_of_eat? he, by decide⟩
  obtain ⟨mark, hm, hplain⟩ := hmark
  rw [beforeDoctype?] at h
  dsimp only at h
  split at h
  · obtain ⟨e, he, h⟩ := Option.bind_eq_some_iff.1 h
    obtain ⟨s, hs, hinert⟩ := inert_of_declaration? he
    obtain ⟨rest, hr, hrest⟩ := inert_of_skipMisc? h
    exact ⟨_, hm.trans (hs.trans hr), (hinert.append hrest).plain_append hplain⟩
  · obtain ⟨rest, hr, hrest⟩ := inert_of_skipMisc? h
    exact ⟨_, hm.trans hr, hrest.plain_append hplain⟩

/-- Tokens that say exactly one element are the lexemes of an element. -/
theorem element_of_element? {c d : Cursor} {ts : List Token} {b : Builder}
    (h : c.element? = some (ts, d)) (hb : Builder.interpret {} ts = some b)
    (hopened : b.opened = []) (hnodes : b.nodes ≠ []) :
    ∃ e : Element, ts = Lexeme.tokens c.position e.lexemes ∧ c.Passes e.chars d ∧
      Lexeme.Apart e.lexemes := by
  obtain ⟨⟨t, e⟩, ht, h⟩ := Option.bind_eq_some_iff.1 h
  rcases passes_of_startTag? ht with ⟨position, name, as, rfl, -⟩ | ⟨s, closed, rfl, hs⟩
  · exfalso
    cases h
    rw [Builder.interpret_cons] at hb
    obtain ⟨es, he, hb⟩ := Option.bind_eq_some_iff.1 hb
    obtain ⟨as', -, rfl⟩ := Option.map_eq_some_iff.1 he
    obtain ⟨b', hrun, hb⟩ := Option.bind_eq_some_iff.1 hb
    cases hb
    obtain ⟨b'', hstep, hrun⟩ := Option.bind_eq_some_iff.1 hrun
    cases hrun
    rw [Builder.step] at hstep
    split at hstep
    · cases hstep
    · cases hstep
      exact hnodes rfl
  · cases closed with
    | true =>
      cases h
      refine ⟨.empty s, rfl, ?_, List.isChain_singleton _⟩
      have hchars : (Element.empty s).chars = s.chars true := List.append_nil _
      rw [hchars]
      exact hs
    | false =>
      have h : contentFrom [s.token false c.position] 0 e = some (ts, d) := h
      rcases levels_of_contentFrom h with ⟨read, n, rfl, hn⟩ | ⟨levels, hlevels, rfl, hp, hapart⟩
      · exfalso
        have hb : Builder.interpret {} (s.token false c.position :: read) = some b := hb
        rw [Builder.interpret_start rfl] at hb
        obtain ⟨tag, -, hb⟩ := Option.bind_eq_some_iff.1 hb
        have hlength : b.opened.length = 1 + n := Builder.length_interpret hb hn rfl
        rw [hopened, List.length_nil] at hlength
        omega
      · obtain ⟨level, rfl⟩ := List.length_eq_one_iff.1 hlevels
        have hlexemes : (Element.full s level.content level.name level.gap).lexemes
            = .start s :: [level].flatMap (·.lexemes) := by
          simp [Element.lexemes, Element.followed, Content.lexemes, Level.lexemes]
        refine ⟨.full s level.content level.name level.gap, ?_, ?_, ?_⟩
        · rw [hlexemes, Lexeme.tokens, hs.2]
          rfl
        · rw [Element.chars, hlexemes]
          exact hs.trans hp
        · rw [hlexemes]
          exact @Lexeme.apart_cons _ _ [] (Lexeme.fits_of_not_text rfl _) hapart

end Cursor

/-- A document type stands in the document. -/
def Document.hasDoctype (text : String) : Bool :=
  (Cursor.beforeDoctype? ⟨text.toList, .start⟩).any (·.startsWith "<!DOCTYPE".toList)

/-- A document as it is spelled. -/
structure Document.Spelling (text : String) (doc : Document) where
  before : List Char
  root : Element
  after : List Char
  inert : Inert before
  apart : Lexeme.Apart root.lexemes
  chars : text.toList = before ++ (root.chars ++ after)
  tree : root.read? [] (Position.start.after before) = some (doc.root, doc.children)

private theorem rootOf?_eq_some {nodes : List Node} {doc : Document}
    (h : rootOf? nodes = some doc) : nodes ≠ [] := by
  rintro rfl
  cases h

private theorem ofEvents?_eq (ts : List Token) :
    (Token.eventsAll? ts).bind Node.ofEvents?
      = (Builder.interpret {} ts).bind fun b =>
          if b.opened.isEmpty then some b.nodes.reverse else none := by
  rw [Builder.interpret, Option.bind_assoc]
  rfl

/-- A document without a document type is an inert text, one element, and something behind it. -/
theorem Document.spelling_of_read? {text : String} {doc : Document}
    (h : Document.read? text = some doc) (hd : Document.hasDoctype text = false) :
    Nonempty (Document.Spelling text doc) := by
  obtain ⟨⟨entities, c⟩, hc, h⟩ := Option.bind_eq_some_iff.1 h
  obtain ⟨⟨ts, d⟩, ht, h⟩ := Option.bind_eq_some_iff.1 h
  obtain ⟨e, he, h⟩ := Option.bind_eq_some_iff.1 h
  obtain ⟨-, h⟩ := Option.ite_none_right_eq_some.1 h
  obtain ⟨⟨es, count⟩, hes, h⟩ := Option.bind_eq_some_iff.1 h
  obtain ⟨nodes, hnodes, hroot⟩ := Option.bind_eq_some_iff.1 h
  rw [Cursor.prolog?_eq] at hc
  obtain ⟨p, hp, hc⟩ := Option.bind_eq_some_iff.1 hc
  rw [Document.hasDoctype, hp] at hd
  have hd : ¬ p.startsWith "<!DOCTYPE".toList = true := Bool.eq_false_iff.1 hd
  rw [if_neg hd] at hc
  cases hc
  obtain ⟨before, hbefore, hinert⟩ := Cursor.inert_of_beforeDoctype? hp
  rw [expand_eq] at hes
  obtain ⟨events, hevents, hcount⟩ := Option.map_eq_some_iff.1 hes
  cases hcount
  have hall := ofEvents?_eq ts
  rw [hevents, Option.bind_some, hnodes] at hall
  obtain ⟨b, hb, hclosed⟩ := Option.bind_eq_some_iff.1 hall.symm
  obtain ⟨hopened, hreverse⟩ := Option.ite_none_right_eq_some.1 hclosed
  have hreverse : b.nodes.reverse = nodes := Option.some.inj hreverse
  have hsome : b.nodes ≠ [] := by
    rw [ne_eq, ← List.reverse_eq_nil_iff, hreverse]
    exact rootOf?_eq_some hroot
  obtain ⟨root, hts, hpass, hapart⟩ :=
    Cursor.element_of_element? ht hb (List.isEmpty_iff.1 hopened) hsome
  rw [hts, Element.interpret_lexemes] at hb
  obtain ⟨⟨tag, children⟩, hread, hb⟩ := Option.map_eq_some_iff.1 hb
  cases hb
  subst hreverse
  cases hroot
  have hposition : c.position = Position.start.after before := hbefore.2
  exact ⟨⟨before, root, d.rest, hinert, hapart, by rw [← hpass.1]; exact hbefore.1,
    hposition ▸ hread⟩⟩

theorem Element.exists_chars (e : Element) :
    ∃ x cs, e.chars = '<' :: x :: cs ∧ isNameChar x = true := by
  have hfirst (t : StartTag) (closed : Bool) (rest : List Char) :
      ∃ x cs, t.chars closed ++ rest = '<' :: x :: cs ∧ isNameChar x = true := by
    obtain ⟨x, name, hx, hname⟩ := t.name.exists_cons
    refine ⟨x, name ++ (t.attributes.flatMap (·.chars) ++ t.gap.1)
      ++ StartTag.lastMark closed ++ rest, ?_, hname⟩
    rw [StartTag.chars, StartTag.body, hx]
    rfl
  cases e with
  | empty t => exact hfirst t true []
  | full t inner n gap => exact hfirst t false _

namespace Cursor

private theorem startsWith_cons_of_ne {y z : Char} (h : y ≠ z) (x : Char) (cs word : List Char)
    (position : Position) :
    startsWith ⟨x :: y :: cs, position⟩ (x :: z :: word) = false := by
  rw [startsWith, Bool.eq_false_iff]
  intro hp
  have hp := (List.cons_prefix_cons.1 (List.isPrefixOf_iff_prefix.1 hp)).2
  exact h (List.cons_prefix_cons.1 hp).1.symm

/-- Where an element begins there is no prolog. -/
theorem prolog?_element (e : Element) (rest : List Char) :
    prolog? ⟨e.chars ++ rest, .start⟩ = some ([], ⟨e.chars ++ rest, .start⟩) := by
  obtain ⟨x, cs, hchars, hname⟩ := e.exists_chars
  have hne (y : Char) (hy : isNameChar y = false) : x ≠ y := fun h => by simp [h, hy] at hname
  have hquestion : x ≠ '?' := hne '?' (by decide)
  have hbang : x ≠ '!' := hne '!' (by decide)
  have hxml : "<?xml ".toList = ['<', '?', 'x', 'm', 'l', ' '] := by simp
  have hcomment : "<!--".toList = ['<', '!', '-', '-'] := by simp
  have hinstruction : "<?".toList = ['<', '?'] := by simp
  have hdoctype : "<!DOCTYPE".toList = ['<', '!', 'D', 'O', 'C', 'T', 'Y', 'P', 'E'] := by simp
  have hmark : eat? ⟨'<' :: x :: (cs ++ rest), .start⟩ ['\ufeff'] = none :=
    eat?_of_ne (by decide) _ _ _
  have hspaces : skipSpaces ⟨'<' :: x :: (cs ++ rest), .start⟩
      = ⟨'<' :: x :: (cs ++ rest), .start⟩ := rfl
  have hmisc : atMisc ⟨'<' :: x :: (cs ++ rest), .start⟩ = false := by
    rw [atMisc, hcomment, hinstruction, startsWith_cons_of_ne hbang,
      startsWith_cons_of_ne hquestion]
    rfl
  have hskip : skipMisc? ⟨'<' :: x :: (cs ++ rest), .start⟩
      = some ⟨'<' :: x :: (cs ++ rest), .start⟩ := by
    rw [skipMisc?, hspaces, hmisc]
    rfl
  rw [prolog?_eq, beforeDoctype?, hchars]
  simp only [List.cons_append, hmark, Option.getD_none, hxml,
    startsWith_cons_of_ne hquestion, Bool.false_eq_true, if_false, hskip, hdoctype,
    startsWith_cons_of_ne hbang, Option.bind_eq_bind, Option.bind_some]

private theorem element?_append {e : Element} (hapart : Lexeme.Apart e.lexemes) (rest : List Char)
    (position : Position) :
    element? ⟨e.chars ++ rest, position⟩
      = some (Lexeme.tokens position e.lexemes, ⟨rest, position.after e.chars⟩) := by
  cases e with
  | empty t =>
    have hchars : (Element.empty t).chars = t.chars true := List.append_nil _
    rw [hchars, element?, startTag?_append]
    rfl
  | full t inner name gap =>
    have hchars : (Element.full t inner name gap).chars ++ rest
        = t.chars false ++ (Lexeme.spell inner.lexemes
          ++ ((Lexeme.stop name gap).chars ++ rest)) := by
      simp [Element.chars, Element.lexemes, Element.followed, Content.lexemes,
        Lexeme.spell_cons, Lexeme.spell_append, Lexeme.spell_nil, Lexeme.chars]
    have hinner : Lexeme.Apart inner.lexemes := hapart.tail.left_of_append
    have hclosed (p : Position) : ((Lexeme.stop name gap).token p).depth? 0 = none := rfl
    rw [hchars, element?, startTag?_append]
    show contentFrom [t.token false position] 0 _ = _
    have hends : Text.Ends (· != '<') ((Lexeme.stop name gap).chars ++ rest) := rfl
    have hstop : (Lexeme.stop name gap).Fits rest := Lexeme.fits_of_not_text rfl _
    rw [contentFrom_content inner hinner hends, contentFrom_cons hstop]
    simp only [hclosed]
    simp [Element.chars, Element.lexemes, Element.followed, Content.lexemes, Lexeme.tokens,
      Lexeme.tokens_append, Lexeme.spell_cons, Lexeme.spell_append, Lexeme.spell_nil,
      Lexeme.token, Lexeme.chars]

end Cursor

/-- An element alone is a document. -/
theorem Document.read?_element {e : Element} (hapart : Lexeme.Apart e.lexemes) :
    Document.read? (String.ofList e.chars)
      = (e.read? [] .start).map fun (tag, children) => ⟨tag, children⟩ := by
  have hprolog := Cursor.prolog?_element e []
  have helement := Cursor.element?_append hapart [] .start
  rw [List.append_nil] at hprolog helement
  have hmisc (p : Position) : Cursor.skipMisc? ⟨[], p⟩ = some ⟨[], p⟩ := by
    have hatMisc : Cursor.atMisc (Cursor.skipSpaces ⟨[], p⟩) = false := rfl
    rw [Cursor.skipMisc?, hatMisc]
    rfl
  rw [Document.read?, String.toList_ofList, hprolog]
  simp only [Option.bind_eq_bind, Option.bind_some, helement, hmisc, List.isEmpty_nil, if_true,
    expand_eq]
  have hnodes := ofEvents?_eq (Lexeme.tokens .start e.lexemes)
  rw [Element.interpret_lexemes] at hnodes
  cases hall : Token.eventsAll? (Lexeme.tokens .start e.lexemes) with
  | none =>
    rw [hall] at hnodes
    cases hread : e.read? [] .start with
    | none => rfl
    | some p =>
      rw [hread] at hnodes
      cases hnodes
  | some events =>
    rw [hall, Option.bind_some] at hnodes
    simp only [Option.map_some, Option.bind_some, hnodes]
    cases e.read? [] .start with
    | none => rfl
    | some p => rfl

end XsdCatalog.Markup
