import XsdCatalog.Fragment.Extract
import XsdCatalog.Proofs.Scanning

/-!
# Looking for an element

Pieces are met at the places where their lexemes stand. The search passes over the lexemes in front
of an element, keeping the open tags, and takes the pieces of the element as they are.
-/

namespace XsdCatalog

open Text (encode)
open Fragment (Event Tracker Declaration)

namespace Markup.Lexeme

/-- The tags that are open behind lexemes, innermost first. -/
def opened (stack : List StartTag) : List Lexeme → List StartTag
  | [] => stack
  | start t :: ls => opened (t :: stack) ls
  | stop _ _ :: ls => opened stack.tail ls
  | empty _ :: ls => opened stack ls
  | mark _ :: ls => opened stack ls

/-- The name in a tag. -/
def tagName? : Lexeme → Option SpelledName
  | start t => some t.name
  | empty t => some t.name
  | stop name _ => some name
  | mark _ => none

/-- The name of each end tag is related to the name of the start tag that it closes. -/
def Paired (r : SpelledName → SpelledName → Prop) (stack : List StartTag) : List Lexeme → Prop
  | [] => True
  | start t :: ls => Paired r (t :: stack) ls
  | stop name _ :: ls => (∃ t ∈ stack.head?, r t.name name) ∧ Paired r stack.tail ls
  | empty _ :: ls => Paired r stack ls
  | mark _ :: ls => Paired r stack ls

/-- Each end tag is spelled like the start tag that it closes. -/
def Alike (stack : List StartTag) (ls : List Lexeme) : Prop :=
  Paired (fun n m => n.chars = m.chars) stack ls

theorem opened_append (stack : List StartTag) (ls ks : List Lexeme) :
    opened stack (ls ++ ks) = opened (opened stack ls) ks := by
  induction ls generalizing stack with
  | nil => rfl
  | cons l ls ih => cases l <;> exact ih _

theorem paired_append {r : SpelledName → SpelledName → Prop} {stack : List StartTag}
    {ls ks : List Lexeme} :
    Paired r stack (ls ++ ks) ↔ Paired r stack ls ∧ Paired r (opened stack ls) ks := by
  induction ls generalizing stack with
  | nil => exact ⟨fun h => ⟨trivial, h⟩, fun h => h.2⟩
  | cons l ls ih =>
    cases l with
    | stop name gap =>
      show (_ ∧ Paired r stack.tail (ls ++ ks))
        ↔ (_ ∧ Paired r stack.tail ls) ∧ Paired r (opened stack.tail ls) ks
      rw [ih, and_assoc]
    | _ => exact ih

/-- Where no name begins with a colon, a name has one spelling. -/
theorem Paired.alike {stack : List StartTag} {ls : List Lexeme}
    (h : Paired (fun n m => n.name = m.name) stack ls)
    (hstack : ∀ t ∈ stack, t.name.chars.head? ≠ some ':')
    (hls : ∀ l ∈ ls, ∀ n ∈ l.tagName?, n.chars.head? ≠ some ':') : Alike stack ls := by
  have hspelled (n : SpelledName) (hn : n.chars.head? ≠ some ':') : n.chars = n.name.chars := by
    refine n.chars_eq.resolve_right fun hcolon => hn ?_
    rw [hcolon.1]
    rfl
  induction ls generalizing stack with
  | nil => trivial
  | cons l ls ih =>
    have hbehind : ∀ l ∈ ls, ∀ n ∈ l.tagName?, n.chars.head? ≠ some ':' := fun l hl =>
      hls l (List.mem_cons_of_mem _ hl)
    have hname := hls l List.mem_cons_self
    cases l with
    | start t =>
      refine @ih (t :: stack) h (fun s hs => ?_) hbehind
      rcases List.mem_cons.1 hs with rfl | hs
      · exact hname _ rfl
      · exact hstack s hs
    | stop name gap =>
      obtain ⟨⟨t, ht, hpaired⟩, h⟩ := h
      refine ⟨⟨t, ht, ?_⟩, ih h (fun s hs => hstack s (List.mem_of_mem_tail hs)) hbehind⟩
      have hstart := hspelled t.name (hstack t (List.mem_of_mem_head? ht))
      have hpaired : t.name.name = name.name := hpaired
      show t.name.chars = name.chars
      rw [hstart, hspelled name (hname _ rfl), hpaired]
    | empty t => exact ih h hstack hbehind
    | mark m => exact ih h hstack hbehind

end Markup.Lexeme

namespace Markup

/-- Content leaves open what was open. -/
theorem Content.opened_lexemes (k : Content) (stack : List StartTag) :
    Lexeme.opened stack k.lexemes = stack := by
  induction k generalizing stack with
  | nil => rfl
  | mark m k ih => exact ih stack
  | empty t k ih => exact ih stack
  | element t inner name gap k ihInner ihRest =>
    show Lexeme.opened (t :: stack) (inner.lexemes ++ .stop name gap :: k.lexemes) = stack
    rw [Lexeme.opened_append, ihInner]
    exact ihRest stack

/-- In content that was read, end tags name what they close. -/
theorem Content.paired_of_read? {k : Content} {outer : List Binding} {position : Position}
    {nodes nodes' : List Node} (h : k.read? outer position nodes = some nodes')
    (stack : List StartTag) : Lexeme.Paired (fun n m => n.name = m.name) stack k.lexemes := by
  induction k generalizing outer position nodes nodes' stack with
  | nil => trivial
  | mark m k ih =>
    obtain ⟨node, -, h⟩ := Option.bind_eq_some_iff.1 h
    exact ih h stack
  | empty t k ih =>
    obtain ⟨tag, -, h⟩ := Option.bind_eq_some_iff.1 h
    exact ih h stack
  | element t inner name gap k ihInner ihRest =>
    obtain ⟨tag, -, h⟩ := Option.bind_eq_some_iff.1 h
    obtain ⟨children, hchildren, h⟩ := Option.bind_eq_some_iff.1 h
    obtain ⟨hname, h⟩ := Option.ite_none_right_eq_some.1 h
    refine Lexeme.paired_append.2 ⟨ihInner hchildren (t :: stack), ?_⟩
    rw [inner.opened_lexemes]
    exact ⟨⟨t, rfl, hname.symm⟩, ihRest h stack⟩

theorem Element.paired_of_read? {e : Element} {outer : List Binding} {position : Position}
    {x : Tag × List Node} (h : e.read? outer position = some x) (stack : List StartTag) :
    Lexeme.Paired (fun n m => n.name = m.name) stack e.lexemes := by
  have hcontent : (e.followed .nil).read? outer position [] = some [.element x.1 x.2] := by
    rw [e.read?_followed, h]
    rfl
  exact Content.paired_of_read? hcontent stack

end Markup

private theorem Markup.not_mem_body (t : Markup.StartTag) : '<' ∉ t.body := by
  have hattribute (a : Markup.SpelledAttribute) : '<' ∉ a.chars := by
    have hquote : '<' ≠ a.quote := by
      rcases a.isQuote with h | h <;> rw [h] <;> decide
    have hvalue : '<' ∉ a.value := fun hm => (a.isValue _ hm).2.2 rfl
    simp [Markup.SpelledAttribute.chars, Markup.SpelledAttribute.quoted, Markup.not_mem_spaces,
      Markup.not_mem_nameChars a.name.isName, hquote, hvalue]
  refine List.not_mem_append (Markup.not_mem_nameChars t.name.isName)
    (List.not_mem_append ?_ (Markup.not_mem_spaces t.gap))
  intro hm
  obtain ⟨a, -, ha⟩ := List.mem_flatMap.1 hm
  exact hattribute a ha

namespace Fragment

namespace Tracker

theorem consume_of_started {t : Tracker} (h : t.atStart = false) (bytes : Bytes) :
    t.consume bytes = bytes.foldl step t := by
  rw [consume, h]
  rfl

variable {t : Tracker}

theorem atStart_foldl_step (bytes : Bytes) (t : Tracker) :
    (bytes.foldl step t).atStart = t.atStart := by
  induction bytes generalizing t with
  | nil => rfl
  | cons b bytes ih =>
    rw [List.foldl_cons, ih, step]
    split
    · rfl
    · split
      · rfl
      · split <;> rfl

theorem atStart_consume (h : t.atStart = false) (bytes : Bytes) :
    (t.consume bytes).atStart = false := by
  rw [consume_of_started h, atStart_foldl_step, h]

private theorem position_consume_piece (h : t.atStart = false) (l : Markup.Lexeme) :
    (t.consume l.piece.source).position = t.position.after l.chars := by
  rw [consume_of_started h, l.source_piece]
  exact (foldl_step_encode l.chars t).1

/-- A tag is met at its own place. -/
theorem lastTag_consume_tag (h : t.atStart = false) (s : Markup.StartTag) (closed : Bool) :
    (t.consume (encode (s.chars closed))).lastTag = t.position := by
  have hmem : '<' ∉ s.body ++ Markup.StartTag.lastMark closed := by
    refine List.not_mem_append (Markup.not_mem_body s) ?_
    cases closed <;> decide
  have hstep (b : UInt8) (hb : b = 0x3C) : (t.step b).lastTag = t.position := by
    rw [hb]
    rfl
  rw [consume_of_started h, Markup.StartTag.chars, Text.encode_cons_of_lt (by decide),
    List.foldl_cons, lastTag_foldl_step _ hmem]
  exact hstep _ (by decide)

end Tracker

/-- The events of pieces while names match. -/
def tracked (t : Tracker) : List Piece → List Event
  | [] => []
  | p :: ps => ⟨p, (t.consume p.source).lastTag⟩ :: tracked (t.consume p.source) ps

/-- The tracker behind pieces. -/
def Tracker.behind (t : Tracker) (ps : List Piece) : Tracker :=
  ps.foldl (fun t p => t.consume p.source) t

theorem tracked_append (t : Tracker) (ps qs : List Piece) :
    tracked t (ps ++ qs) = tracked t ps ++ tracked (t.behind ps) qs := by
  induction ps generalizing t with
  | nil => rfl
  | cons p ps ih => exact congrArg (_ :: ·) (ih _)

private theorem behind_eq {t : Tracker} (h : t.atStart = false) (ps : List Piece) :
    t.behind ps = (ps.flatMap (·.source)).foldl Tracker.step t := by
  induction ps generalizing t with
  | nil => rfl
  | cons p ps ih =>
    have hrest := ih (Tracker.atStart_consume h p.source)
    rw [List.flatMap_cons, List.foldl_append, ← Tracker.consume_of_started h]
    exact hrest

/-- Behind pieces the tracker stands behind their characters. -/
theorem behind_of_source {t : Tracker} (h : t.atStart = false) {ps : List Piece} {cs : List Char}
    (hps : ps.flatMap (·.source) = encode cs) :
    (t.behind ps).position = t.position.after cs ∧ (t.behind ps).atStart = false := by
  rw [behind_eq h, hps]
  have hfold := Tracker.foldl_step_encode cs t
  exact ⟨hfold.1, hfold.2.trans h⟩

theorem source_pieces (ls : List Markup.Lexeme) :
    (ls.map (·.piece)).flatMap (·.source) = encode (Markup.Lexeme.spell ls) := by
  rw [Markup.Lexeme.spell, List.flatMap_map, Text.encode_flatMap]
  exact List.flatMap_congr fun l _ => l.source_piece

/-- The name that the end tag of a start tag has to repeat. -/
def nameOf (t : Markup.StartTag) : Bytes :=
  encode t.name.chars

/-- The declarations of a start tag. -/
def scopeOf (t : Markup.StartTag) : List Declaration :=
  Declaration.ofTag (encode t.body)

theorem not_isSpace_of_isNameChar {x : Char} (h : Markup.isNameChar x = true) :
    Markup.isSpace x = false := by
  rw [Bool.eq_false_iff]
  intro hspace
  rw [Markup.Cursor.isNameChar_of_isSpace hspace] at h
  cases h

/-- The name of a tag ends where its attributes or the spaces behind it begin. -/
theorem span_body (t : Markup.StartTag) :
    t.body.takeWhile (!Markup.isSpace ·) = t.name.chars ∧
      t.body.dropWhile (!Markup.isSpace ·) = t.attributes.flatMap (·.chars) ++ t.gap.1 := by
  have hname : ∀ x ∈ t.name.chars, (!Markup.isSpace x) = true := fun x hx => by
    rw [not_isSpace_of_isNameChar (t.name.isName x hx)]
    rfl
  have hends : Text.Ends (!Markup.isSpace ·) (t.attributes.flatMap (·.chars) ++ t.gap.1) := by
    have hspaces (gap : Markup.Spaces) (rest : List Char) (h : gap.1 ≠ []) :
        Text.Ends (!Markup.isSpace ·) (gap.1 ++ rest) := by
      obtain ⟨x, gap', hx⟩ := List.exists_cons_of_ne_nil h
      have hspace : Markup.isSpace x = true := gap.2 x (hx ▸ List.mem_cons_self)
      rw [hx]
      show (!Markup.isSpace x) = false
      rw [hspace]
      rfl
    cases t.attributes with
    | nil =>
      by_cases hgap : t.gap.1 = []
      · rw [hgap]
        rfl
      · have h := hspaces t.gap [] hgap
        rwa [List.append_nil] at h
    | cons a as =>
      rw [List.flatMap_cons, Markup.SpelledAttribute.chars, List.append_assoc, List.append_assoc]
      exact hspaces a.gap _ a.gapped
  exact ⟨Text.takeWhile_append hname hends, Text.dropWhile_append hname hends⟩

private theorem tagName_body (t : Markup.StartTag) : Piece.tagName (encode t.body) = nameOf t := by
  rw [Piece.tagName, (Text.mirrors_isSpace.not.span t.body).1, (span_body t).1]
  rfl

theorem stopName_encode (n : Markup.SpelledName) (gap : Markup.Spaces) :
    Piece.stopName (encode (n.chars ++ gap.1)) = encode n.chars := by
  have hname : ∀ b ∈ encode n.chars, isSpace b = false :=
    Text.mirrors_isSpace.forall_mem fun x hx => not_isSpace_of_isNameChar (n.isName x hx)
  have hgap : ∀ b ∈ encode gap.1, isSpace b = true := Text.mirrors_isSpace.forall_mem gap.2
  obtain ⟨x, tail, hx, -⟩ := n.exists_cons
  obtain ⟨b, bytes, hb, -⟩ := Text.exists_encode_cons x tail
  rw [← hx] at hb
  have hfirst : isSpace b = false := hname b (hb ▸ List.mem_cons_self)
  have hall : ¬ (encode (n.chars ++ gap.1)).all isSpace = true := by
    rw [Text.encode_append, hb, List.cons_append, List.all_cons, hfirst]
    exact Bool.false_ne_true
  rw [Piece.stopName, if_neg hall, Text.encode_append, List.reverse_append,
    Text.dropWhile_append (fun b hb => hgap b (List.mem_reverse.1 hb))
      (Text.ends_of_forall fun b hb => hname b (List.mem_reverse.1 hb)), List.reverse_reverse]

/-- The names of the open elements behind a piece; none where names do not match. -/
def Piece.names? (names : List Bytes) : Piece → Option (List Bytes)
  | start body => some (tagName body :: names)
  | stop body =>
    match names with
    | name :: outer => if stopName body = name then some outer else none
    | [] => none
  | _ => some names

theorem events_cons {p : Piece} {names names' : List Bytes} (h : p.names? names = some names')
    (t : Tracker) (ending : Ending) (rest : List Piece) :
    events t names ending (p :: rest)
      = (⟨p, (t.consume p.source).lastTag⟩
          :: (events (t.consume p.source) names' ending rest).1,
        (events (t.consume p.source) names' ending rest).2) := by
  cases p with
  | stop body =>
    cases names with
    | nil => cases h
    | cons name outer =>
      obtain ⟨hname, h⟩ := Option.ite_none_right_eq_some.1 h
      cases h
      exact if_pos hname
  | _ =>
    cases h
    rfl

private theorem names?_piece {stack : List Markup.StartTag} {l : Markup.Lexeme}
    {ls : List Markup.Lexeme} (h : Markup.Lexeme.Alike stack (l :: ls)) :
    l.piece.names? (stack.map nameOf) = some ((Markup.Lexeme.opened stack [l]).map nameOf) := by
  cases l with
  | start s => exact congrArg (fun name => some (name :: stack.map nameOf)) (tagName_body s)
  | empty s => rfl
  | stop name gap =>
    obtain ⟨⟨s, hs, hname⟩, -⟩ := h
    cases stack with
    | nil => cases hs
    | cons s' outer =>
      cases hs
      refine if_pos ?_
      rw [stopName_encode, nameOf, hname]
  | mark m => cases m <;> rfl

/-- Lexemes with matching names are met one after the other. -/
theorem events_spell {stack : List Markup.StartTag} {ls : List Markup.Lexeme}
    (h : Markup.Lexeme.Alike stack ls) (t : Tracker) (ending : Ending) (more : List Piece) :
    events t (stack.map nameOf) ending (ls.map (·.piece) ++ more)
      = (tracked t (ls.map (·.piece))
          ++ (events (t.behind (ls.map (·.piece)))
            ((Markup.Lexeme.opened stack ls).map nameOf) ending more).1,
        (events (t.behind (ls.map (·.piece)))
          ((Markup.Lexeme.opened stack ls).map nameOf) ending more).2) := by
  induction ls generalizing stack t with
  | nil => rfl
  | cons l ls ih =>
    have hrest : Markup.Lexeme.Alike (Markup.Lexeme.opened stack [l]) ls := by
      have happend : Markup.Lexeme.Paired _ stack ([l] ++ ls) := h
      exact (Markup.Lexeme.paired_append.1 happend).2
    have hopened : Markup.Lexeme.opened stack (l :: ls)
        = Markup.Lexeme.opened (Markup.Lexeme.opened stack [l]) ls :=
      Markup.Lexeme.opened_append stack [l] ls
    rw [List.map_cons, List.cons_append, events_cons (names?_piece h), ih hrest, hopened]
    rfl

/-- Pieces that open and close nothing are met one after the other. -/
theorem events_silent {ps : List Piece} (h : ∀ p ∈ ps, p.Silent) (t : Tracker)
    (names : List Bytes) (ending : Ending) (more : List Piece) :
    events t names ending (ps ++ more)
      = (tracked t ps ++ (events (t.behind ps) names ending more).1,
        (events (t.behind ps) names ending more).2) := by
  induction ps generalizing t with
  | nil => rfl
  | cons p ps ih =>
    have hnames : p.names? names = some names := by
      have hp := h p List.mem_cons_self
      cases p with
      | text body => rfl
      | comment body => rfl
      | instruction body => rfl
      | _ => cases hp
    rw [List.cons_append, events_cons hnames, ih fun q hq => h q (List.mem_cons_of_mem p hq)]
    rfl

theorem seek_silent {ps : List Piece} (h : ∀ p ∈ ps, p.Silent) (t : Tracker) (target : Position)
    (scopes : List (List Declaration)) (more : List Event) :
    seek target scopes (tracked t ps ++ more) = seek target scopes more := by
  induction ps generalizing t with
  | nil => rfl
  | cons p ps ih =>
    have hrest := ih (fun q hq => h q (List.mem_cons_of_mem p hq)) (t.consume p.source)
    have hp := h p List.mem_cons_self
    cases p with
    | text body => exact hrest
    | comment body => exact hrest
    | instruction body => exact hrest
    | _ => cases hp

/-- The search passes over what stands in front of its target. -/
theorem seek_spell {t : Tracker} (ht : t.atStart = false) {target : Position}
    {ls : List Markup.Lexeme} (h : target = t.position.after (Markup.Lexeme.spell ls))
    (stack : List Markup.StartTag) (more : List Event) :
    seek target (stack.map scopeOf) (tracked t (ls.map (·.piece)) ++ more)
      = seek target ((Markup.Lexeme.opened stack ls).map scopeOf) more := by
  induction ls generalizing stack t with
  | nil => rfl
  | cons l ls ih =>
    have hposition := Tracker.position_consume_piece ht l
    have hstarted := Tracker.atStart_consume ht l.piece.source
    have htarget : target
        = (t.consume l.piece.source).position.after (Markup.Lexeme.spell ls) := by
      rw [h, hposition, ← Position.after_append, ← Markup.Lexeme.spell_cons]
    have hrest := ih hstarted htarget
    have hplace : t.position ≠ target := by
      rw [h]
      refine (Position.after_ne ?_).symm
      rw [Markup.Lexeme.spell_cons]
      exact List.append_ne_nil_of_left_ne_nil l.chars_ne_nil _
    cases l with
    | start s =>
      have htag : (t.consume (Markup.Lexeme.start s).piece.source).lastTag = t.position := by
        rw [Markup.Lexeme.source_piece]
        exact Tracker.lastTag_consume_tag ht s false
      show (if (t.consume (Markup.Lexeme.start s).piece.source).lastTag = target then _ else _) = _
      rw [htag, if_neg hplace]
      exact hrest (s :: stack)
    | empty s =>
      have htag : (t.consume (Markup.Lexeme.empty s).piece.source).lastTag = t.position := by
        rw [Markup.Lexeme.source_piece]
        exact Tracker.lastTag_consume_tag ht s true
      show (if (t.consume (Markup.Lexeme.empty s).piece.source).lastTag = target then _ else _) = _
      rw [htag, if_neg hplace]
      exact hrest stack
    | stop name gap =>
      show seek target (stack.map scopeOf).tail _ = _
      rw [← List.map_tail]
      exact hrest stack.tail
    | mark m => cases m <;> exact hrest stack

/-- The pieces of content are taken as they are. -/
theorem subtree?_content (k : Markup.Content) (t : Tracker) (depth : Nat) (more : List Event) :
    subtree? (depth + 1) (tracked t (k.lexemes.map (·.piece)) ++ more)
      = (subtree? (depth + 1) more).map (k.lexemes.map (·.piece) ++ ·) := by
  induction k generalizing t depth more with
  | nil =>
    show subtree? (depth + 1) more = _
    cases subtree? (depth + 1) more <;> rfl
  | mark m k ih =>
    have hrest := ih (t.consume (Markup.Lexeme.mark m).piece.source) depth more
    have hstep (es : List Event) (place : Position) :
        subtree? (depth + 1) (⟨(Markup.Lexeme.mark m).piece, place⟩ :: es)
          = (subtree? (depth + 1) es).map ((Markup.Lexeme.mark m).piece :: ·) := by
      cases m <;> rfl
    rw [Markup.Content.lexemes, List.map_cons, tracked, List.cons_append, hstep, hrest,
      Option.map_map]
    rfl
  | empty s k ih =>
    have hrest := ih (t.consume (Markup.Lexeme.empty s).piece.source) depth more
    show (subtree? (depth + 1) (tracked _ (k.lexemes.map (·.piece)) ++ more)).map _ = _
    rw [hrest, Option.map_map]
    rfl
  | element s inner name gap k ihInner ihRest =>
    let opened := t.consume (Markup.Lexeme.start s).piece.source
    let inside := opened.behind (inner.lexemes.map (·.piece))
    let closed := inside.consume (Markup.Lexeme.stop name gap).piece.source
    have hevents : tracked t ((Markup.Content.element s inner name gap k).lexemes.map (·.piece))
          ++ more
        = ⟨(Markup.Lexeme.start s).piece, opened.lastTag⟩
          :: (tracked opened (inner.lexemes.map (·.piece))
            ++ ⟨(Markup.Lexeme.stop name gap).piece, closed.lastTag⟩
              :: (tracked closed (k.lexemes.map (·.piece)) ++ more)) := by
      simp only [Markup.Content.lexemes, List.map_cons, List.map_append, tracked, tracked_append,
        List.cons_append, List.append_assoc]
      rfl
    rw [hevents]
    show (subtree? (depth + 2) (tracked opened _ ++ _)).map _ = _
    rw [ihInner]
    show (((subtree? (depth + 1) (tracked closed _ ++ more)).map _).map _).map _ = _
    rw [ihRest, Option.map_map, Option.map_map, Option.map_map]
    simp only [Markup.Content.lexemes, List.map_cons, List.map_append]
    congr 1
    funext ps
    simp

/-- The pieces of an element, with other bytes in its first tag. -/
def piecesOf (body : Bytes) : Markup.Element → List Piece
  | .empty _ => [.empty body]
  | .full _ inner name gap =>
    .start body :: (inner.lexemes.map (·.piece) ++ [(Markup.Lexeme.stop name gap).piece])

theorem seek_start {target place : Position} {rest : List Event} {ps : List Piece}
    (hplace : place = target) (h : subtree? 1 rest = some ps) (scopes : List (List Declaration))
    (body : Bytes) :
    seek target scopes (⟨.start body, place⟩ :: rest)
      = .pieces (.start (Declaration.withInherited scopes.reverse body) :: ps) := by
  rw [seek]
  simp only [hplace, if_true, h]

theorem seek_element {t : Tracker} (ht : t.atStart = false) (e : Markup.Element)
    (scopes : List (List Declaration)) (more : List Event) :
    seek t.position scopes (tracked t (e.lexemes.map (·.piece)) ++ more)
      = .pieces (piecesOf (Declaration.withInherited scopes.reverse (encode e.tag.body)) e) := by
  cases e with
  | empty s =>
    have htag : (t.consume (Markup.Lexeme.empty s).piece.source).lastTag = t.position := by
      rw [Markup.Lexeme.source_piece]
      exact Tracker.lastTag_consume_tag ht s true
    exact if_pos htag
  | full s inner name gap =>
    let opened := t.consume (Markup.Lexeme.start s).piece.source
    let inside := opened.behind (inner.lexemes.map (·.piece))
    let closed := inside.consume (Markup.Lexeme.stop name gap).piece.source
    have htag : opened.lastTag = t.position := by
      show (t.consume (Markup.Lexeme.start s).piece.source).lastTag = t.position
      rw [Markup.Lexeme.source_piece]
      exact Tracker.lastTag_consume_tag ht s false
    have hevents : tracked t ((Markup.Element.full s inner name gap).lexemes.map (·.piece)) ++ more
        = ⟨(Markup.Lexeme.start s).piece, opened.lastTag⟩
          :: (tracked opened (inner.lexemes.map (·.piece))
            ++ ⟨(Markup.Lexeme.stop name gap).piece, closed.lastTag⟩ :: more) := by
      simp only [Markup.Element.lexemes, Markup.Element.followed, Markup.Content.lexemes,
        List.map_cons, List.map_append, List.map_nil, tracked, tracked_append, List.cons_append,
        List.append_assoc]
      rfl
    have hsubtree := subtree?_content inner opened 0
      (⟨(Markup.Lexeme.stop name gap).piece, closed.lastTag⟩ :: more)
    rw [hevents]
    exact seek_start htag hsubtree scopes (encode s.body)

private theorem consume_start {bytes : Bytes} (hne : bytes ≠ [])
    (hmark : Tracker.byteOrderMark.isPrefixOf bytes = false) :
    Tracker.consume {} bytes = Tracker.consume { atStart := false } bytes := by
  have hempty : bytes.isEmpty = false := by
    rw [List.isEmpty_eq_false_iff]
    exact hne
  simp [Tracker.consume, hempty, hmark]

theorem events_start {bytes : Bytes} (hmark : Tracker.byteOrderMark.isPrefixOf bytes = false)
    (ending : Ending) :
    events {} [] ending (Piece.scan bytes).1
      = events { atStart := false } [] ending (Piece.scan bytes).1 := by
  cases bytes with
  | nil =>
    rw [Piece.scan]
    rfl
  | cons b bytes =>
    cases hn : Piece.next? b bytes with
    | none =>
      have hscan : (Piece.scan (b :: bytes)).1 = [] := by
        rw [Piece.scan]
        split
        · rfl
        · next h =>
          rw [hn] at h
          cases h
      rw [hscan]
      rfl
    | some next =>
      obtain ⟨p, rest⟩ := next
      have hsource := Piece.next?_source hn
      have hne : p.source ≠ [] := by
        intro hnil
        have hlength := Piece.next?_length hn
        rw [hnil, List.nil_append] at hsource
        rw [hsource, List.length_cons] at hlength
        omega
      have hfirst : Tracker.byteOrderMark.isPrefixOf p.source = false := by
        rw [Bool.eq_false_iff] at hmark ⊢
        intro hp
        refine hmark (List.isPrefixOf_iff_prefix.2 ?_)
        rw [← hsource]
        exact (List.isPrefixOf_iff_prefix.1 hp).trans (List.prefix_append _ _)
      rw [Piece.scan_cons hn]
      show events {} [] ending (p :: _) = events { atStart := false } [] ending (p :: _)
      cases hnames : p.names? [] with
      | some names => rw [events_cons hnames, events_cons hnames, consume_start hne hfirst]
      | none =>
        cases p with
        | stop body => rfl
        | _ => cases hnames

/-- A byte order mark is passed over, and from there on bytes are only counted. -/
theorem eventsOf_encode (s : String) :
    eventsOf (encode s.toList)
      = events { atStart := false } []
          (if (Piece.scan (encode (Text.dropByteOrderMark s).toList)).2 then .whole else .malformed)
          (Piece.scan (encode (Text.dropByteOrderMark s).toList)).1 := by
  by_cases hmark : [Text.byteOrderMark] <+: s.toList
  · obtain ⟨cs, hcs⟩ := hmark
    have hdrop : (Text.dropByteOrderMark s).toList = cs := by
      rw [Text.dropByteOrderMark, ← hcs]
      simp
    have hbytes : encode s.toList = Tracker.byteOrderMark ++ encode cs := by
      rw [← hcs, Text.encode_append, Text.encode_byteOrderMark]
    have hfront : Tracker.byteOrderMark.isPrefixOf (encode s.toList) = true :=
      Text.isPrefixOf_encode_iff.2 ⟨cs, hcs⟩
    rw [hdrop, eventsOf, if_pos hfront, hbytes]
    rfl
  · have hdrop : Text.dropByteOrderMark s = s := by
      rw [Text.dropByteOrderMark]
      split
      · next c cs hc =>
        refine if_neg ?_
        rintro rfl
        exact hmark ⟨cs, hc.symm⟩
      · rfl
    have hfront : Tracker.byteOrderMark.isPrefixOf (encode s.toList) = false := by
      rw [Bool.eq_false_iff]
      exact fun hp => hmark (Text.isPrefixOf_encode_iff.1 hp)
    rw [hdrop, eventsOf, hfront]
    exact events_start hfront _

end Fragment

end XsdCatalog
