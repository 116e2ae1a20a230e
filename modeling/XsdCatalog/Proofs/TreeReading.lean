import XsdCatalog.Markup.Document
import XsdCatalog.Proofs.Content

/-!
# Content as a tree

Where no entity is declared each token says something of its own, and content is read into nodes
along its structure.
-/

namespace XsdCatalog.Markup

/-- The text that pieces spell. `text` is what was read so far, last character first. -/
def plainFrom (text : List Char) (verbatim : Bool) : List Piece → Option (List Char)
  | [] => some text.reverse
  | .plain c :: rest =>
    if verbatim then plainFrom (c :: text) false rest
    else plainFrom (pushChar text c rest.isEmpty) false rest
  | .reference c :: rest => plainFrom (c :: text) true rest
  | .entity _ :: _ => none

def plainText? (raw : List Char) : Option (List Char) :=
  if raw.any fun c => c == '&' || c == '\r' then (pieces? raw).bind (plainFrom [] false)
  else some raw

def value? (raw : List Char) : Option (List Char) :=
  (pieces? raw).bind fun ps => (attributeFrom false (fun _ _ => none) [] ps 0).map (·.1)

def values? : List RawAttribute → Option (List (TagName × String))
  | [] => some []
  | a :: as => do
    let value ← value? a.value
    let rest ← values? as
    return (a.name, String.ofList value) :: rest

/-- The events of a text; an empty text is nothing. -/
def textEvents (cs : List Char) : List Event :=
  if cs.isEmpty then [] else [.text cs]

namespace Token

def events? : Token → Option (List Event)
  | start position name raw ending => (values? raw).map fun as => tagEvents position name as ending
  | stop name => some [.stop name]
  | text raw => (plainText? raw).map textEvents
  | cdata raw => some [.text (cdataText raw)]
  | comment cs => some [.comment cs]
  | instruction target body => some [.instruction target body]

def eventsAll? : List Token → Option (List Event)
  | [] => some []
  | t :: ts => do
    let es ← t.events?
    let rest ← eventsAll? ts
    return es ++ rest

end Token

private theorem attributeFrom_count (done : List Char) (ps : List Piece) (count : Nat) :
    attributeFrom false (fun _ _ => none) done ps count
      = (attributeFrom false (fun _ _ => none) done ps 0).map fun p => (p.1, count) := by
  fun_induction attributeFrom false (fun _ _ => none) done ps count with
  | case1 => rfl
  | case2 done rest count ih =>
    rw [attributeFrom]
    exact ih
  | case3 done c rest count hne ih =>
    rw [attributeFrom.eq_3 _ _ _ _ _ _ hne]
    exact ih
  | case4 => contradiction
  | case5 => contradiction
  | case6 done c rest count _ ih => exact ih
  | case7 => rfl

private theorem attributeValue_eq (depth : Nat) (raw : List Char) (count : Nat) :
    attributeValue [] (depth + 1) false raw count = (value? raw).map fun value => (value, count) := by
  rw [attributeValue, value?]
  cases pieces? raw with
  | none => rfl
  | some ps =>
    have hcount : attributeFrom false (fun _ _ => none) [] ps count = _ :=
      attributeFrom_count [] ps count
    simp only [Option.bind_some, Option.map_map]
    exact hcount

private theorem expandAttributes_eq (depth : Nat) (as : List RawAttribute) (count : Nat) :
    expandAttributes [] (depth + 1) false as count = (values? as).map fun values => (values, count) := by
  induction as with
  | nil => rfl
  | cons a as ih =>
    rw [expandAttributes, attributeValue_eq, values?]
    cases value? a.value with
    | none => rfl
    | some value =>
      simp only [Option.map_some, Option.bind_eq_bind, Option.bind_some, ih]
      cases values? as <;> rfl

private theorem pushSegments_segments (done : List Event) (text : List Char) (verbatim : Bool)
    (ps : List Piece) :
    pushSegments false (fun _ _ => none) done (segments false text verbatim ps) 0
      = (plainFrom text verbatim ps).map fun cs => ((textEvents cs).reverse ++ done, 0) := by
  have hreversed (text : List Char) (rest : List Segment) :
      pushSegments false (fun _ _ => none) done (Segment.ofReversed text ++ rest) 0
        = pushSegments false (fun _ _ => none) ((textEvents text.reverse).reverse ++ done) rest 0 := by
    rw [Segment.ofReversed, textEvents, List.isEmpty_reverse]
    split <;> rfl
  fun_induction segments false text verbatim ps with
  | case1 text =>
    have h := hreversed text []
    rwa [List.append_nil] at h
  | case2 text c rest ih => exact ih
  | case3 text verbatim c rest hv ih =>
    rw [plainFrom, if_neg hv]
    exact ih
  | case4 => contradiction
  | case5 text verbatim c rest _ ih => exact ih
  | case6 text verbatim name rest ih =>
    rw [hreversed]
    rfl

private theorem pushSegments_segments? (done : List Event) (raw : List Char) :
    ((segments? false raw).bind fun ss => pushSegments false (fun _ _ => none) done ss 0)
      = (plainText? raw).map fun cs => ((textEvents cs).reverse ++ done, 0) := by
  rw [segments?, plainText?]
  split
  · cases pieces? raw with
    | none => rfl
    | some ps => exact pushSegments_segments done [] false ps
  · rw [Segment.ofReversed, List.isEmpty_reverse, List.reverse_reverse, Option.map_some, textEvents]
    split <;> rfl

/-- Without entities the tokens speak one after the other. -/
theorem eventsFrom_eq (depth : Nat) (done : List Event) (ts : List Token) :
    eventsFrom [] (depth + 1) false (fun _ _ => none) done ts 0
      = (Token.eventsAll? ts).map fun es => (done.reverse ++ es, 0) := by
  induction ts generalizing done with
  | nil => simp [eventsFrom, Token.eventsAll?]
  | cons t ts ih =>
    have hone {es : List Event} (he : t.events? = some es) :
        ((Token.eventsAll? (t :: ts)).map fun es => (done.reverse ++ es, 0))
          = eventsFrom [] (depth + 1) false (fun _ _ => none) (es.reverse ++ done) ts 0 := by
      rw [ih, Token.eventsAll?, he]
      cases Token.eventsAll? ts with
      | none => rfl
      | some rest => simp
    have hnone (he : t.events? = none) :
        ((Token.eventsAll? (t :: ts)).map fun es => (done.reverse ++ es, 0)) = none := by
      rw [Token.eventsAll?, he]
      rfl
    cases t with
    | start position name raw ending =>
      rw [eventsFrom, expandAttributes_eq]
      cases hraw : values? raw with
      | none => exact (hnone (by rw [Token.events?, hraw]; rfl)).symm
      | some as => exact (hone (by rw [Token.events?, hraw]; rfl)).symm
    | text raw =>
      have hpush := pushSegments_segments? done raw
      simp only [eventsFrom, Option.bind_eq_bind, ← Option.bind_assoc, hpush]
      cases hraw : plainText? raw with
      | none => exact (hnone (by rw [Token.events?, hraw]; rfl)).symm
      | some cs => exact (hone (by rw [Token.events?, hraw]; rfl)).symm
    | stop name => exact (hone rfl).symm
    | cdata raw => exact (hone rfl).symm
    | comment cs => exact (hone rfl).symm
    | instruction target body => exact (hone rfl).symm

theorem expand_eq (ts : List Token) :
    expand [] maxDepth false ts 0 = (Token.eventsAll? ts).map fun es => (es, 0) :=
  eventsFrom_eq 9 [] ts

/-- What a mark says; a character reference that is none, or an entity, says nothing. -/
def Mark.node? : Mark → Option Node
  | text cs => (plainText? cs.1).map fun cs => .text (String.ofList cs)
  | cdata body => some (.text (String.ofList (cdataText body.1)))
  | comment body => some (.comment (String.ofList body.1))
  | instruction i => some (.instruction (String.ofList i.target) (String.ofList i.body))

/-- What a start tag says inside elements with the bindings `outer`. -/
def StartTag.tag? (outer : List Binding) (position : Position) (t : StartTag) : Option Tag := do
  Tag.make? outer position t.name.name (← values? (t.attributes.map (·.raw)))

/-- The nodes of content, in front of which stand others, last one first. -/
def Content.read? (outer : List Binding) (position : Position) (nodes : List Node) :
    Content → Option (List Node)
  | nil => some nodes
  | mark m rest => do
    rest.read? outer (position.after m.chars) (Builder.addNode nodes (← m.node?))
  | empty t rest => do
    let tag ← t.tag? outer position
    rest.read? outer (position.after (t.chars true)) (Builder.addNode nodes (.element tag []))
  | element t inner name gap rest => do
    let tag ← t.tag? outer position
    let children ← inner.read? tag.bindings (position.after (t.chars false)) []
    if name.name = t.name.name then
      rest.read? outer
        (position.after (Lexeme.spell
          (.start t :: (inner.lexemes ++ [.stop name gap]))))
        (Builder.addNode nodes (.element tag children.reverse))
    else none

/-- What a builder comes to with tokens. -/
def Builder.interpret (b : Builder) (ts : List Token) : Option Builder :=
  (Token.eventsAll? ts).bind b.run

namespace Builder

private theorem run_append (b : Builder) (es fs : List Event) :
    b.run (es ++ fs) = (b.run es).bind (·.run fs) := by
  induction es generalizing b with
  | nil => rfl
  | cons e es ih =>
    rw [List.cons_append, run, run]
    cases b.step e with
    | none => rfl
    | some b => exact ih b

theorem interpret_cons (b : Builder) (t : Token) (ts : List Token) :
    b.interpret (t :: ts) = t.events?.bind fun es => (b.run es).bind (·.interpret ts) := by
  rw [interpret, Token.eventsAll?]
  cases t.events? with
  | none => rfl
  | some es =>
    cases hts : Token.eventsAll? ts with
    | none => simp [interpret, hts]
    | some rest => simp [interpret, hts, run_append]

theorem addNode_empty (nodes : List Node) : addNode nodes (.text "") = nodes := by
  cases nodes with
  | nil => rfl
  | cons node nodes =>
    cases node with
    | text before =>
      show Node.text (before ++ "") :: nodes = _
      rw [String.append_empty]
    | _ => rfl

private theorem add_empty (b : Builder) : b.add (.text "") = b := by
  obtain ⟨opened, nodes, pending⟩ := b
  cases opened with
  | nil => simp only [add, addNode_empty]
  | cons e outer => simp only [add, addNode_empty]

private theorem interpret_mark (b : Builder) (m : Mark) (ts : List Token) :
    b.interpret (m.token :: ts) = m.node?.bind fun node => (b.add node).interpret ts := by
  rw [interpret_cons]
  cases m with
  | text cs =>
    rw [Mark.token, Token.events?, Mark.node?]
    cases plainText? cs.1 with
    | none => rfl
    | some cs =>
      rw [Option.map_some, Option.map_some, Option.bind_some, Option.bind_some, textEvents]
      split
      · next hnil =>
        rw [List.isEmpty_iff.1 hnil]
        show b.interpret ts = (b.add (.text "")).interpret ts
        rw [add_empty]
      · rfl
  | cdata body => rfl
  | comment body => rfl
  | instruction i => rfl

/-- The bindings in force where a builder stands. -/
def bindings (b : Builder) : List Binding :=
  match b.opened with
  | [] => []
  | e :: _ => e.tag.bindings

variable {b : Builder}

private theorem step_start (hb : b.pending = []) (position : Position) (name : TagName)
    (as : List (TagName × String)) :
    b.step (.start position name as) = (Tag.make? b.bindings position name as).map fun tag =>
      { b with opened := ⟨name, tag, []⟩ :: b.opened } := by
  obtain ⟨opened, nodes, pending⟩ := b
  cases hb
  show (Tag.make? (bindings ⟨opened, nodes, []⟩) position name as).bind _ = _
  cases Tag.make? (bindings ⟨opened, nodes, []⟩) position name as <;> rfl

private theorem step_stop {e : OpenElement} {outer : List OpenElement} (hb : b.pending = [])
    (ho : b.opened = e :: outer) (name : TagName) :
    b.step (.stop name)
      = if e.name = name then
          some ({ b with opened := outer }.add (.element e.tag e.children.reverse))
        else none := by
  obtain ⟨opened, nodes, pending⟩ := b
  cases hb
  cases ho
  have hscope : (Tag.scope? e.tag.bindings []).isSome = true := rfl
  rw [step]
  simp only [hscope, and_true]

theorem interpret_start (hb : b.pending = []) (t : StartTag) (position : Position)
    (ts : List Token) :
    b.interpret (t.token false position :: ts)
      = (t.tag? b.bindings position).bind fun tag =>
          Builder.interpret { b with opened := ⟨t.name.name, tag, []⟩ :: b.opened } ts := by
  rw [interpret_cons, StartTag.token, Token.events?, StartTag.tag?]
  cases values? (t.attributes.map (·.raw)) with
  | none => rfl
  | some as =>
    show (b.run [.start position t.name.name as]).bind _ = (Tag.make? b.bindings _ _ as).bind _
    rw [run, step_start hb]
    cases Tag.make? b.bindings position t.name.name as <;> rfl

private theorem interpret_stop {e : OpenElement} {outer : List OpenElement} (hb : b.pending = [])
    (ho : b.opened = e :: outer) (name : TagName) (ts : List Token) :
    b.interpret (.stop name :: ts)
      = if e.name = name then
          ({ b with opened := outer }.add (.element e.tag e.children.reverse)).interpret ts
        else none := by
  rw [interpret_cons]
  show (b.run [.stop name]).bind _ = _
  rw [run, step_stop hb ho]
  split <;> rfl

private theorem interpret_empty (hb : b.pending = []) (t : StartTag) (position : Position)
    (ts : List Token) :
    b.interpret (t.token true position :: ts)
      = (t.tag? b.bindings position).bind fun tag => (b.add (.element tag [])).interpret ts := by
  rw [interpret_cons, StartTag.token, Token.events?, StartTag.tag?]
  cases values? (t.attributes.map (·.raw)) with
  | none => rfl
  | some as =>
    show (b.run [.start position t.name.name as, .stop t.name.name]).bind _
      = (Tag.make? b.bindings _ _ as).bind _
    rw [run, step_start hb]
    cases Tag.make? b.bindings position t.name.name as with
    | none => rfl
    | some tag =>
      let opened : Builder := { b with opened := ⟨t.name.name, tag, []⟩ :: b.opened }
      show ((opened.step (.stop t.name.name)).bind fun b => b.run []).bind _ = _
      rw [step_stop (b := opened) hb rfl, if_pos rfl]
      rfl

/-- Inside an element content adds its nodes to the children. -/
theorem interpret_content (k : Content) (e : OpenElement) (outer : List OpenElement)
    (nodes : List Node) (position : Position) (ts : List Token) :
    Builder.interpret ⟨e :: outer, nodes, []⟩ (Lexeme.tokens position k.lexemes ++ ts)
      = (k.read? e.tag.bindings position e.children).bind fun children =>
          Builder.interpret ⟨{ e with children } :: outer, nodes, []⟩ ts := by
  induction k generalizing e outer position ts with
  | nil => rfl
  | mark m k ih =>
    rw [Content.lexemes, Lexeme.tokens, List.cons_append, Lexeme.token, interpret_mark,
      Content.read?]
    cases m.node? with
    | none => rfl
    | some node => exact ih { e with children := addNode e.children node } outer _ ts
  | empty t k ih =>
    rw [Content.lexemes, Lexeme.tokens, List.cons_append, Lexeme.token, interpret_empty rfl,
      Content.read?]
    show (t.tag? e.tag.bindings position).bind _ = _
    cases t.tag? e.tag.bindings position with
    | none => rfl
    | some tag => exact ih { e with children := addNode e.children (.element tag []) } outer _ ts
  | element t inner name gap k ihInner ihRest =>
    have htokens : Lexeme.tokens position (Content.element t inner name gap k).lexemes ++ ts
        = t.token false position :: (Lexeme.tokens (position.after (t.chars false)) inner.lexemes
          ++ .stop name.name :: (Lexeme.tokens (position.after (Lexeme.spell
            (.start t :: (inner.lexemes ++ [.stop name gap])))) k.lexemes ++ ts)) := by
      simp [Content.lexemes, Lexeme.tokens, Lexeme.tokens_append, Lexeme.spell_cons,
        Lexeme.spell_append, Lexeme.spell_nil, Lexeme.token, Lexeme.chars]
    rw [htokens, interpret_start rfl, Content.read?]
    show (t.tag? e.tag.bindings position).bind _ = _
    cases t.tag? e.tag.bindings position with
    | none => rfl
    | some tag =>
      rw [Option.bind_some, ihInner ⟨t.name.name, tag, []⟩]
      simp only [Option.bind_eq_bind, Option.bind_some]
      cases inner.read? tag.bindings (position.after (t.chars false)) [] with
      | none => rfl
      | some children =>
        rw [Option.bind_some, Option.bind_some, interpret_stop rfl rfl]
        by_cases hname : name.name = t.name.name
        · rw [if_pos hname, if_pos hname.symm]
          exact ihRest { e with children := addNode e.children (.element tag children.reverse) }
            outer _ ts
        · rw [if_neg hname, if_neg (Ne.symm hname)]
          rfl

end Builder

/-- An element as it is spelled. -/
inductive Element
  | empty (tag : StartTag)
  | full (tag : StartTag) (inner : Content) (name : SpelledName) (gap : Spaces)

namespace Element

/-- The element and content behind it. -/
def followed (rest : Content) : Element → Content
  | empty tag => .empty tag rest
  | full tag inner name gap => .element tag inner name gap rest

def lexemes (e : Element) : List Lexeme :=
  (e.followed .nil).lexemes

def chars (e : Element) : List Char :=
  Lexeme.spell e.lexemes

def tag : Element → StartTag
  | empty tag => tag
  | full tag _ _ _ => tag

/-- Behind an element everything can stand. -/
theorem fits_last (e : Element) (rest : List Char) : ∀ l ∈ e.lexemes.getLast?, l.Fits rest := by
  intro l hl
  cases e with
  | empty t =>
    cases hl
    exact nofun
  | full t inner name gap =>
    have hlexemes : (full t inner name gap).lexemes = (.start t :: inner.lexemes) ++ [.stop name gap] :=
      rfl
    rw [hlexemes, List.getLast?_concat] at hl
    cases hl
    exact nofun

/-- The tag and the children of an element inside elements with the bindings `outer`. -/
def read? (outer : List Binding) (position : Position) : Element → Option (Tag × List Node)
  | empty t => (t.tag? outer position).map fun tag => (tag, [])
  | full t inner name _ => do
    let tag ← t.tag? outer position
    let children ← inner.read? tag.bindings (position.after (t.chars false)) []
    if name.name = t.name.name then some (tag, children.reverse) else none

theorem read?_followed (e : Element) (rest : Content) (outer : List Binding)
    (position : Position) (nodes : List Node) :
    (e.followed rest).read? outer position nodes
      = (e.read? outer position).bind fun (tag, children) =>
          rest.read? outer (position.after e.chars)
            (Builder.addNode nodes (.element tag children)) := by
  cases e with
  | empty t =>
    rw [followed, Content.read?, read?]
    have hchars : (empty t).chars = t.chars true := List.append_nil _
    rw [hchars]
    cases t.tag? outer position <;> rfl
  | full t inner name gap =>
    rw [followed, Content.read?, read?]
    cases t.tag? outer position with
    | none => rfl
    | some tag =>
      simp only [Option.bind_eq_bind, Option.bind_some]
      cases inner.read? tag.bindings (position.after (t.chars false)) [] with
      | none => rfl
      | some children =>
        rw [Option.bind_some, Option.bind_some]
        split <;> rfl

/-- An element alone is a document with this root. -/
theorem interpret_lexemes (e : Element) (position : Position) :
    Builder.interpret {} (Lexeme.tokens position e.lexemes)
      = (e.read? [] position).map fun (tag, children) => ⟨[], [.element tag children], []⟩ := by
  cases e with
  | empty t =>
    show Builder.interpret {} [t.token true position] = _
    rw [Builder.interpret_empty rfl, read?]
    show (t.tag? [] position).bind _ = _
    cases t.tag? [] position <;> rfl
  | full t inner name gap =>
    have htokens : Lexeme.tokens position (full t inner name gap).lexemes
        = t.token false position :: (Lexeme.tokens (position.after (t.chars false)) inner.lexemes
          ++ [.stop name.name]) := by
      simp [lexemes, followed, Content.lexemes, Lexeme.tokens, Lexeme.tokens_append,
        Lexeme.token, Lexeme.chars]
    rw [htokens, Builder.interpret_start rfl, read?]
    show (t.tag? [] position).bind _ = _
    cases t.tag? [] position with
    | none => rfl
    | some tag =>
      rw [Option.bind_some, Builder.interpret_content]
      simp only [Option.bind_eq_bind, Option.bind_some]
      cases inner.read? tag.bindings (position.after (t.chars false)) [] with
      | none => rfl
      | some children =>
        rw [Option.bind_some, Option.bind_some, Builder.interpret_stop rfl rfl]
        by_cases hname : name.name = t.name.name
        · rw [if_pos hname, if_pos hname.symm]
          rfl
        · rw [if_neg hname, if_neg (Ne.symm hname)]
          rfl

end Element

namespace Event

/-- Whether an event opens an element. -/
def opens : Event → Bool
  | start _ _ _ => true
  | _ => false

/-- Whether an event closes an element. -/
def closes : Event → Bool
  | stop _ => true
  | _ => false

end Event

/-- What a token opens and closes is what its events open and close. -/
theorem Token.depth?_events {t : Token} {es : List Event} {depth n : Nat}
    (he : t.events? = some es) (hd : t.depth? depth = some n) :
    n + es.countP Event.closes = depth + es.countP Event.opens := by
  cases t with
  | start position name raw ending =>
    obtain ⟨as, -, rfl⟩ := Option.map_eq_some_iff.1 he
    cases ending <;> cases hd <;> rfl
  | stop name =>
    cases he
    cases depth with
    | zero => cases hd
    | succ depth =>
      cases hd
      rfl
  | text raw =>
    obtain ⟨cs, -, rfl⟩ := Option.map_eq_some_iff.1 he
    cases hd
    rw [textEvents]
    split <;> rfl
  | cdata raw =>
    cases he
    cases hd
    rfl
  | comment cs =>
    cases he
    cases hd
    rfl
  | instruction target body =>
    cases he
    cases hd
    rfl

namespace Builder

private theorem length_add (b : Builder) (node : Node) :
    (b.add node).opened.length = b.opened.length := by
  obtain ⟨opened, nodes, pending⟩ := b
  cases opened <;> rfl

private theorem length_step {b b' : Builder} {event : Event} (h : b.step event = some b') :
    b'.opened.length + (if event.closes then 1 else 0)
      = b.opened.length + (if event.opens then 1 else 0) := by
  cases event with
  | start position name as =>
    obtain ⟨tag, -, hb⟩ := Option.bind_eq_some_iff.1 h
    cases hb
    rfl
  | cut name as =>
    rw [step] at h
    split at h
    · cases h
    · cases h
      rfl
  | stop name =>
    rw [step] at h
    split at h
    · cases h
    · next e outer ho =>
      split at h
      · cases h
        rw [length_add, ho]
        rfl
      · cases h
  | text cs => cases h; exact length_add b _
  | comment cs => cases h; exact length_add b _
  | instruction target body => cases h; exact length_add b _

private theorem length_run {b b' : Builder} {es : List Event} (h : b.run es = some b') :
    b'.opened.length + es.countP Event.closes = b.opened.length + es.countP Event.opens := by
  induction es generalizing b with
  | nil =>
    cases h
    rfl
  | cons event es ih =>
    obtain ⟨c, hc, h⟩ := Option.bind_eq_some_iff.1 h
    have hstep := length_step hc
    have hrest := ih h
    rw [List.countP_cons, List.countP_cons]
    omega

theorem length_interpret {b b' : Builder} {ts : List Token} {depth n m : Nat}
    (h : b.interpret ts = some b') (hd : Token.depthFrom? ts depth = some n)
    (hb : b.opened.length = m + depth) : b'.opened.length = m + n := by
  induction ts generalizing b depth with
  | nil =>
    cases h
    cases hd
    exact hb
  | cons t ts ih =>
    rw [interpret_cons] at h
    obtain ⟨es, he, h⟩ := Option.bind_eq_some_iff.1 h
    obtain ⟨c, hc, h⟩ := Option.bind_eq_some_iff.1 h
    obtain ⟨inside, hi, hd⟩ := Option.bind_eq_some_iff.1 hd
    have hrun := length_run hc
    have hevents := Token.depth?_events he hi
    exact ih h hd (by omega)

end Builder

end XsdCatalog.Markup
