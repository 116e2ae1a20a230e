import XsdCatalog.Proofs.MatchedElement

/-!
# Sources cut behind an element

A piece that is not text is told by its own bytes, and a text by its own bytes and the `<` behind
it. So what is handed out for an element stays the same when other bytes, or none, stand behind it.
-/

namespace XsdCatalog.Fragment

/-- What is read from bytes is told by those that are taken, whatever stands behind them. -/
def Local {α : Type} (read : Bytes → Option (α × Bytes)) (bytes : Bytes) : Prop :=
  ∀ (a : α) (rest : Bytes), read bytes = some (a, rest) →
    ∃ taken, bytes = taken ++ rest ∧ ∀ more, read (taken ++ more) = some (a, more)

namespace Local

variable {α β : Type} {read : Bytes → Option (α × Bytes)} {bytes : Bytes}

private theorem map (h : Local read bytes) (f : α → β) :
    Local (fun bytes => (read bytes).map fun (a, rest) => (f a, rest)) bytes := by
  intro b rest hb
  obtain ⟨⟨a, rest'⟩, ha, he⟩ := Option.map_eq_some_iff.1 hb
  obtain ⟨rfl, rfl⟩ := Prod.mk.inj he
  obtain ⟨taken, hbytes, htaken⟩ := h a rest' ha
  exact ⟨taken, hbytes, fun more => congrArg (Option.map _) (htaken more)⟩

/-- Behind bytes that are always taken it is as without them. -/
theorem append {read' : Bytes → Option (α × Bytes)} (front : Bytes)
    (hstep : ∀ bytes, read (front ++ bytes) = read' bytes) (h : Local read' bytes) :
    Local read (front ++ bytes) := by
  intro a rest ha
  rw [hstep] at ha
  obtain ⟨taken, rfl, htaken⟩ := h a rest ha
  refine ⟨front ++ taken, (List.append_assoc _ _ _).symm, fun more => ?_⟩
  rw [List.append_assoc, hstep]
  exact htaken more

/-- Where nothing is read from no bytes, something is taken. -/
theorem exists_cons {a : α} {rest : Bytes} (h : Local read bytes) (hnil : read [] = none)
    (ha : read bytes = some (a, rest)) :
    ∃ b taken, bytes = b :: (taken ++ rest) ∧
      ∀ more, read (b :: (taken ++ more)) = some (a, more) := by
  obtain ⟨taken, rfl, htaken⟩ := h a rest ha
  cases taken with
  | nil =>
    rw [← List.nil_append [], htaken []] at hnil
    cases hnil
  | cons b taken => exact ⟨b, taken, rfl, htaken⟩

end Local

namespace Piece

private theorem local_splitTag (quote : Option UInt8) (seen bytes : Bytes) :
    Local (splitTag quote seen) bytes := by
  induction bytes generalizing quote seen with
  | nil => exact nofun
  | cons b bytes ih =>
    cases quote with
    | some q => exact .append [b] (fun _ => rfl) (ih (if b = q then none else some q) (b :: seen))
    | none =>
      by_cases hb : b = 0x3E
      · subst hb
        rintro _ _ ⟨⟩
        exact ⟨[0x3E], rfl, fun _ => rfl⟩
      · exact .append [b] (fun _ => if_neg hb) (ih _ (b :: seen))

theorem local_splitBalanced (depth : Nat) (seen bytes : Bytes) :
    Local (splitBalanced depth seen) bytes := by
  induction bytes generalizing depth seen with
  | nil => exact nofun
  | cons b bytes ih =>
    by_cases hb : b = 0x3E
    · subst hb
      cases depth with
      | zero =>
        rintro _ _ ⟨⟩
        exact ⟨[0x3E], rfl, fun _ => rfl⟩
      | succ outer => exact .append [0x3E] (fun _ => rfl) (ih outer (0x3E :: seen))
    · exact .append [b] (fun _ => if_neg hb) (ih _ (b :: seen))

private theorem local_splitFirst? {marker : Bytes} (hm : marker ≠ []) (bytes : Bytes) :
    Local (Text.splitFirst? marker) bytes := by
  intro body rest h
  have hbytes : body ++ marker ++ rest = bytes := Text.splitFirst?_eq_some h
  exact ⟨body ++ marker, hbytes.symm, Text.splitFirst?_of_closes hm (Text.closes_of_splitFirst? h)⟩

private theorem local_instruction (bytes : Bytes) : Local markup? (0x3F :: bytes) := by
  intro p rest h
  have hhead : bytes.head? ≠ some 0x3E := by
    intro hhead
    rw [markup?, if_pos hhead] at h
    cases h
  rw [markup?, if_neg hhead] at h
  have hlocal := (local_splitFirst? (by decide : ascii "?>" ≠ []) bytes).map instruction
  obtain ⟨b, taken, rfl, htaken⟩ := hlocal.exists_cons rfl h
  refine ⟨0x3F :: b :: taken, rfl, fun more => ?_⟩
  have hhead' : (b :: (taken ++ more)).head? ≠ some 0x3E := hhead
  show markup? (0x3F :: b :: (taken ++ more)) = _
  rw [markup?, if_neg hhead']
  exact htaken more

/-- A keyword begins with a letter. -/
theorem ne_of_isDoctype {b : UInt8} {body : Bytes} (h : isDoctype (b :: body) = true) :
    b ≠ 0x2D ∧ b ≠ 0x5B := by
  rw [isDoctype, Bool.and_eq_true, beq_iff_eq] at h
  have hb : upper b = 0x44 := (List.cons.inj h.1).1
  constructor <;> rintro rfl <;> exact absurd hb (by decide)

private theorem local_declaration (bytes : Bytes) : Local markup? (0x21 :: bytes) := by
  by_cases hcomment : (ascii "--").isPrefixOf bytes = true
  · obtain ⟨tail, rfl⟩ := List.isPrefixOf_iff_prefix.1 hcomment
    have hlocal := (local_splitFirst? (by decide : ascii "-->" ≠ []) tail).map comment
    exact hlocal.append (0x21 :: ascii "--") fun _ => rfl
  by_cases hcdata : (ascii "[CDATA[").isPrefixOf bytes = true
  · obtain ⟨tail, rfl⟩ := List.isPrefixOf_iff_prefix.1 hcdata
    have hlocal := (local_splitFirst? (by decide : ascii "]]>" ≠ []) tail).map cdata
    exact hlocal.append (0x21 :: ascii "[CDATA[") fun _ => rfl
  intro p rest h
  rw [markup?, if_neg hcomment, if_neg hcdata] at h
  obtain ⟨⟨body, rest⟩, hsplit, hp⟩ := Option.bind_eq_some_iff.1 h
  obtain ⟨hdoctype, hp⟩ := Option.ite_none_right_eq_some.1 hp
  cases hp
  obtain ⟨b, taken, rfl, htaken⟩ := (local_splitBalanced 0 [] bytes).exists_cons rfl hsplit
  -- the body begins with a letter, so neither of the other two marks can stand here
  have hfirst : b ≠ 0x2D ∧ b ≠ 0x5B := by
    have hbody : body ++ [0x3E] = b :: (taken ++ []) := splitBalanced_eq_some (htaken [])
    cases body with
    | nil => cases hdoctype
    | cons c body =>
      obtain ⟨rfl, -⟩ := List.cons.inj hbody
      exact ne_of_isDoctype hdoctype
  refine ⟨0x21 :: b :: taken, rfl, fun more => ?_⟩
  have hcomment' : ¬ (ascii "--").isPrefixOf (b :: (taken ++ more)) = true := by
    rw [List.isPrefixOf_iff_prefix]
    exact fun hp => hfirst.1 (List.cons_prefix_cons.1 hp).1.symm
  have hcdata' : ¬ (ascii "[CDATA[").isPrefixOf (b :: (taken ++ more)) = true := by
    rw [List.isPrefixOf_iff_prefix]
    exact fun hp => hfirst.2 (List.cons_prefix_cons.1 hp).1.symm
  show markup? (0x21 :: b :: (taken ++ more)) = _
  rw [markup?, if_neg hcomment', if_neg hcdata', htaken]
  exact if_pos hdoctype

theorem markup?_of_ne {b : UInt8} (hb : b ≠ 0x2F ∧ b ≠ 0x3F ∧ b ≠ 0x21) (bytes : Bytes) :
    markup? (b :: bytes)
      = (splitTag none [] (b :: bytes)).map fun (body, rest) => (ofTagBody body, rest) := by
  unfold markup?
  split
  · next he => exact absurd (List.cons.inj he).1 hb.1
  · next he => exact absurd (List.cons.inj he).1 hb.2.1
  · next he => exact absurd (List.cons.inj he).1 hb.2.2
  · rfl

/-- Markup is told by its own bytes. -/
theorem local_markup? (bytes : Bytes) : Local markup? bytes := by
  cases bytes with
  | nil => exact nofun
  | cons b bytes =>
    by_cases hstop : b = 0x2F
    · subst hstop
      exact .append [0x2F] (fun _ => rfl) ((local_splitTag none [] bytes).map stop)
    by_cases hinstruction : b = 0x3F
    · subst hinstruction
      exact local_instruction bytes
    by_cases hdeclaration : b = 0x21
    · subst hdeclaration
      exact local_declaration bytes
    intro p rest h
    rw [markup?_of_ne ⟨hstop, hinstruction, hdeclaration⟩] at h
    obtain ⟨c, taken, hbytes, htaken⟩ :=
      ((local_splitTag none [] (b :: bytes)).map ofTagBody).exists_cons rfl h
    obtain ⟨rfl, rfl⟩ := List.cons.inj hbytes
    refine ⟨b :: taken, rfl, fun more => ?_⟩
    rw [List.cons_append, markup?_of_ne ⟨hstop, hinstruction, hdeclaration⟩]
    exact htaken more

private theorem source_ne_nil {p : Piece} (h : ∀ body, p ≠ .text body) : p.source ≠ [] := by
  cases p with
  | text body => exact absurd rfl (h body)
  | _ => exact List.cons_ne_nil _ _

/-- A piece is cut off as before in front of other bytes, a text only where these begin with
`<`. -/
theorem scan_of_next? {b : UInt8} {bytes rest : Bytes} {p : Piece}
    (h : next? b bytes = some (p, rest)) {more : Bytes}
    (hmore : b = 0x3C ∨ Text.Ends (· != 0x3C) more) :
    scan (p.source ++ more) = (p :: (scan more).1, (scan more).2) := by
  by_cases hb : b = 0x3C
  · rw [next?, if_pos hb] at h
    obtain ⟨taken, -, htaken⟩ := local_markup? bytes p rest h
    have hsource : p.source = 0x3C :: taken := by
      simpa using markup?_source (htaken [])
    rw [hsource]
    exact scan_markup (htaken more)
  · rw [next?, if_neg hb] at h
    obtain ⟨rfl, rfl⟩ := Prod.mk.inj (Option.some.inj h)
    have hends := hmore.resolve_left hb
    have hbytes : ∀ c ∈ bytes.takeWhile (· != 0x3C), (c != 0x3C) = true :=
      fun c hc => List.mem_takeWhile_imp (p := (· != 0x3C)) hc
    have hnext : next? b (bytes.takeWhile (· != 0x3C) ++ more)
        = some (.text (b :: bytes.takeWhile (· != 0x3C)), more) := by
      rw [next?, if_neg hb, Text.takeWhile_append hbytes hends, Text.dropWhile_append hbytes hends]
    exact scan_cons hnext

private theorem exists_next?_of_scan {bytes : Bytes} {p : Piece} {ps : List Piece}
    (h : (scan bytes).1 = p :: ps) :
    ∃ b tail rest, bytes = b :: tail ∧ next? b tail = some (p, rest) ∧ (scan rest).1 = ps := by
  cases bytes with
  | nil =>
    rw [scan] at h
    cases h
  | cons b tail =>
    cases hnext : next? b tail with
    | none =>
      rw [scan] at h
      split at h
      · cases h
      · next hsome =>
        rw [hnext] at hsome
        cases hsome
    | some next =>
      obtain ⟨q, rest⟩ := next
      rw [scan_cons hnext] at h
      obtain ⟨rfl, rfl⟩ := List.cons.inj h
      exact ⟨b, tail, rest, rfl, hnext, rfl⟩

/-- Up to a piece that is not text, pieces are told by their own bytes. -/
theorem scan_cut {bytes : Bytes} {ps qs : List Piece} {p : Piece}
    (h : (scan bytes).1 = ps ++ p :: qs) (hp : ∀ body, p ≠ .text body) (more : Bytes) :
    (scan ((ps ++ [p]).flatMap (·.source) ++ more)).1 = ps ++ p :: (scan more).1 := by
  induction ps generalizing bytes with
  | nil =>
    obtain ⟨b, tail, rest, -, hnext, -⟩ := exists_next?_of_scan h
    have hb : b = 0x3C := by
      by_contra hb
      rw [next?, if_neg hb] at hnext
      exact hp _ (Prod.mk.inj (Option.some.inj hnext)).1.symm
    have hsource : ([] ++ [p]).flatMap source = p.source := by simp
    rw [hsource, scan_of_next? hnext (.inl hb)]
    rfl
  | cons q ps ih =>
    obtain ⟨b, tail, rest, -, hnext, hrest⟩ := exists_next?_of_scan h
    have hmore : b = 0x3C ∨
        Text.Ends (· != 0x3C) ((ps ++ [p]).flatMap (·.source) ++ more) := by
      by_cases hb : b = 0x3C
      · exact .inl hb
      · -- a text ends in front of `<`, so the pieces behind it begin with `<`
        rw [next?, if_neg hb] at hnext
        obtain ⟨-, rfl⟩ := Prod.mk.inj (Option.some.inj hnext)
        obtain ⟨unread, hunread, -⟩ := source_scan (tail.dropWhile (· != 0x3C))
        have hsplit : (ps ++ [p]).flatMap (·.source) ++ (qs.flatMap (·.source) ++ unread)
            = tail.dropWhile (· != 0x3C) := by
          rw [← hunread, hrest]
          simp
        have hne : (ps ++ [p]).flatMap (·.source) ≠ [] := by
          rw [List.flatMap_append]
          exact List.append_ne_nil_of_right_ne_nil _ (by simpa using source_ne_nil hp)
        have hends := Text.ends_dropWhile (· != 0x3C) tail
        rw [← hsplit] at hends
        exact .inr ((hends.of_append hne).append hne more)
    rw [List.cons_append, List.flatMap_cons, List.append_assoc, scan_of_next? hnext hmore]
    exact congrArg (q :: ·) (ih hrest)

end Piece

/-- Pieces whose names match are met before what follows them. -/
theorem events_append {ps : List Piece} {names names' : List Bytes}
    (h : namesBehind names ps = some names') (t : Tracker) (ending : Ending) (more : List Piece) :
    (events t names ending (ps ++ more)).1
      = tracked t ps ++ (events (t.behind ps) names' ending more).1 := by
  induction ps generalizing t names with
  | nil =>
    cases h
    rfl
  | cons p ps ih =>
    rw [namesBehind, List.foldlM_cons, Option.bind_eq_bind, Option.bind_eq_some_iff] at h
    obtain ⟨names'', hp, hps⟩ := h
    rw [List.cons_append, events_cons hp, ih hps]
    rfl

/-- A byte order mark is told by the first three bytes. -/
theorem unmarked_cut {bytes shown rest : Bytes} (h : unmarked bytes = shown ++ rest)
    (hlength : 3 ≤ shown.length) (more : Bytes) :
    unmarked (bytes.take (bytes.length - (unmarked bytes).length + shown.length) ++ more)
      = shown ++ more := by
  by_cases hmark : Tracker.byteOrderMark <+: bytes
  · obtain ⟨body, rfl⟩ := hmark
    rw [unmarked_append] at h ⊢
    subst h
    have htake : (Tracker.byteOrderMark ++ (shown ++ rest)).take
        ((Tracker.byteOrderMark ++ (shown ++ rest)).length - (shown ++ rest).length + shown.length)
        = Tracker.byteOrderMark ++ shown := by
      rw [List.length_append, Nat.add_sub_cancel, ← List.append_assoc, ← List.length_append,
        List.take_left]
    rw [htake, List.append_assoc, unmarked_append]
  · rw [unmarked_eq_self hmark] at h ⊢
    subst h
    rw [Nat.sub_self, Nat.zero_add, List.take_left]
    refine unmarked_eq_self fun hfront => hmark ?_
    have hlength : Tracker.byteOrderMark.length ≤ shown.length := hlength
    rw [Text.prefix_append_iff hlength] at hfront ⊢
    exact hfront

private theorem IsElement.exists_concat {element : List Piece} (h : IsElement element) :
    ∃ ps p, element = ps ++ [p] ∧ ∀ body, p ≠ .text body := by
  cases h with
  | empty body => exact ⟨[], _, rfl, nofun⟩
  | full => exact ⟨_ :: _, _, rfl, nofun⟩

private theorem IsElement.three_le_length {element : List Piece} (h : IsElement element) :
    3 ≤ (element.flatMap (·.source)).length := by
  cases h with
  | empty body => simp [Piece.source]
  | full =>
    simp [Piece.source]
    omega

namespace Matched

variable {bytes : Bytes} {place : Position} (m : Matched bytes place)

/-- The pieces up to the end of the element. -/
def shown : List Piece :=
  m.front.map (·.piece) ++ m.element

/-- How many bytes there are up to the end of the element. -/
def finish : Nat :=
  bytes.length - (unmarked bytes).length + (m.shown.flatMap (·.source)).length

private theorem source_shown :
    m.shown.flatMap (·.source) = spelled m.front ++ m.element.flatMap (·.source) := by
  rw [shown, List.flatMap_append, List.flatMap_map]
  rfl

/-- The pieces up to the end of the element are met first. -/
theorem exists_read : ∃ rest later names, (Piece.scan (unmarked bytes)).1 = m.shown ++ rest ∧
    (eventsOf bytes).1 = tracked .started m.shown ++ later ∧
    namesBehind [] m.shown = some names := by
  obtain ⟨ps, unread, hscan, htracked, hnames, -⟩ :=
    events_eq_tracked .started [] (if (Piece.scan (unmarked bytes)).2 then .whole else .malformed)
      (Piece.scan (unmarked bytes)).1
  rw [← eventsOf_eq] at htracked
  have hps : ps = m.shown ++ m.rest := by
    rw [← map_piece_tracked .started ps, ← htracked, m.events_eq, List.map_append, List.map_cons,
      m.pieces_eq, shown, List.append_assoc]
  subst hps
  obtain ⟨names, hnames⟩ := Option.isSome_iff_exists.1 hnames
  obtain ⟨names', hshown, -⟩ := namesBehind_append.1 hnames
  rw [tracked_append] at htracked
  rw [List.append_assoc] at hscan
  exact ⟨_, _, names', hscan, htracked, hshown⟩

/-- The events of these pieces are those up to the tag and those of the rest of the element. -/
theorem exists_inside : ∃ inside, tracked .started m.shown = m.front ++ m.tag :: inside ∧
    m.tag.piece :: inside.map (·.piece) = m.element := by
  obtain ⟨-, later, -, -, hevents, -⟩ := m.exists_read
  have hpieces : (m.tag :: m.behind).map (·.piece) = m.element ++ m.rest := m.pieces_eq
  obtain ⟨own, after, hown, helement, -⟩ := List.map_eq_append_iff.1 hpieces
  rw [m.events_eq, hown, ← List.append_assoc] at hevents
  have hlength : (m.front ++ own).length = (tracked .started m.shown).length := by
    have hpieces : ((m.front ++ own).map (·.piece)).length
        = ((tracked .started m.shown).map (·.piece)).length := by
      rw [List.map_append, helement, map_piece_tracked]
      rfl
    rwa [List.length_map, List.length_map] at hpieces
  obtain ⟨hfront, -⟩ := List.append_inj hevents hlength
  cases own with
  | nil =>
    obtain ⟨p, ps, hcons, -⟩ := m.isElement.exists_tag
    rw [hcons] at helement
    cases helement
  | cons e inside =>
    obtain ⟨htag, -⟩ := List.cons.inj hown
    rw [← htag] at hfront helement
    exact ⟨inside, hfront.symm, helement⟩

private theorem unmarked_take_finish (more : Bytes) :
    unmarked (bytes.take m.finish ++ more) = m.shown.flatMap (·.source) ++ more := by
  obtain ⟨rest, -, -, hscan, -, -⟩ := m.exists_read
  obtain ⟨unread, hunread, -⟩ := Piece.source_scan (unmarked bytes)
  rw [hscan, List.flatMap_append, List.append_assoc] at hunread
  have hlength : 3 ≤ (m.shown.flatMap (·.source)).length := by
    rw [m.source_shown, List.length_append]
    exact Nat.le_add_left_of_le m.isElement.three_le_length
  exact unmarked_cut hunread.symm hlength more

/-- The element stands in the bytes cut behind it, whatever others are put there. -/
theorem exists_cut (more : Bytes) :
    ∃ m' : Matched (bytes.take m.finish ++ more) place,
      m'.front = m.front ∧ m'.element = m.element := by
  obtain ⟨rest, -, names, hscan, -, hnames⟩ := m.exists_read
  obtain ⟨inside, hinside, helement⟩ := m.exists_inside
  obtain ⟨ps, p, hconcat, hp⟩ := m.isElement.exists_concat
  have hshown : m.shown = (m.front.map (·.piece) ++ ps) ++ [p] := by
    rw [shown, hconcat, List.append_assoc]
  have hcut : (Piece.scan (unmarked (bytes.take m.finish ++ more))).1
      = m.shown ++ (Piece.scan more).1 := by
    rw [hshown, List.append_assoc, List.singleton_append] at hscan
    rw [m.unmarked_take_finish, hshown, Piece.scan_cut hscan hp]
    exact List.append_cons _ _ _
  obtain ⟨later, hevents⟩ : ∃ later,
      (eventsOf (bytes.take m.finish ++ more)).1 = m.front ++ m.tag :: (inside ++ later) := by
    rw [eventsOf_eq, hcut, events_append hnames, hinside, List.append_assoc, List.cons_append]
    exact ⟨_, rfl⟩
  have hpieces : m.tag.piece :: (inside ++ later).map (·.piece)
      = m.element ++ later.map (·.piece) := by
    rw [List.map_append, ← List.cons_append, helement]
  exact ⟨⟨m.front, m.tag, inside ++ later, hevents, m.place_eq, m.element, later.map (·.piece),
    hpieces, m.isElement⟩, rfl, rfl⟩

end Matched

/-- Nothing behind an element has a part in what is handed out for it. A text comes from an
element at the place, whose end is `finish` bytes behind the start. Whatever stands behind these
bytes, markup or not, text or not, or nothing at all, the same is handed out for the place. -/
theorem extract_cut (document : String) (line column : Nat) (bytes : Bytes) :
    (∀ text, extract document line column bytes = .ok text →
      Nonempty (Matched bytes ⟨line, column⟩)) ∧
    ∀ m : Matched bytes ⟨line, column⟩,
      unmarked (bytes.take m.finish) = spelled m.front ++ m.element.flatMap (·.source) ∧
      ∀ more, extract document line column (bytes.take m.finish ++ more)
        = extract document line column bytes := by
  refine ⟨fun text => exists_matched, fun m => ⟨?_, fun more => ?_⟩⟩
  · have hcut := m.unmarked_take_finish []
    rwa [List.append_nil, List.append_nil, m.source_shown] at hcut
  · obtain ⟨m', hfront, helement⟩ := m.exists_cut more
    have hcut := m'.extract_eq document
    rw [hfront, helement, ← m.extract_eq document] at hcut
    exact hcut

/-- Neither the tag that is not closed nor the byte that is no character is read. -/
example :
    extract "a.xsd" 1 4 (Text.toBytes "<r><s>x</s>" ++ [0x3C, 0xFF]) = .ok "<s>x</s>" := by
  decide +kernel

end XsdCatalog.Fragment
