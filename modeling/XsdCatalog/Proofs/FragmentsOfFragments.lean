import XsdCatalog.Proofs.CarriageReturns
import XsdCatalog.Proofs.TrailingDeclarations

/-!
# Fragments of fragments

What is handed out for an element is a document of its own, and what is handed out for its first
character is the same text again, as long as the declarations that were put in its first tag leave
it a tag of its kind.
-/

namespace XsdCatalog.Fragment

open Piece (reread Rereadable Told)
open Declaration (ofTag written)

variable {element ps : List Piece} {p : Piece} {bytes more : Bytes} {cs : List Char}

private theorem exists_source_of_isTag {p : Piece} (h : p.isTag = true) (ps : List Piece) :
    ∃ mark, p.source = 0x3C :: (tagBody (p :: ps) ++ mark) ∧ 0x3C ∉ mark := by
  cases p with
  | start body => exact ⟨_, rfl, by decide⟩
  | empty body => exact ⟨_, rfl, by decide⟩
  | _ => cases h

/-- The first tag of bytes is at their first character, and reading goes on behind it. -/
theorem exists_first_event (hscan : Piece.scan bytes = (p :: ps, true)) (htag : p.isTag = true)
    (hopen : 0x3C ∉ tagBody (p :: ps)) :
    ∃ t names, p.names? [] = some names ∧
      (eventsOf bytes).1 = ⟨p, ⟨1, 1⟩⟩ :: (events t names .whole ps).1 := by
  obtain ⟨mark, hsource, hmark⟩ := exists_source_of_isTag htag ps
  have htail := List.not_mem_append hopen hmark
  have hunmarked : unmarked bytes = bytes := by
    obtain ⟨unread, hspelled, -⟩ := Piece.source_scan bytes
    rw [hscan, List.flatMap_cons, hsource] at hspelled
    apply unmarked_eq_self
    rw [← hspelled]
    exact fun hp => absurd (List.cons_prefix_cons.1 hp).1 (by decide)
  have hplace : (Tracker.started.consume p.source).lastTag = ⟨1, 1⟩ := by
    rw [hsource, Tracker.consume_of_started rfl]
    exact Tracker.lastTag_foldl_step_of_split [] htail
  obtain ⟨names, hnames⟩ : ∃ names, p.names? [] = some names := by
    cases p with
    | start body => exact ⟨_, rfl⟩
    | empty body => exact ⟨_, rfl⟩
    | _ => cases htag
  refine ⟨Tracker.started.consume p.source, names, hnames, ?_⟩
  rw [eventsOf_eq, hunmarked, hscan, events_cons hnames, hplace]
  rfl

private theorem namesBehind_of_balanced {ps : List Piece} (h : Balanced ps) (names : List Bytes) :
    namesBehind names ps = some names := by
  induction h generalizing names with
  | nil => rfl
  | flat hp _ ih =>
    rw [namesBehind_cons (names?_of_flat hp names)]
    exact ih names
  | @element body last inner ps _ hlast _ ihInner ihRest =>
    rw [namesBehind_cons rfl]
    refine namesBehind_append.2 ⟨_, ihInner _, ?_⟩
    have hclosed : (Piece.stop last).names? (Piece.tagName body :: names) = some names :=
      if_pos hlast
    rw [namesBehind_cons hclosed]
    exact ihRest names

private theorem IsElement.namesBehind_eq (h : IsElement element) :
    namesBehind [] element = some [] := by
  cases h with
  | empty body => rfl
  | full hinner hlast => exact namesBehind_of_balanced (.element hinner hlast .nil) []

private theorem IsElement.inheriting_nil (h : IsElement element) :
    inheriting [] element = element := by
  cases h with
  | empty body => exact congrArg (fun body => [Piece.empty body]) (List.append_nil body)
  | @full body last inner =>
    exact congrArg (fun body => Piece.start body :: (inner ++ [.stop last])) (List.append_nil body)

/-- Bytes that are read as one element have it at their first character. -/
theorem extract_of_scan (h : IsElement element) (hopen : 0x3C ∉ tagBody element)
    (hscan : Piece.scan bytes = (element, true)) (document : String) :
    extract document 1 1 bytes = render element := by
  obtain ⟨p, ps, rfl, htag⟩ := h.exists_tag
  obtain ⟨t, names, hnames, hevents⟩ := exists_first_event hscan htag hopen
  have hclosed : namesBehind names ps = some [] := by
    rw [← namesBehind_cons hnames]
    exact h.namesBehind_eq
  have htracked := events_append hclosed t .whole []
  rw [List.append_nil] at htracked
  rw [htracked] at hevents
  have hpieces : p :: (tracked t ps ++ []).map Event.piece = (p :: ps) ++ [] := by
    rw [List.append_nil, map_piece_tracked, List.append_nil]
  let m : Matched bytes ⟨1, 1⟩ := ⟨[], _, _, hevents, rfl, p :: ps, [], hpieces, h⟩
  rw [m.extract_eq document]
  exact congrArg render h.inheriting_nil

/-- A text is handed out for pieces that are written as a text. -/
theorem exists_encode_of_render {ps : List Piece} {text : String} (h : render ps = .ok text) :
    ∃ cs, ps.flatMap (·.written) = Text.encode cs ∧ text = String.ofList (Text.unixLines cs) := by
  by_cases htext : ∃ cs, ps.flatMap (·.written) = Text.encode cs
  · obtain ⟨cs, hcs⟩ := htext
    rw [render_eq hcs] at h
    injection h with h
    exact ⟨cs, hcs, h.symm⟩
  · rw [render_of_not_encode htext] at h
    cases h

/-- The pieces that are read from a written text have the lines of what was written. -/
theorem exists_scan_unixLines (hread : ∀ p ∈ ps, Rereadable p)
    (hcs : ps.flatMap (·.written) = Text.encode cs) :
    ∃ qs, Piece.scan (Text.encode (Text.unixLines cs)) = (qs, true) ∧
      List.Forall₂ (SamePiece True) (reread ps) qs := by
  have hscan := Piece.scan_written hread
  rw [hcs] at hscan
  obtain ⟨hpieces, hwhole⟩ := (SameLines.encode_unixLines cs).scan
  rw [hscan] at hpieces hwhole
  exact ⟨_, Prod.ext rfl hwhole.symm, hpieces⟩

private theorem source_of_scan (hscan : Piece.scan bytes = (ps, true)) :
    ps.flatMap (·.source) = bytes := by
  obtain ⟨unread, hspelled, hwhole⟩ := Piece.source_scan bytes
  rw [hscan] at hspelled hwhole
  rwa [hwhole rfl, List.append_nil] at hspelled

/-- What an element is written as is read as the element, also with its line ends normalised. -/
theorem extract_of_rereadable (h : IsElement element) (hread : ∀ p ∈ element, Rereadable p)
    (hopen : 0x3C ∉ tagBody element) (hcs : element.flatMap (·.written) = Text.encode cs)
    (document : String) :
    extract document 1 1 (Text.encode (Text.unixLines cs))
      = .ok (String.ofList (Text.unixLines cs)) := by
  obtain ⟨qs, hscan, hpieces⟩ := exists_scan_unixLines hread hcs
  obtain ⟨hreread, hbody⟩ := h.reread
  obtain ⟨helement, hlines⟩ := hreread.same hpieces
  have hopen' : 0x3C ∉ tagBody qs := by
    rwa [← hlines.mem_iff (by decide), hbody]
  have hwritten : qs.flatMap (·.written) = Text.encode (Text.unixLines cs) := by
    rw [flatMap_written_same hpieces fun p => written_of_mem_reread, source_of_scan hscan]
  rw [extract_of_scan helement hopen' hscan, render_eq hwritten,
    Text.unixLines_of_not_mem (Text.not_mem_unixLines cs)]

private theorem exists_joinText (more : Bytes) (ps : List Piece) :
    ∃ behind qs, Piece.joinText more ps = .text (more ++ behind) :: qs ∧ (ps = [] → qs = []) := by
  cases ps with
  | nil => exact ⟨[], [], by rw [List.append_nil]; rfl, fun _ => rfl⟩
  | cons p ps =>
    cases p with
    | text body => exact ⟨body, ps, rfl, nofun⟩
    | _ => exact ⟨[], _, by rw [List.append_nil]; rfl, nofun⟩

/-- An empty tag in front of a text is all that is handed out of the two. -/
theorem extract_empty_ne {body : Bytes} (hscan : Piece.scan (Text.encode (Text.unixLines cs))
      = (.empty body :: .text more :: ps, true)) (hopen : 0x3C ∉ body) (hmore : more ≠ [])
    (document : String) :
    extract document 1 1 (Text.encode (Text.unixLines cs))
      ≠ .ok (String.ofList (Text.unixLines cs)) := by
  obtain ⟨t, names, -, hevents⟩ := exists_first_event hscan rfl hopen
  have hseek : seek ⟨1, 1⟩ [] (eventsOf (Text.encode (Text.unixLines cs))).1
      = .pieces [.empty (Declaration.withInherited [] body)] := by
    rw [hevents, seek, if_pos rfl]
    rfl
  rw [extract_of_seek (by decide) (by decide) hseek]
  intro h
  obtain ⟨ds, hds, htext⟩ := exists_encode_of_render h
  have hlines : Text.unixLines cs = Text.unixLines ds := String.ofList_injective htext
  have hlength := (SameLines.encode_unixLines ds).length_le
  have hbody : Declaration.withInherited [] body = body := List.append_nil body
  have hpos := List.length_pos_of_ne_nil hmore
  rw [← hlines, ← hds, ← source_of_scan hscan, hbody] at hlength
  have hwritten : (Piece.empty body).written = (Piece.empty body).source := rfl
  have hsource : (Piece.text more).source = more := rfl
  simp only [List.flatMap_cons, List.flatMap_nil, List.append_nil, hwritten, hsource,
    List.length_append] at hlength
  omega

/-- A start tag with nothing but a text behind it is not closed. -/
theorem extract_start_ne {body : Bytes} (hscan : Piece.scan bytes
      = ([.start body, .text more], true)) (hopen : 0x3C ∉ body) (document text : String) :
    extract document 1 1 bytes ≠ .ok text := by
  obtain ⟨t, names, -, hevents⟩ := exists_first_event hscan rfl hopen
  have hseek : seek ⟨1, 1⟩ [] (eventsOf bytes).1 = .unclosed := by
    rw [hevents, seek, if_pos rfl]
    rfl
  rw [extract_of_unclosed (by decide) (by decide) hseek]
  intro h
  cases h

private theorem exists_text_same {alone : Prop} {qs : List Piece}
    (h : List.Forall₂ (SamePiece alone) (.text more :: ps) qs) :
    ∃ more' rs, qs = .text more' :: rs ∧ SameLines alone more more' ∧
      List.Forall₂ (SamePiece alone) ps rs := by
  cases h with
  | cons htext hps =>
    cases htext with
    | text hmore => exact ⟨_, _, rfl, hmore, hps⟩

/-- Where the first tag is turned, another text or none is handed out for the first character. -/
theorem extract_of_turned (htag : p.isTag = true)
    (hread : ∀ q ∈ p :: .text more :: ps, Rereadable q) (hopen : 0x3C ∉ tagBody [p])
    (hcs : (p :: .text more :: ps).flatMap (·.written) = Text.encode cs)
    (hturned : (∃ body, p = .empty body) ∨ ps = []) (document : String) :
    extract document 1 1 (Text.encode (Text.unixLines cs))
      ≠ .ok (String.ofList (Text.unixLines cs)) := by
  obtain ⟨qs, hscan, hpieces⟩ := exists_scan_unixLines hread hcs
  obtain ⟨behind, rest, hjoin, hrest⟩ := exists_joinText more (reread ps)
  have hmore : more ++ behind ≠ [] := by
    have htext : Rereadable (.text more) := hread _ (List.mem_cons_of_mem p List.mem_cons_self)
    exact List.append_ne_nil_of_left_ne_nil htext.1 behind
  cases p with
  | empty body =>
    have hreread : reread (.empty body :: .text more :: ps)
        = .empty body :: .text (more ++ behind) :: rest := congrArg (_ :: ·) hjoin
    rw [hreread] at hpieces
    cases hpieces with
    | cons hempty hpieces =>
      cases hempty with
      | empty hbody =>
        obtain ⟨more', rs, rfl, htext, -⟩ := exists_text_same hpieces
        have hopen' := mt (hbody.mem_iff (by decide)).2 hopen
        exact extract_empty_ne hscan hopen' (mt htext.nil_iff.2 hmore) document
  | start body =>
    obtain rfl : ps = [] := hturned.resolve_left (by rintro ⟨_, ⟨⟩⟩)
    obtain rfl : rest = [] := hrest rfl
    have hreread : reread [.start body, .text more]
        = [.start body, .text (more ++ behind)] := congrArg (_ :: ·) hjoin
    rw [hreread] at hpieces
    cases hpieces with
    | cons hstart hpieces =>
      cases hstart with
      | start hbody =>
        obtain ⟨more', rs, rfl, -, hrs⟩ := exists_text_same hpieces
        cases hrs
        exact extract_start_ne hscan (mt (hbody.mem_iff (by decide)).2 hopen) document _
  | _ => cases htag

namespace Matched

variable {place : Position} (m : Matched bytes place)

/-- What the element inherits. -/
def inherited : List Declaration :=
  Declaration.missing (ofTag (tagBody m.element)) (scopesBehind (m.front.map (·.piece)))

private theorem told {p : Piece} (hp : p ∈ m.element) : Told p := by
  obtain ⟨rest, -, -, hscan, -, -⟩ := m.exists_read
  have hmem : p ∈ (Piece.scan (unmarked bytes)).1 := by
    rw [hscan]
    exact List.mem_append_left rest (List.mem_append_right _ hp)
  exact Piece.told_of_mem_scan hmem

/-- A tag whose place is that of its first character has no other `<`. -/
theorem not_mem_tagBody (hown : placeBehind (spelled m.front) = place) :
    0x3C ∉ tagBody m.element := by
  obtain ⟨head, tail, hsource, htail, hplace⟩ :=
    (eventsOf_spec bytes).1 m.front m.tag m.behind m.events_eq m.isTag
  obtain ⟨p, ps, helement, htag⟩ := m.isElement.exists_tag
  have hpieces := m.pieces_eq
  rw [helement, List.cons_append] at hpieces
  obtain ⟨mark, hbody, -⟩ := exists_source_of_isTag htag ps
  rw [← helement, ← (List.cons.inj hpieces).1, hsource] at hbody
  cases head with
  | nil =>
    have htail' : tail = tagBody m.element ++ mark := (List.cons.inj hbody).2
    intro hmem
    exact htail (htail' ▸ List.mem_append_left mark hmem)
  | cons b head =>
    -- the place would be that of a later `<`
    obtain ⟨rfl, -⟩ := List.cons.inj hbody
    have hbefore : (placeBehind (spelled m.front)).Before
        (placeBehind (spelled m.front ++ 0x3C :: head)) := placeBehind_before (by decide) _ head
    exact absurd (hown.trans (m.place_eq.symm.trans hplace)) hbefore.ne

end Matched

/-- What is handed out for an element is handed out again for its first character, if the place is
that of the tag's own `<` and the declarations that the element inherits hold no quotes and no `<`.
The only exception are declarations that do not leave the first tag a tag of its kind. -/
theorem extract_again {document : String} {line column : Nat} {bytes : Bytes} {text : String}
    (h : extract document line column bytes = .ok text) :
    Nonempty (Matched bytes ⟨line, column⟩) ∧
    ∀ m : Matched bytes ⟨line, column⟩, placeBehind (spelled m.front) = ⟨line, column⟩ →
      (∀ d ∈ m.inherited, d.Unquoted) → ∀ document',
        (extract document' 1 1 (Text.toBytes text) = .ok text
          ↔ ¬ TurnsTag m.inherited m.element) := by
  refine ⟨exists_matched h, ?_⟩
  intro m hown hinherited document'
  have hrender : render (extendTag (m.inherited.flatMap written) m.element) = .ok text := by
    rw [← h, m.extract_eq document, m.isElement.inheriting_eq]
    rfl
  obtain ⟨cs, hcs, htext⟩ := exists_encode_of_render hrender
  have hopen := m.not_mem_tagBody hown
  rw [htext, Text.toBytes_eq, String.toList_ofList]
  constructor
  · intro hagain hturned
    obtain ⟨p, more, ps, htag, hread, hfree, hwritten, hcases⟩ :=
      m.isElement.exists_turned (fun p => m.told) hopen hinherited hturned
    exact extract_of_turned htag hread hfree (hwritten.trans hcs) hcases document' hagain
  · intro hkept
    obtain ⟨element, helement, hread, hfree, hwritten⟩ :=
      m.isElement.exists_kept (fun p => m.told) hopen hinherited hkept
    exact extract_of_rereadable helement hread hfree (hwritten.trans hcs) document'

deriving instance DecidableEq for Event

/-- A return, a document type with two spaces and an end tag with a space in it. -/
def unevenBytes : Bytes :=
  Text.toBytes "<r xmlns:p='u'>\n<p:c>\r<!doctype  d></p:c ></r>"

/-- The inner element, which inherits a declaration. -/
def unevenElement : Matched unevenBytes ⟨2, 1⟩ where
  front := [⟨.start (ascii "r xmlns:p='u'"), ⟨1, 1⟩⟩, ⟨.text [0x0A], ⟨1, 1⟩⟩]
  tag := ⟨.start (ascii "p:c"), ⟨2, 1⟩⟩
  behind := [⟨.text [0x0D], ⟨2, 1⟩⟩, ⟨.doctype (ascii "doctype  d"), ⟨2, 7⟩⟩,
    ⟨.stop (ascii "p:c "), ⟨2, 20⟩⟩, ⟨.stop (ascii "r"), ⟨2, 27⟩⟩]
  events_eq := by decide +kernel
  place_eq := rfl
  element := .start (ascii "p:c")
    :: ([.text [0x0D], .doctype (ascii "doctype  d")] ++ [.stop (ascii "p:c ")])
  rest := [.stop (ascii "r")]
  pieces_eq := rfl
  isElement := by
    have hinner : Balanced [.text [0x0D], .doctype (ascii "doctype  d")] :=
      .flat trivial (.flat trivial .nil)
    exact .full hinner (by decide)

/-- Return, spaces and keyword are written in another way, and read again as they are written. -/
theorem extract_again_unevenElement :
    let text := "<p:c xmlns:p=\"u\">\n<!DOCTYPE d></p:c>"
    placeBehind (spelled unevenElement.front) = ⟨2, 1⟩ ∧
      (∀ d ∈ unevenElement.inherited, d.Unquoted) ∧
      ¬ TurnsTag unevenElement.inherited unevenElement.element ∧
      extract "a.xsd" 2 1 unevenBytes = .ok text ∧
      extract "b.xsd" 1 1 (Text.toBytes text) = .ok text := by
  intro text
  have hown : placeBehind (spelled unevenElement.front) = ⟨2, 1⟩ := by decide +kernel
  have hinherited : ∀ d ∈ unevenElement.inherited, d.Unquoted := by decide +kernel
  have hkept : ¬ (beforeClose? unevenElement.inherited).bind List.getLast? = some 0x2F := by
    decide +kernel
  have h : extract "a.xsd" 2 1 unevenBytes = .ok text := by decide +kernel
  exact ⟨hown, hinherited, hkept, h,
    ((extract_again h).2 unevenElement hown hinherited "b.xsd").2 hkept⟩

/-- An empty tag that inherits a key with a `>`. A key that has stood in the tag already is passed
over together with the quote behind it. -/
def turnedEmptyTag : Matched (Text.toBytes "<r a='' a=' xmlns:p>=\"v\" '><c/></r>") ⟨1, 28⟩ where
  front := [⟨.start (ascii "r a='' a=' xmlns:p>=\"v\" '"), ⟨1, 1⟩⟩]
  tag := ⟨.empty (ascii "c"), ⟨1, 28⟩⟩
  behind := [⟨.stop (ascii "r"), ⟨1, 32⟩⟩]
  events_eq := by decide +kernel
  place_eq := rfl
  element := [.empty (ascii "c")]
  rest := [.stop (ascii "r")]
  pieces_eq := rfl
  isElement := .empty _

/-- A start tag that inherits a key with a slash in front of a `>`. -/
def turnedStartTag :
    Matched (Text.toBytes "<r a='' a=' xmlns:p/>=\"v\" '><c></c></r>") ⟨1, 29⟩ where
  front := [⟨.start (ascii "r a='' a=' xmlns:p/>=\"v\" '"), ⟨1, 1⟩⟩]
  tag := ⟨.start (ascii "c"), ⟨1, 29⟩⟩
  behind := [⟨.stop (ascii "c"), ⟨1, 32⟩⟩, ⟨.stop (ascii "r"), ⟨1, 36⟩⟩]
  events_eq := by decide +kernel
  place_eq := rfl
  element := .start (ascii "c") :: ([] ++ [.stop (ascii "c")])
  rest := [.stop (ascii "r")]
  pieces_eq := rfl
  isElement := .full .nil (by decide)

/-- The first one is not closed when it is read again, of the second one only the tag is left. -/
theorem extract_turned_tags :
    (placeBehind (spelled turnedEmptyTag.front) = ⟨1, 28⟩ ∧
      (∀ d ∈ turnedEmptyTag.inherited, d.Unquoted) ∧
      extract "a.xsd" 1 28 (Text.toBytes "<r a='' a=' xmlns:p>=\"v\" '><c/></r>")
        = .ok "<c xmlns:p>=\"v\"/>" ∧
      extract "b.xsd" 1 1 (Text.toBytes "<c xmlns:p>=\"v\"/>") = .error (.markup unexpectedEnd)) ∧
    (placeBehind (spelled turnedStartTag.front) = ⟨1, 29⟩ ∧
      (∀ d ∈ turnedStartTag.inherited, d.Unquoted) ∧
      extract "a.xsd" 1 29 (Text.toBytes "<r a='' a=' xmlns:p/>=\"v\" '><c></c></r>")
        = .ok "<c xmlns:p/>=\"v\"></c>" ∧
      extract "b.xsd" 1 1 (Text.toBytes "<c xmlns:p/>=\"v\"></c>") = .ok "<c xmlns:p/>") := by
  decide +kernel

end XsdCatalog.Fragment
