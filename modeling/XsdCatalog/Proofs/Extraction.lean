import XsdCatalog.Proofs.LineEnds
import XsdCatalog.Proofs.Seeking

/-!
# What is handed out

The element at a place is handed out as it is spelled, with declarations behind its first tag's own
content, without spaces in end tags and with normalised line ends.
-/

namespace XsdCatalog

open Text (encode)
open Fragment (Bytes Declaration)

namespace Text

/-- Bytes that characters encode. -/
def Encodes (bytes : Bytes) : Prop :=
  ∃ cs, encode cs = bytes

private theorem Encodes.append {bs cs : Bytes} (hb : Encodes bs) (hc : Encodes cs) :
    Encodes (bs ++ cs) := by
  obtain ⟨bs, rfl⟩ := hb
  obtain ⟨cs, rfl⟩ := hc
  exact ⟨bs ++ cs, encode_append bs cs⟩

private theorem Encodes.takeWhile {bs : Bytes} {p : UInt8 → Bool} {q : Char → Bool}
    (h : Mirrors p q) (hb : Encodes bs) : Encodes (bs.takeWhile p) := by
  obtain ⟨bs, rfl⟩ := hb
  exact ⟨_, (h.span bs).1.symm⟩

theorem Encodes.dropWhile {bs : Bytes} {p : UInt8 → Bool} {q : Char → Bool}
    (h : Mirrors p q)
    (hb : Encodes bs) : Encodes (bs.dropWhile p) := by
  obtain ⟨bs, rfl⟩ := hb
  exact ⟨_, (h.span bs).2.symm⟩

/-- Behind its first byte a character goes on with bytes that pass every test it passes. -/
theorem Encodes.span {b : UInt8} {bs : Bytes} {p : UInt8 → Bool} {q : Char → Bool}
    (h : Mirrors p q) (hq : ∀ c : Char, 128 ≤ c.toNat → q c = true) (hb : Encodes (b :: bs)) :
    Encodes (b :: bs.takeWhile p) ∧ Encodes (bs.dropWhile p) := by
  obtain ⟨cs, hcs⟩ := hb
  cases cs with
  | nil => cases hcs
  | cons c cs =>
    have hspan := h.span cs
    by_cases hlt : c.toNat < 128
    · rw [encode_cons_of_lt hlt] at hcs
      injection hcs with hb hbs
      rw [← hbs, hspan.1, hspan.2, ← hb, ← encode_cons_of_lt hlt]
      exact ⟨⟨_, rfl⟩, ⟨_, rfl⟩⟩
    · obtain ⟨b', bs', hc, -, -⟩ := utf8EncodeChar_of_le (Nat.le_of_not_lt hlt)
      have hall : ∀ x ∈ bs', p x = true := fun x hx => by
        rw [h c x (hc ▸ List.mem_cons_of_mem b' hx), hq c (Nat.le_of_not_lt hlt)]
      rw [encode_cons, hc] at hcs
      injection hcs with hb hbs
      have hbs : bs = bs' ++ encode cs := hbs.symm
      rw [hbs, List.takeWhile_append_of_pos hall, List.dropWhile_append_of_pos hall, hspan.1,
        hspan.2, ← hb, ← List.cons_append, ← hc, ← encode_cons]
      exact ⟨⟨_, rfl⟩, ⟨_, rfl⟩⟩

private theorem Encodes.tail {a : Char} {bs : Bytes} (ha : a.toNat < 128)
    (h : Encodes (a.toUInt8 :: bs)) : Encodes bs := by
  obtain ⟨cs, hcs⟩ := h
  cases cs with
  | nil => cases hcs
  | cons c cs =>
    obtain ⟨b, bs', hb, hne⟩ := exists_encode_cons c cs
    rw [hb] at hcs
    injection hcs with hfirst hbs
    have hc : c = a := by
      by_contra hc
      exact hne ha hc hfirst
    subst hc
    rw [encode_cons_of_lt ha] at hb
    injection hb with _ hb
    exact ⟨cs, hb.trans hbs⟩

end Text

namespace Fragment.Declaration

open Text (Encodes Mirrors)

/-- A declaration whose key and value are characters. -/
def Readable (d : Declaration) : Prop :=
  Encodes d.key ∧ Encodes d.value

theorem mirrors_key : Mirrors (fun b => b != 0x3D && !isSpace b)
    (fun c => c != '=' && !Markup.isSpace c) :=
  (Text.mirrors_beq (by decide : ('=').toNat < 128)).not.and Text.mirrors_isSpace.not

private theorem not_isSpace_of_le (c : Char) (h : 128 ≤ c.toNat) : (!Markup.isSpace c) = true := by
  rw [Bool.not_eq_true', Bool.eq_false_iff]
  intro hs
  rcases Markup.Cursor.isSpace_iff.1 hs with rfl | rfl | rfl | rfl <;> exact absurd h (by decide)

private theorem isKey_of_le (c : Char) (h : 128 ≤ c.toNat) :
    (c != '=' && !Markup.isSpace c) = true := by
  rw [not_isSpace_of_le c h, Bool.and_true, bne_iff_ne]
  rintro rfl
  exact absurd h (by decide)

private theorem encodes_value? {bytes after : Bytes} {value : Option Bytes} (h : Encodes bytes)
    (hv : value? bytes = some (value, after)) :
    Encodes after ∧ ∀ v ∈ value, Encodes v := by
  rw [value?] at hv
  have hstart := h.dropWhile Text.mirrors_isSpace
  split at hv
  · cases hv
  · next q rest hq =>
    rw [hq] at hstart
    split at hv
    · next hquote =>
      obtain ⟨a, ha, hqa⟩ : ∃ a : Char, a.toNat < 128 ∧ q = a.toUInt8 := by
        rcases hquote with rfl | rfl
        · exact ⟨'"', by decide, by decide⟩
        · exact ⟨'\'', by decide, by decide⟩
      subst hqa
      have hrest := hstart.tail ha
      have hmirrors : Mirrors (· != a.toUInt8) (· != a) := (Text.mirrors_beq ha).not
      have hbehind := hrest.dropWhile hmirrors
      split at hv
      · cases hv
      · next b after' hb =>
        cases hv
        have hends : Text.Ends (· != a.toUInt8) (b :: after) := hb ▸ Text.ends_dropWhile _ rest
        have hb' : b = a.toUInt8 := bne_eq_false_iff_eq.1 hends
        rw [hb, hb'] at hbehind
        refine ⟨hbehind.tail ha, fun v hv => ?_⟩
        cases hv
        exact hrest.takeWhile hmirrors
    · cases hv
      exact ⟨(hstart.span Text.mirrors_isSpace.not not_isSpace_of_le).2, nofun⟩

private theorem readable_attributes (seen : List Bytes) {bytes : Bytes} (h : Encodes bytes) :
    ∀ d ∈ attributes seen bytes, d.Readable := by
  have hkey {bytes rest : Bytes} {b : UInt8} (h : Encodes bytes)
      (hb : bytes.dropWhile isSpace = b :: rest) :
      Encodes (b :: rest.takeWhile fun b => b != 0x3D && !isSpace b) ∧
        Encodes ((rest.dropWhile fun b => b != 0x3D && !isSpace b).dropWhile isSpace) := by
    have hspan := (hb ▸ h.dropWhile Text.mirrors_isSpace : Encodes (b :: rest)).span mirrors_key
      isKey_of_le
    exact ⟨hspan.1, hspan.2.dropWhile Text.mirrors_isSpace⟩
  have hequals {behind : Bytes} (h : Encodes (0x3D :: behind)) : Encodes behind :=
    h.tail (by decide : ('=').toNat < 128)
  fun_induction attributes seen bytes with
  | case1 => exact nofun
  | case2 => exact nofun
  | case3 seen bytes b rest hb key behind hseen hk ih =>
    exact ih ((hequals (hk ▸ (hkey h hb).2)).dropWhile Text.mirrors_isSpace.not)
  | case4 => exact nofun
  | case5 seen bytes b rest hb key behind hseen value after hv hk ih =>
    obtain ⟨hafter, hvalue⟩ := encodes_value? (hequals (hk ▸ (hkey h hb).2)) hv
    intro d hd
    rcases List.mem_append.1 hd with hd | hd
    · obtain ⟨v, hv, rfl⟩ := Option.map_eq_some_iff.1 (Option.mem_toList.1 hd)
      exact ⟨(hkey h hb).1, hvalue v hv⟩
    · exact ih hafter d hd
  | case6 seen bytes b rest hb c behind hk hne ih => exact ih (hk ▸ (hkey h hb).2)

private theorem readable_ofTag (cs : List Char) : ∀ d ∈ ofTag (Text.encode cs), d.Readable := by
  intro d hd
  have hbody : Encodes ((Text.encode cs).dropWhile (!isSpace ·)) :=
    Encodes.dropWhile Text.mirrors_isSpace.not ⟨cs, rfl⟩
  exact readable_attributes [] hbody d (List.mem_of_mem_filter hd)

private theorem mem_of_mem_put {ds : List Declaration} {d e : Declaration} (h : e ∈ put ds d) :
    e ∈ ds ∨ e = d := by
  rw [put] at h
  split at h
  · obtain ⟨e', he', rfl⟩ := List.mem_map.1 h
    split
    · exact .inr rfl
    · exact .inl he'
  · exact (List.mem_append.1 h).imp_right List.mem_singleton.1

theorem mem_of_mem_inForce {scopes : List (List Declaration)} {e : Declaration}
    (h : e ∈ inForce scopes) : ∃ scope ∈ scopes, e ∈ scope := by
  have hfold (ds es : List Declaration) (h : e ∈ ds.foldl put es) : e ∈ ds ∨ e ∈ es := by
    induction ds generalizing es with
    | nil => exact .inr h
    | cons d ds ih =>
      rcases ih (put es d) h with h | h
      · exact .inl (List.mem_cons_of_mem d h)
      · rcases mem_of_mem_put h with h | rfl
        · exact .inr h
        · exact .inl List.mem_cons_self
  rcases hfold _ _ h with h | h
  · exact List.mem_flatten.1 h
  · cases h

private theorem encodes_written {d : Declaration} (h : d.Readable) : Encodes (written d) := by
  have hopen : Encodes (ascii "=\"") := ⟨['=', '"'], by decide⟩
  have hclose : Encodes (ascii "\"") := ⟨['"'], by decide⟩
  have hspace : Encodes [0x20] := ⟨[' '], by decide⟩
  exact hspace.append (((h.1.append hopen).append h.2).append hclose)

end Fragment.Declaration

namespace Fragment

open Text (Encodes)

/-- The bytes of the declarations that the tag of an element is given. -/
def inherited (ancestors : List Markup.StartTag) (t : Markup.StartTag) : Bytes :=
  (Declaration.missing (scopeOf t) (ancestors.map scopeOf).reverse).flatMap Declaration.written

theorem encodes_inherited (ancestors : List Markup.StartTag) (t : Markup.StartTag) :
    Encodes (inherited ancestors t) := by
  have hreadable : ∀ d ∈ Declaration.missing (scopeOf t) (ancestors.map scopeOf).reverse,
      d.Readable := by
    intro d hd
    obtain ⟨scope, hscope, hd⟩ := Declaration.mem_of_mem_inForce (List.mem_of_mem_filter hd)
    obtain ⟨s, -, rfl⟩ := List.mem_map.1 (List.mem_reverse.1 hscope)
    exact Declaration.readable_ofTag _ d hd
  rw [inherited]
  generalize Declaration.missing (scopeOf t) (ancestors.map scopeOf).reverse = ds at hreadable
  induction ds with
  | nil => exact ⟨[], rfl⟩
  | cons d ds ih =>
    rw [List.flatMap_cons]
    exact (Declaration.encodes_written (hreadable d List.mem_cons_self)).append
      (ih fun e he => hreadable e (List.mem_cons_of_mem d he))

end Fragment

namespace Markup

/-- The lexeme without spaces in an end tag. -/
def Lexeme.tight : Lexeme → Lexeme
  | stop name _ => stop name ⟨[], nofun⟩
  | l => l

/-- The element with more behind the content of its first tag, and without spaces in end tags. -/
def Element.extended (more : List Char) : Element → List Char
  | empty t => '<' :: (t.body ++ more ++ ['/', '>'])
  | full t inner name gap =>
    '<' :: (t.body ++ more ++ '>' :: Lexeme.spell
      ((inner.lexemes ++ [Lexeme.stop name gap]).map Lexeme.tight))

private theorem written_piece (l : Lexeme) : l.piece.written = encode l.tight.chars := by
  cases l with
  | stop name gap =>
    show 0x3C :: 0x2F :: Fragment.Piece.stopName (encode (name.chars ++ gap.1)) ++ [0x3E] = _
    rw [Fragment.stopName_encode]
    show _ = encode ('<' :: '/' :: (name.chars ++ ['>']))
    rw [Text.encode_cons_of_lt (by decide), Text.encode_cons_of_lt (by decide),
      Text.encode_append]
    rfl
  | start t => exact (Lexeme.start t).source_piece
  | empty t => exact (Lexeme.empty t).source_piece
  | mark m =>
    have hsource := (Lexeme.mark m).source_piece
    cases m <;> exact hsource

private theorem written_pieces (ls : List Lexeme) :
    (ls.map (·.piece)).flatMap (·.written) = encode (Lexeme.spell (ls.map Lexeme.tight)) := by
  rw [Lexeme.spell, List.flatMap_map, List.flatMap_map, Text.encode_flatMap]
  exact List.flatMap_congr fun l _ => written_piece l

end Markup

namespace Fragment

private theorem written_piecesOf (e : Markup.Element) (more : List Char) :
    (piecesOf (encode (e.tag.body ++ more)) e).flatMap (·.written)
      = encode (e.extended more) := by
  cases e with
  | empty t =>
    show 0x3C :: encode (t.body ++ more) ++ [0x2F, 0x3E] ++ [] = _
    rw [Markup.Element.extended, Text.encode_cons_of_lt (by decide),
      Text.encode_append _ ['/', '>'], List.append_nil]
    rfl
  | full t inner name gap =>
    have hinner := Markup.written_pieces (inner.lexemes ++ [.stop name gap])
    rw [List.map_append] at hinner
    show 0x3C :: encode (t.body ++ more) ++ [0x3E]
      ++ (inner.lexemes.map (·.piece) ++ [(Markup.Lexeme.stop name gap).piece]).flatMap (·.written) = _
    rw [show [(Markup.Lexeme.stop name gap).piece]
      = [Markup.Lexeme.stop name gap].map (·.piece) from rfl, hinner, Markup.Element.extended,
      Text.encode_cons_of_lt (by decide), Text.encode_append _ ('>' :: _),
      Text.encode_cons_of_lt (by decide)]
    simp
    decide

theorem render_eq {ps : List Piece} {cs : List Char}
    (h : ps.flatMap (·.written) = encode cs) :
    render ps = .ok (String.ofList (Text.unixLines cs)) := by
  have htext : Text.ofBytes? (ps.flatMap (·.written)) = some (String.ofList cs) := by
    rw [Text.ofBytes?_eq_some_iff, h, String.toList_ofList]
  rw [render]
  simp only [htext, Text.normalizeLineEnds_eq, String.toList_ofList]

theorem extract_of_seek {line column : Nat} {bytes : Bytes} {ps : List Piece} (hline : line ≠ 0)
    (hcolumn : column ≠ 0) (h : seek ⟨line, column⟩ [] (eventsOf bytes).1 = .pieces ps)
    (document : String) : extract document line column bytes = render ps := by
  rw [extract, if_neg (by omega)]
  simp only [h]

/-- The element at a place in a document is handed out with the declarations that it inherits. -/
theorem extract_element {s : String} {before after : List Char}
    {front back : List Markup.Lexeme} {root e : Markup.Element}
    (hs : (Text.dropByteOrderMark s).toList = before ++ (root.chars ++ after))
    (hinert : Markup.Inert before) (hapart : Markup.Lexeme.Apart root.lexemes)
    (hroot : root.lexemes = front ++ (e.lexemes ++ back))
    (halike : Markup.Lexeme.Alike [] (front ++ e.lexemes)) {more : List Char}
    (hmore : encode more = inherited (Markup.Lexeme.opened [] front) e.tag) (document : String) :
    extract document
        (Position.start.after (before ++ Markup.Lexeme.spell front)).line
        (Position.start.after (before ++ Markup.Lexeme.spell front)).column (encode s.toList)
      = .ok (String.ofList (Text.unixLines (e.extended more))) := by
  let started : Tracker := { atStart := false }
  let ending : Ending :=
    if (Piece.scan (encode (Text.dropByteOrderMark s).toList)).2 then .whole else .malformed
  have hroot' : Text.Ends (· != '<') (root.chars ++ after) := by
    obtain ⟨x, cs, hx, -⟩ := root.exists_chars
    rw [hx]
    rfl
  obtain ⟨ps, hps, hsilent, hsource⟩ := Piece.scan_inert hinert hroot'
  have hscan : (Piece.scan (encode (Text.dropByteOrderMark s).toList)).1
      = ps ++ ((front ++ e.lexemes).map (·.piece)
        ++ (back.map (·.piece) ++ (Piece.scan (encode after)).1)) := by
    rw [hs, hps, Markup.Element.chars, Markup.Lexeme.scan_spell hapart (root.fits_last after),
      hroot]
    simp
  obtain ⟨hposition, hstarted⟩ := behind_of_source (t := started) rfl hsource
  obtain ⟨hplace, hstarted'⟩ := behind_of_source hstarted (source_pieces front)
  have hplace : ((started.behind ps).behind (front.map (·.piece))).position
      = Position.start.after (before ++ Markup.Lexeme.spell front) := by
    rw [hplace, hposition, Position.after_append]
  have hevents : ∃ rest, (eventsOf (encode s.toList)).1
      = tracked started ps ++ (tracked (started.behind ps) (front.map (·.piece))
        ++ (tracked ((started.behind ps).behind (front.map (·.piece))) (e.lexemes.map (·.piece))
          ++ rest)) := by
    rw [eventsOf_encode, hscan]
    show ∃ rest, (events started (([] : List Markup.StartTag).map nameOf) ending _).1 = _
    rw [events_silent hsilent, events_spell halike, List.map_append, tracked_append]
    exact ⟨_, by rw [List.append_assoc]⟩
  obtain ⟨rest, hevents⟩ := hevents
  generalize hstack : Markup.Lexeme.opened [] front = ancestors at hmore
  have hbody : Declaration.withInherited (ancestors.map scopeOf).reverse (encode e.tag.body)
      = encode (e.tag.body ++ more) := by
    rw [Text.encode_append, hmore]
    rfl
  have hseek : seek (Position.start.after (before ++ Markup.Lexeme.spell front)) []
      (eventsOf (encode s.toList)).1 = .pieces (piecesOf (encode (e.tag.body ++ more)) e) := by
    rw [hevents, seek_silent hsilent, ← hplace]
    have hfront := seek_spell hstarted (behind_of_source hstarted (source_pieces front)).1 []
      (tracked ((started.behind ps).behind (front.map (·.piece))) (e.lexemes.map (·.piece)) ++ rest)
    rw [List.map_nil, hstack] at hfront
    rw [hfront, seek_element hstarted' e, hbody]
  have hvalid := Position.after_valid (before ++ Markup.Lexeme.spell front)
  rw [extract_of_seek hvalid.1 hvalid.2 hseek]
  exact render_eq (written_piecesOf e more)

end Fragment

end XsdCatalog
