import XsdCatalog.Proofs.DocumentShape
import XsdCatalog.Proofs.Encoding

/-!
# Lexemes as pieces

In the bytes of a document each lexeme is a piece of its own, and what stands around the root is cut
into pieces that open and close nothing.
-/

namespace XsdCatalog

open Text (encode)

namespace Fragment.Piece

/-- Bytes that are passed over when the end of a tag is looked for. -/
def Quiet (bytes : Bytes) : Prop :=
  ∀ seen rest, splitTag none seen (bytes ++ rest) = splitTag none (bytes.reverse ++ seen) rest

private theorem quiet_nil : Quiet [] := fun _ _ => rfl

private theorem Quiet.append {bs cs : Bytes} (hb : Quiet bs) (hc : Quiet cs) :
    Quiet (bs ++ cs) := by
  intro seen rest
  rw [List.append_assoc, hb, hc, List.reverse_append, List.append_assoc]

private theorem quiet_plain {bytes : Bytes} (h : ∀ b ∈ bytes, b ≠ 0x3E ∧ b ≠ 0x22 ∧ b ≠ 0x27) :
    Quiet bytes := by
  induction bytes with
  | nil => exact quiet_nil
  | cons b bytes ih =>
    obtain ⟨hclose, hdouble, hsingle⟩ := h b List.mem_cons_self
    intro seen rest
    have hquote : ¬ (b = 0x22 ∨ b = 0x27) := fun hq => hq.elim hdouble hsingle
    rw [List.cons_append, splitTag]
    simp only [hclose, if_false, hquote]
    rw [ih (fun c hc => h c (List.mem_cons_of_mem b hc))]
    simp

private theorem splitTag_quoted {q : UInt8} {value : Bytes} (h : q ∉ value) (seen rest : Bytes) :
    splitTag (some q) seen (value ++ q :: rest)
      = splitTag none (q :: (value.reverse ++ seen)) rest := by
  induction value generalizing seen with
  | nil =>
    rw [List.nil_append, splitTag, if_pos rfl]
    rfl
  | cons b value ih =>
    rw [List.mem_cons, not_or] at h
    rw [List.cons_append, splitTag, if_neg (Ne.symm h.1), ih h.2]
    simp

private theorem quiet_quoted {q : UInt8} {value : Bytes} (hq : q = 0x22 ∨ q = 0x27)
    (h : q ∉ value) : Quiet (q :: (value ++ [q])) := by
  intro seen rest
  have hclose : q ≠ 0x3E := by
    rcases hq with rfl | rfl <;> decide
  rw [List.cons_append, List.append_assoc, List.singleton_append, splitTag]
  simp only [hclose, if_false, hq, if_true]
  rw [splitTag_quoted h]
  simp

end Fragment.Piece

open Fragment (Piece Bytes ascii)
open Fragment.Piece (Quiet)

namespace Markup

/-- Characters without `>` and quotes. -/
theorem quiet_encode {cs : List Char} (h : ∀ c ∈ cs, c ≠ '>' ∧ c ≠ '"' ∧ c ≠ '\'') :
    Quiet (encode cs) := by
  refine Fragment.Piece.quiet_plain fun b hb => ⟨?_, ?_, ?_⟩
  · rintro rfl
    exact Text.not_mem_encode (by decide : ('>' : Char).toNat < 128) (fun hm => (h _ hm).1 rfl) hb
  · rintro rfl
    exact Text.not_mem_encode (by decide : ('"' : Char).toNat < 128) (fun hm => (h _ hm).2.1 rfl) hb
  · rintro rfl
    exact Text.not_mem_encode (by decide : ('\'' : Char).toNat < 128) (fun hm => (h _ hm).2.2 rfl) hb

private theorem quiet_spaces (gap : Spaces) : Quiet (encode gap.1) := by
  refine quiet_encode fun c hc => ?_
  have hspace := gap.2 c hc
  refine ⟨?_, ?_, ?_⟩ <;> rintro rfl <;> exact absurd hspace (by decide)

private theorem quiet_name (n : SpelledName) : Quiet (encode n.chars) := by
  refine quiet_encode fun c hc => ?_
  have hname := n.isName c hc
  refine ⟨?_, ?_, ?_⟩ <;> rintro rfl <;> exact absurd hname (by decide)

private theorem quiet_attribute (a : SpelledAttribute) : Quiet (encode a.chars) := by
  have hequals : Quiet (encode ['=']) := quiet_encode (by simp)
  have hquoted : Quiet (encode a.quoted) := by
    have hlt : a.quote.toNat < 128 := by
      rcases a.isQuote with h | h <;> rw [h] <;> decide
    have hquote : a.quote.toUInt8 = 0x22 ∨ a.quote.toUInt8 = 0x27 := by
      refine a.isQuote.imp ?_ ?_ <;> intro h <;> rw [h] <;> decide
    have hvalue : a.quote.toUInt8 ∉ encode a.value :=
      Text.not_mem_encode hlt fun hm => (a.isValue _ hm).2.1 rfl
    rw [SpelledAttribute.quoted, Text.encode_cons_of_lt hlt, Text.encode_append,
      Text.encode_cons_of_lt hlt]
    exact Fragment.Piece.quiet_quoted hquote hvalue
  have hall := (quiet_spaces a.gap).append ((quiet_name a.name).append ((quiet_spaces a.left).append
    (hequals.append ((quiet_spaces a.right).append hquoted))))
  simp only [← Text.encode_append] at hall
  exact hall

private theorem quiet_body (t : StartTag) : Quiet (encode t.body) := by
  have hattributes : Quiet (encode (t.attributes.flatMap (·.chars))) := by
    induction t.attributes with
    | nil => exact Fragment.Piece.quiet_nil
    | cons a as ih =>
      rw [List.flatMap_cons, Text.encode_append]
      exact (quiet_attribute a).append ih
  rw [StartTag.body, Text.encode_append, Text.encode_append]
  exact (quiet_name t.name).append (hattributes.append (quiet_spaces t.gap))

private theorem getLast?_body (t : StartTag) : t.body.getLast? ≠ some '/' := by
  intro h
  have hslash {cs : List Char} (hcs : cs.getLast? = some '/') : '/' ∈ cs := List.mem_of_getLast? hcs
  rw [StartTag.body] at h
  by_cases hgap : t.gap.1 = []
  · rw [hgap, List.append_nil] at h
    rcases List.eq_nil_or_concat t.attributes with hnil | ⟨as, a, ha⟩
    · rw [hnil, List.flatMap_nil, List.append_nil] at h
      exact absurd (t.name.isName _ (hslash h)) (by decide)
    · rw [ha, List.concat_eq_append] at h
      have hchars : (as ++ [a]).flatMap (·.chars) = as.flatMap (·.chars) ++ (a.gap.1
          ++ (a.name.chars ++ (a.left.1 ++ '=' :: (a.right.1 ++ a.quote :: a.value))))
          ++ [a.quote] := by
        simp [SpelledAttribute.chars, SpelledAttribute.quoted]
      rw [hchars, ← List.append_assoc, List.getLast?_concat] at h
      have hquote : a.quote = '/' := Option.some.inj h
      have hquote' := a.isQuote
      rw [hquote] at hquote'
      exact absurd hquote' (by decide)
  · have hlast : t.gap.1.getLast? = some '/' := by
      rwa [← List.append_assoc, List.getLast?_append_of_ne_nil _ hgap] at h
    exact absurd (t.gap.2 _ (hslash hlast)) (by decide)

end Markup

namespace Fragment.Piece

theorem scan_cons {b : UInt8} {bytes rest : Bytes} {piece : Piece}
    (h : next? b bytes = some (piece, rest)) :
    scan (b :: bytes) = (piece :: (scan rest).1, (scan rest).2) := by
  rw [scan]
  split
  · next hn =>
    rw [h] at hn
    cases hn
  · next p r hn =>
    rw [h] at hn
    cases hn
    rfl

theorem scan_markup {bytes rest : Bytes} {piece : Piece}
    (h : markup? bytes = some (piece, rest)) :
    scan (0x3C :: bytes) = (piece :: (scan rest).1, (scan rest).2) := by
  refine scan_cons ?_
  rw [next?, if_pos rfl]
  exact h

private theorem ends_encode {rest : List Char} (h : Text.Ends (· != '<') rest) :
    Text.Ends (· != 0x3C) (encode rest) := by
  cases rest with
  | nil => rfl
  | cons y rest =>
    have hy : (y != '<') = false := h
    rw [bne_eq_false_iff_eq] at hy
    rw [hy, Text.encode_cons_of_lt (by decide)]
    rfl

private theorem scan_text {cs rest : List Char} (hne : cs ≠ []) (hopen : '<' ∉ cs)
    (hr : Text.Ends (· != '<') rest) :
    scan (encode (cs ++ rest))
      = (.text (encode cs) :: (scan (encode rest)).1, (scan (encode rest)).2) := by
  obtain ⟨x, tail, hx⟩ := List.exists_cons_of_ne_nil hne
  obtain ⟨b, bytes, hb, hfirst⟩ := Text.exists_encode_cons x tail
  rw [← hx] at hb
  have hb' : b ≠ 0x3C := hfirst (by decide : ('<').toNat < 128) fun he =>
    hopen (by rw [hx, he]; exact List.mem_cons_self)
  have hmem : 0x3C ∉ encode cs := Text.not_mem_encode (by decide : ('<').toNat < 128) hopen
  have hbytes : ∀ y ∈ bytes, (y != 0x3C) = true := by
    intro y hy
    rw [bne_iff_ne]
    rintro rfl
    exact hmem (hb ▸ List.mem_cons_of_mem b hy)
  have hends := ends_encode hr
  have hnext : next? b (bytes ++ encode rest) = some (.text (b :: bytes), encode rest) := by
    rw [next?, if_neg hb', Text.takeWhile_append hbytes hends, Text.dropWhile_append hbytes hends]
  rw [Text.encode_append, hb]
  exact scan_cons hnext

private theorem markup?_instruction {body : List Char} (hh : body.head? ≠ some '>')
    (hc : Text.Closes ['?', '>'] body) (rest : Bytes) :
    markup? (0x3F :: (encode body ++ (ascii "?>" ++ rest)))
      = some (.instruction (encode body), rest) := by
  have hmark : encode ['?', '>'] = ascii "?>" := by decide
  have hsplit := Text.splitFirst?_of_closes (by decide) (Text.Closes.encode (by decide) hc) rest
  have hhead : ¬ (encode body ++ (ascii "?>" ++ rest)).head? = some 0x3E := by
    cases body with
    | nil =>
      have hfirst : (encode [] ++ (ascii "?>" ++ rest)).head? = some 0x3F := rfl
      rw [hfirst]
      decide
    | cons c body =>
      obtain ⟨b, bs, hb, hne⟩ := Text.exists_encode_cons c body
      have hclose : c ≠ '>' := fun he => hh (by rw [he]; rfl)
      rw [hb]
      exact fun he => hne (by decide) hclose (Option.some.inj he)
  rw [hmark, List.append_assoc] at hsplit
  rw [markup?]
  simp only [hhead, if_false, hsplit]
  rfl

private theorem markup?_comment {body : List Char} (hc : Text.Closes "-->".toList body)
    (rest : Bytes) : markup? (0x21 :: (ascii "--" ++ (encode body ++ (ascii "-->" ++ rest))))
      = some (.comment (encode body), rest) := by
  have hclose : "-->".toList = ['-', '-', '>'] := by simp
  have hmark : encode ['-', '-', '>'] = ascii "-->" := by decide
  rw [hclose] at hc
  have hsplit := Text.splitFirst?_of_closes (by decide) (Text.Closes.encode (by decide) hc) rest
  rw [hmark, List.append_assoc] at hsplit
  have hopen : (ascii "--").isPrefixOf (ascii "--" ++ (encode body ++ (ascii "-->" ++ rest))) = true :=
    List.isPrefixOf_iff_prefix.2 (List.prefix_append _ _)
  have hdrop : (ascii "--" ++ (encode body ++ (ascii "-->" ++ rest))).drop 2
      = encode body ++ (ascii "-->" ++ rest) := List.drop_left' (by decide)
  rw [markup?]
  simp only [hopen, if_true, hdrop, hsplit]
  rfl

private theorem markup?_cdata {body : List Char}
    (hc : Text.Closes "]]>".toList body) (rest : Bytes) :
    markup? (0x21 :: (ascii "[CDATA[" ++ (encode body ++ (ascii "]]>" ++ rest))))
      = some (.cdata (encode body), rest) := by
  have hclose : "]]>".toList = [']', ']', '>'] := by simp
  have hmark : encode [']', ']', '>'] = ascii "]]>" := by decide
  rw [hclose] at hc
  have hsplit := Text.splitFirst?_of_closes (by decide) (Text.Closes.encode (by decide) hc) rest
  rw [hmark, List.append_assoc] at hsplit
  have hcomment : ¬ (ascii "--").isPrefixOf
      (ascii "[CDATA[" ++ (encode body ++ (ascii "]]>" ++ rest))) = true := by
    rw [List.isPrefixOf_iff_prefix]
    exact fun hp => absurd (List.cons_prefix_cons.1 hp).1 (by decide)
  have hopen : (ascii "[CDATA[").isPrefixOf
      (ascii "[CDATA[" ++ (encode body ++ (ascii "]]>" ++ rest))) = true :=
    List.isPrefixOf_iff_prefix.2 (List.prefix_append _ _)
  have hdrop : (ascii "[CDATA[" ++ (encode body ++ (ascii "]]>" ++ rest))).drop 7
      = encode body ++ (ascii "]]>" ++ rest) := List.drop_left' (by decide)
  rw [markup?]
  simp only [hcomment, hopen, if_true, hdrop, hsplit]
  rfl

private theorem splitTag_quiet {body : Bytes} (hq : Quiet body) (rest : Bytes) :
    splitTag none [] (body ++ 0x3E :: rest) = some (body, rest) := by
  rw [hq, List.append_nil, splitTag]
  simp

theorem markup?_stop {body : Bytes} (hq : Quiet body) (rest : Bytes) :
    markup? (0x2F :: (body ++ 0x3E :: rest)) = some (.stop body, rest) := by
  rw [markup?, splitTag_quiet hq]
  rfl

theorem markup?_tag {b : UInt8} {body : Bytes} (hb : b ≠ 0x2F ∧ b ≠ 0x3F ∧ b ≠ 0x21)
    (hq : Quiet (b :: body)) (rest : Bytes) :
    markup? (b :: body ++ 0x3E :: rest) = some (ofTagBody (b :: body), rest) := by
  have hsplit := splitTag_quiet hq rest
  unfold markup?
  split
  · next he => exact absurd (List.cons.inj he).1 hb.1
  · next he => exact absurd (List.cons.inj he).1 hb.2.1
  · next he => exact absurd (List.cons.inj he).1 hb.2.2
  · rw [hsplit]
    rfl

end Fragment.Piece

namespace Markup.Lexeme

/-- The piece that a lexeme is. -/
def piece : Lexeme → Fragment.Piece
  | start t => .start (encode t.body)
  | empty t => .empty (encode t.body)
  | stop name gap => .stop (encode (name.chars ++ gap.1))
  | mark (.text cs) => .text (encode cs.1)
  | mark (.cdata body) => .cdata (encode body.1)
  | mark (.comment body) => .comment (encode body.1)
  | mark (.instruction i) => .instruction (encode i.whole)

theorem source_piece (l : Lexeme) : l.piece.source = encode l.chars := by
  cases l with
  | start t =>
    rw [chars, StartTag.chars, Text.encode_cons_of_lt (by decide), Text.encode_append]
    rfl
  | empty t =>
    rw [chars, StartTag.chars, Text.encode_cons_of_lt (by decide), Text.encode_append]
    rfl
  | stop name gap =>
    rw [chars, Text.encode_cons_of_lt (by decide), Text.encode_cons_of_lt (by decide),
      ← List.append_assoc, Text.encode_append]
    rfl
  | mark m =>
    cases m with
    | text cs => rfl
    | cdata body =>
      have hopen : encode "<![CDATA[".toList = ascii "<![CDATA[" := Text.encode_ascii (by simp)
      have hclose : encode "]]>".toList = ascii "]]>" := Text.encode_ascii (by simp)
      have hchars : (mark (.cdata body)).chars
          = "<![CDATA[".toList ++ (body.1 ++ "]]>".toList) := rfl
      rw [hchars, Text.encode_append, Text.encode_append, hopen, hclose, ← List.append_assoc]
      rfl
    | comment body =>
      have hopen : encode "<!--".toList = ascii "<!--" := Text.encode_ascii (by simp)
      have hclose : encode "-->".toList = ascii "-->" := Text.encode_ascii (by simp)
      have hchars : (mark (.comment body)).chars = "<!--".toList ++ (body.1 ++ "-->".toList) := rfl
      rw [hchars, Text.encode_append, Text.encode_append, hopen, hclose, ← List.append_assoc]
      rfl
    | instruction i =>
      have hclose : encode ['?', '>'] = ascii "?>" := by decide
      have hwhole : (mark (.instruction i)).chars = '<' :: '?' :: (i.whole ++ ['?', '>']) := by
        simp [chars, Mark.chars_instruction, Instruction.whole]
      rw [hwhole, Text.encode_cons_of_lt (by decide), Text.encode_cons_of_lt (by decide),
        Text.encode_append, hclose]
      rfl

private theorem scan_tag (t : StartTag) (closed : Bool) (rest : List Char) :
    Fragment.Piece.scan (encode (t.chars closed ++ rest))
      = ((if closed then .empty (encode t.body) else .start (encode t.body))
        :: (Fragment.Piece.scan (encode rest)).1, (Fragment.Piece.scan (encode rest)).2) := by
  obtain ⟨x, name, hx, hname⟩ := t.name.exists_cons
  have hbody : t.body = x :: (name ++ (t.attributes.flatMap (·.chars) ++ t.gap.1)) := by
    rw [StartTag.body, hx]
    rfl
  obtain ⟨b, bytes, hb, hne⟩ := Text.exists_encode_cons x
    (name ++ (t.attributes.flatMap (·.chars) ++ t.gap.1))
  rw [← hbody] at hb
  have hfirst : b ≠ 0x2F ∧ b ≠ 0x3F ∧ b ≠ 0x21 := by
    have hx (y : Char) (hy : isNameChar y = false) : x ≠ y := fun h => by simp [h, hy] at hname
    exact ⟨hne (by decide) (hx '/' (by decide)), hne (by decide) (hx '?' (by decide)),
      hne (by decide) (hx '!' (by decide))⟩
  have hquiet := quiet_body t
  rw [hb] at hquiet
  cases closed with
  | false =>
    have hlast : ¬ (b :: bytes).getLast? = some 0x2F :=
      hb ▸ Text.getLast?_encode_ne (by decide : ('/').toNat < 128) (getLast?_body t)
    have hpiece : Fragment.Piece.ofTagBody (b :: bytes) = .start (b :: bytes) := if_neg hlast
    have hchars : encode (t.chars false ++ rest) = 0x3C :: (b :: bytes ++ 0x3E :: encode rest) := by
      have hsource := source_piece (start t)
      rw [Text.encode_append, ← hb, show encode (t.chars false) = _ from hsource.symm]
      simp [piece, Fragment.Piece.source]
    rw [hchars, hb]
    have hmarkup := Fragment.Piece.markup?_tag hfirst hquiet (encode rest)
    rw [hpiece] at hmarkup
    exact Fragment.Piece.scan_markup hmarkup
  | true =>
    have hpiece : Fragment.Piece.ofTagBody (b :: (bytes ++ [0x2F])) = .empty (b :: bytes) := by
      have hlast : (b :: bytes ++ [0x2F]).getLast? = some 0x2F := List.getLast?_concat
      rw [← List.cons_append, Fragment.Piece.ofTagBody, if_pos hlast, List.dropLast_concat]
    have hslash : Quiet (b :: (bytes ++ [0x2F])) :=
      hquiet.append (Fragment.Piece.quiet_plain (by simp : ∀ b ∈ ([0x2F] : Bytes), _))
    have hchars : encode (t.chars true ++ rest)
        = 0x3C :: (b :: (bytes ++ [0x2F]) ++ 0x3E :: encode rest) := by
      have hsource := source_piece (empty t)
      rw [Text.encode_append, show encode (t.chars true) = _ from hsource.symm]
      simp [piece, Fragment.Piece.source, hb]
    rw [hchars, hb]
    have hmarkup := Fragment.Piece.markup?_tag hfirst hslash (encode rest)
    rw [hpiece] at hmarkup
    exact Fragment.Piece.scan_markup hmarkup

/-- The bytes of a lexeme are cut off as its piece. -/
theorem scan_append {l : Lexeme} {rest : List Char} (h : l.Fits rest) :
    Fragment.Piece.scan (encode (l.chars ++ rest))
      = (l.piece :: (Fragment.Piece.scan (encode rest)).1, (Fragment.Piece.scan (encode rest)).2) := by
  have hsource : encode (l.chars ++ rest) = l.piece.source ++ encode rest := by
    rw [Text.encode_append, source_piece]
  cases l with
  | start t => exact scan_tag t false rest
  | empty t => exact scan_tag t true rest
  | stop name gap =>
    have hquiet : Quiet (encode (name.chars ++ gap.1)) := by
      rw [Text.encode_append]
      exact (quiet_name name).append (quiet_spaces gap)
    have hchars : (stop name gap).piece.source ++ encode rest
        = 0x3C :: 0x2F :: (encode (name.chars ++ gap.1) ++ 0x3E :: encode rest) := by
      simp [piece, Fragment.Piece.source]
    rw [hsource, hchars]
    exact Fragment.Piece.scan_markup (Fragment.Piece.markup?_stop hquiet _)
  | mark m =>
    cases m with
    | text cs => exact Fragment.Piece.scan_text cs.2.1 cs.2.2.1 (h rfl)
    | cdata body =>
      have hopen : ascii "<![CDATA[" = 0x3C :: 0x21 :: ascii "[CDATA[" := by decide
      have hchars : (mark (.cdata body)).piece.source ++ encode rest
          = 0x3C :: 0x21 :: (ascii "[CDATA[" ++ (encode body.1 ++ (ascii "]]>" ++ encode rest))) := by
        simp [piece, Fragment.Piece.source, hopen]
      rw [hsource, hchars]
      exact Fragment.Piece.scan_markup (Fragment.Piece.markup?_cdata body.2.2 _)
    | comment body =>
      have hopen : ascii "<!--" = 0x3C :: 0x21 :: ascii "--" := by decide
      have hchars : (mark (.comment body)).piece.source ++ encode rest
          = 0x3C :: 0x21 :: (ascii "--" ++ (encode body.1 ++ (ascii "-->" ++ encode rest))) := by
        simp [piece, Fragment.Piece.source, hopen]
      rw [hsource, hchars]
      exact Fragment.Piece.scan_markup
        (Fragment.Piece.markup?_comment (closes_of_isCommentBody body.2) _)
    | instruction i =>
      have hchars : (mark (.instruction i)).piece.source ++ encode rest
          = 0x3C :: 0x3F :: (encode i.whole ++ (ascii "?>" ++ encode rest)) := by
        simp [piece, Fragment.Piece.source]
      rw [hsource, hchars]
      exact Fragment.Piece.scan_markup
        (Fragment.Piece.markup?_instruction i.head?_whole_ne i.closes_whole _)

theorem scan_spell {ls : List Lexeme} {rest : List Char} (h : Apart ls)
    (hr : ∀ l ∈ ls.getLast?, l.Fits rest) :
    Fragment.Piece.scan (encode (spell ls ++ rest))
      = (ls.map piece ++ (Fragment.Piece.scan (encode rest)).1,
          (Fragment.Piece.scan (encode rest)).2) := by
  induction ls with
  | nil => rfl
  | cons l ls ih =>
    have hlast : ∀ k ∈ ls.getLast?, k.Fits rest := by
      intro k hk
      refine hr k ?_
      rw [List.getLast?_cons, hk]
      rfl
    rw [spell_cons, List.append_assoc, scan_append (fits_of_apart h hr), ih h.tail hlast]
    rfl

end Markup.Lexeme

namespace Fragment.Piece

/-- The piece opens and closes nothing. -/
def Silent : Piece → Prop
  | text _ => True
  | comment _ => True
  | instruction _ => True
  | _ => False

private theorem scan_misc {ms : List Char} (h : Markup.Misc ms) (rest : List Char) :
    ∃ p : Piece, scan (encode (ms ++ rest)) = (p :: (scan (encode rest)).1, (scan (encode rest)).2) ∧
      p.Silent ∧ p.source = encode ms := by
  cases h with
  | @comment body hc =>
    have hopen : encode "<!--".toList = ascii "<!--" := Text.encode_ascii (by simp)
    have hclose : encode "-->".toList = ascii "-->" := Text.encode_ascii (by simp)
    have hfirst : ascii "<!--" = 0x3C :: 0x21 :: ascii "--" := by decide
    refine ⟨.comment (encode body), ?_, trivial, ?_⟩
    · rw [Text.encode_append, Text.encode_append, Text.encode_append, hopen, hclose,
        List.append_assoc, List.append_assoc, hfirst]
      exact scan_markup (markup?_comment hc _)
    · rw [Text.encode_append, Text.encode_append, hopen, hclose, ← List.append_assoc]
      rfl
  | @instruction body hh hc =>
    have hclose : encode ['?', '>'] = ascii "?>" := by decide
    have hsource : encode ('<' :: '?' :: (body ++ ['?', '>']))
        = 0x3C :: 0x3F :: (encode body ++ ascii "?>") := by
      rw [Text.encode_cons_of_lt (by decide), Text.encode_cons_of_lt (by decide),
        Text.encode_append, hclose]
      rfl
    refine ⟨.instruction (encode body), ?_, trivial, hsource.symm⟩
    rw [Text.encode_append, hsource, List.cons_append, List.cons_append, List.append_assoc]
    exact scan_markup (markup?_instruction hh hc _)

private theorem scan_plain {cs rest : List Char} (h : '<' ∉ cs) (hr : Text.Ends (· != '<') rest) :
    ∃ ps : List Piece, scan (encode (cs ++ rest))
        = (ps ++ (scan (encode rest)).1, (scan (encode rest)).2) ∧
      (∀ p ∈ ps, p.Silent) ∧ ps.flatMap source = encode cs := by
  by_cases hnil : cs = []
  · subst hnil
    exact ⟨[], rfl, nofun, rfl⟩
  · exact ⟨[.text (encode cs)], scan_text hnil h hr, List.forall_mem_singleton.2 trivial,
      List.append_nil _⟩

/-- What opens no element is cut into pieces that open none. -/
theorem scan_inert {cs rest : List Char} (h : Markup.Inert cs) (hr : Text.Ends (· != '<') rest) :
    ∃ ps : List Piece, scan (encode (cs ++ rest))
        = (ps ++ (scan (encode rest)).1, (scan (encode rest)).2) ∧
      (∀ p ∈ ps, p.Silent) ∧ ps.flatMap source = encode cs := by
  induction h with
  | plain hcs => exact scan_plain hcs hr
  | @misc cs ms ds hcs hm hds ih =>
    obtain ⟨ps, hps, hsilent, hsource⟩ := ih
    obtain ⟨p, hp, hpsilent, hpsource⟩ := scan_misc hm (ds ++ rest)
    have hends : Text.Ends (· != '<') (ms ++ (ds ++ rest)) := by
      cases hm with
      | comment => rfl
      | instruction => rfl
    obtain ⟨qs, hqs, hqsilent, hqsource⟩ := scan_plain hcs hends
    refine ⟨qs ++ p :: ps, ?_, ?_, ?_⟩
    · rw [List.append_assoc, List.append_assoc, hqs, hp, hps]
      simp
    · intro q hq
      rcases List.mem_append.1 hq with hq | hq
      · exact hqsilent q hq
      · exact List.forall_mem_cons.2 ⟨hpsilent, hsilent⟩ q hq
    · rw [List.flatMap_append, List.flatMap_cons, hqsource, hpsource, hsource,
        Text.encode_append, Text.encode_append]

end Fragment.Piece

end XsdCatalog
