import XsdCatalog.Proofs.SamePieces

/-!
# Pieces read from what is written

What is written for a piece is read again as one piece, which is written as it is read. An end tag
has lost the spaces behind its name then, a document type has its keyword in capitals and one space
behind it, and all other pieces are as they were. Texts that come to stand next to each other are
read as one.
-/

namespace XsdCatalog.Fragment.Piece

variable {b : UInt8} {quote quote' : Option UInt8} {bytes body rest : Bytes} {p : Piece}

/-- The byte is a quote. -/
def IsQuote (b : UInt8) : Prop :=
  b = 0x22 ∨ b = 0x27

instance (b : UInt8) : Decidable (IsQuote b) :=
  inferInstanceAs (Decidable (b = 0x22 ∨ b = 0x27))

/-- The quote that is open behind bytes of a tag; none if the tag ends in them. -/
def quoteBehind (quote : Option UInt8) : Bytes → Option (Option UInt8)
  | [] => some quote
  | b :: bytes =>
    match quote with
    | some q => quoteBehind (if b = q then none else quote) bytes
    | none =>
      if b = 0x3E then none else quoteBehind (if b = 0x22 ∨ b = 0x27 then some b else none) bytes

theorem quoteBehind_append (quote : Option UInt8) (bytes more : Bytes) :
    quoteBehind quote (bytes ++ more) = (quoteBehind quote bytes).bind (quoteBehind · more) := by
  induction bytes generalizing quote with
  | nil => rfl
  | cons b bytes ih =>
    cases quote with
    | some q => exact ih _
    | none =>
      rw [List.cons_append, quoteBehind, quoteBehind]
      split
      · rfl
      · exact ih _

/-- Bytes behind which a tag goes on are passed over when its end is looked for. -/
theorem splitTag_of_quoteBehind (h : quoteBehind quote bytes = some quote') (seen rest : Bytes) :
    splitTag quote seen (bytes ++ rest) = splitTag quote' (bytes.reverse ++ seen) rest := by
  induction bytes generalizing quote seen with
  | nil =>
    cases h
    rfl
  | cons b bytes ih =>
    have hreverse : (b :: bytes).reverse ++ seen = bytes.reverse ++ b :: seen := by simp
    rw [List.cons_append, hreverse]
    cases quote with
    | some q =>
      rw [splitTag]
      exact ih h _
    | none =>
      rw [quoteBehind] at h
      split at h
      · cases h
      · next hb =>
        rw [splitTag, if_neg hb]
        exact ih h _

private theorem quiet_of_quoteBehind (h : quoteBehind none bytes = some none) : Quiet bytes :=
  splitTag_of_quoteBehind h

/-- A tag ends outside quotes. -/
theorem quoteBehind_of_splitTag {seen : Bytes} (h : splitTag quote seen bytes = some (body, rest)) :
    ∃ taken, body = seen.reverse ++ taken ∧ bytes = taken ++ 0x3E :: rest ∧
      quoteBehind quote taken = some none := by
  induction bytes generalizing quote seen with
  | nil => cases h
  | cons b bytes ih =>
    cases quote with
    | some q =>
      obtain ⟨taken, rfl, rfl, htaken⟩ := ih h
      exact ⟨b :: taken, by simp, rfl, htaken⟩
    | none =>
      rw [splitTag] at h
      split at h
      · next hb =>
        cases h
        exact ⟨[], by simp, by rw [hb]; rfl, rfl⟩
      · next hb =>
        obtain ⟨taken, rfl, rfl, htaken⟩ := ih h
        refine ⟨b :: taken, by simp, rfl, ?_⟩
        rw [quoteBehind, if_neg hb]
        exact htaken

private theorem isQuote_of_quoteBehind (h : quoteBehind quote bytes = some quote')
    (hquote : ∀ q ∈ quote, IsQuote q) : ∀ q ∈ quote', IsQuote q := by
  induction bytes generalizing quote with
  | nil =>
    cases h
    exact hquote
  | cons b bytes ih =>
    cases quote with
    | some q =>
      apply ih h
      intro q' hq'
      split at hq'
      · cases hq'
      · exact hquote q' hq'
    | none =>
      rw [quoteBehind] at h
      split at h
      · cases h
      · apply ih h
        intro q' hq'
        split at hq'
        · next hb =>
          cases hq'
          exact hb
        · cases hq'

/-- Bytes that are no quotes and do not end the tag leave open what was open. -/
theorem quoteBehind_plain (h : ∀ b ∈ bytes, b ≠ 0x3E ∧ ¬ IsQuote b)
    (hquote : ∀ q ∈ quote, IsQuote q) : quoteBehind quote bytes = some quote := by
  induction bytes with
  | nil => rfl
  | cons b bytes ih =>
    obtain ⟨⟨hclose, hplain⟩, hrest⟩ := List.forall_mem_cons.1 h
    cases quote with
    | some q =>
      have hne : b ≠ q := by
        rintro rfl
        exact hplain (hquote b rfl)
      rw [quoteBehind, if_neg hne]
      exact ih hrest
    | none =>
      have hopen : ¬ (b = 0x22 ∨ b = 0x27) := hplain
      rw [quoteBehind, if_neg hclose, if_neg hopen]
      exact ih hrest

theorem quoteBehind_unquoted (h : ∀ b ∈ bytes, b ≠ 0x3E ∧ ¬ IsQuote b) :
    quoteBehind none bytes = some none :=
  quoteBehind_plain h nofun

/-- Bytes of a tag go on without such bytes behind them. -/
theorem quoteBehind_of_append {more : Bytes} (h : quoteBehind none (bytes ++ more) = some none)
    (hmore : ∀ b ∈ more, b ≠ 0x3E ∧ ¬ IsQuote b) : quoteBehind none bytes = some none := by
  rw [quoteBehind_append] at h
  obtain ⟨quote, hbytes, hquote⟩ := Option.bind_eq_some_iff.1 h
  rw [quoteBehind_plain hmore (isQuote_of_quoteBehind hbytes nofun)] at hquote
  cases hquote
  exact hbytes

/-- The piece that is read where a piece was written. -/
def rewritten : Piece → Piece
  | stop body => stop (stopName body)
  | doctype body => doctype (ascii "DOCTYPE " ++ (body.drop 7).dropWhile isSpace)
  | piece => piece

theorem source_rewritten (p : Piece) : p.rewritten.source = p.written := by
  cases p with
  | doctype body =>
    have hmark : ascii "<!DOCTYPE " = 0x3C :: 0x21 :: ascii "DOCTYPE " := by decide
    rw [written, hmark]
    rfl
  | _ => rfl

theorem stopName_stopName (body : Bytes) : stopName (stopName body) = stopName body := by
  by_cases hall : body.all isSpace = true
  · have hself : stopName body = body := if_pos hall
    rw [hself, hself]
  · obtain ⟨us, b, spaces, rfl, hb, hspaces⟩ := SameLines.exists_last_name hall
    have hnone : ([] : Bytes).all isSpace = true := rfl
    rw [SameLines.stopName_append hb hspaces]
    exact SameLines.stopName_append hb hnone

theorem written_rewritten (p : Piece) : p.rewritten.written = p.written := by
  cases p with
  | stop body =>
    rw [rewritten, written, written, stopName_stopName]
  | doctype body =>
    have hdrop (rest : Bytes) : (ascii "DOCTYPE " ++ rest).drop 7 = 0x20 :: rest := rfl
    have hspace : isSpace 0x20 = true := by decide
    rw [rewritten, written, written, hdrop, List.dropWhile_cons_of_pos hspace,
      (Text.ends_dropWhile isSpace _).dropWhile]
  | _ => rfl

/-- The bytes are read as the piece, whatever stands behind them. -/
def Reads (bytes : Bytes) (p : Piece) : Prop :=
  ∀ more, scan (bytes ++ more) = (p :: (scan more).1, (scan more).2)

/-- The bytes begin with none of the marks that tell other markup from start tags. -/
def OpensTag (bytes : Bytes) : Prop :=
  ∀ b ∈ bytes.head?, b ≠ 0x2F ∧ b ≠ 0x3F ∧ b ≠ 0x21

theorem reads_tag (hopens : OpensTag bytes) (hquote : quoteBehind none bytes = some none) :
    Reads (ofTagBody bytes).source (ofTagBody bytes) := by
  intro more
  have hbytes : (ofTagBody bytes).source ++ more = 0x3C :: (bytes ++ 0x3E :: more) := by
    rw [source_ofTagBody]
    simp
  rw [hbytes]
  apply scan_markup
  cases bytes with
  | nil => exact markup?_of_ne (by decide) more
  | cons b bytes => exact markup?_tag (hopens b rfl) (quiet_of_quoteBehind hquote) more

private theorem quoteBehind_stopName (h : quoteBehind none body = some none) :
    quoteBehind none (stopName body) = some none := by
  by_cases hall : body.all isSpace = true
  · rw [stopName, if_pos hall]
    exact h
  · obtain ⟨us, b, spaces, rfl, hb, hspaces⟩ := SameLines.exists_last_name hall
    rw [SameLines.stopName_append hb hspaces]
    rw [List.append_cons] at h
    apply quoteBehind_of_append h
    intro c hc
    have hspace : isSpace c = true := List.all_eq_true.1 hspaces c hc
    refine ⟨?_, ?_⟩
    · rintro rfl
      exact absurd hspace (by decide)
    · rintro (rfl | rfl) <;> exact absurd hspace (by decide)

private theorem reads_stop (h : quoteBehind none body = some none) :
    Reads (stop body).written (stop (stopName body)) := by
  intro more
  have hbytes : (stop body).written ++ more = 0x3C :: 0x2F :: (stopName body ++ 0x3E :: more) := by
    simp [written]
  rw [hbytes]
  exact scan_markup (markup?_stop (quiet_of_quoteBehind (quoteBehind_stopName h)) more)

/-- What has been seen stands in front of what is found. -/
theorem splitBalanced_seen (depth : Nat) (seen bytes : Bytes) :
    splitBalanced depth seen bytes
      = (splitBalanced depth [] bytes).map fun (body, rest) => (seen.reverse ++ body, rest) := by
  induction bytes generalizing depth seen with
  | nil => rfl
  | cons b bytes ih =>
    have hstep (depth : Nat) : splitBalanced depth (b :: seen) bytes
        = (splitBalanced depth [b] bytes).map fun (body, rest) => (seen.reverse ++ body, rest) := by
      rw [ih depth (b :: seen), ih depth [b], Option.map_map]
      congr 1
      funext x
      simp
    by_cases hb : b = 0x3E
    · subst hb
      cases depth with
      | zero => simp [splitBalanced]
      | succ outer => exact hstep outer
    · rw [SameLines.splitBalanced_of_ne hb, SameLines.splitBalanced_of_ne hb]
      exact hstep _

/-- Neither `<` nor `>` is among the bytes. -/
def Markless (bytes : Bytes) : Prop :=
  0x3C ∉ bytes ∧ 0x3E ∉ bytes

/-- Bytes without marks are passed over. -/
theorem splitBalanced_markless (h : Markless bytes) (depth : Nat) (seen rest : Bytes) :
    splitBalanced depth seen (bytes ++ rest)
      = splitBalanced depth (bytes.reverse ++ seen) rest := by
  induction bytes generalizing seen with
  | nil => rfl
  | cons b bytes ih =>
    obtain ⟨hopen, hopens⟩ := List.ne_and_not_mem_of_not_mem_cons h.1
    obtain ⟨hclose, hcloses⟩ := List.ne_and_not_mem_of_not_mem_cons h.2
    rw [List.cons_append, SameLines.splitBalanced_of_ne hclose.symm, if_neg hopen.symm,
      ih ⟨hopens, hcloses⟩]
    simp

/-- The end of a document type is found behind other bytes without marks as well. -/
theorem splitBalanced_replace {front front' back : Bytes}
    (h : splitBalanced 0 [] (front ++ back ++ 0x3E :: rest) = some (front ++ back, rest))
    (hfront : Markless front) (hfront' : Markless front') (more : Bytes) :
    splitBalanced 0 [] (front' ++ back ++ 0x3E :: more) = some (front' ++ back, more) := by
  rw [List.append_assoc, splitBalanced_markless hfront, splitBalanced_seen] at h
  obtain ⟨⟨body, rest'⟩, hback, he⟩ := Option.map_eq_some_iff.1 h
  have hbody : body = back := by simpa using congrArg Prod.fst he
  have hrest : rest' = rest := congrArg Prod.snd he
  subst hbody hrest
  obtain ⟨taken, htaken, hlocal⟩ := local_splitBalanced 0 [] (body ++ 0x3E :: rest') _ _ hback
  have hsplit : body ++ [0x3E] = taken := by
    rw [List.append_cons] at htaken
    exact List.append_cancel_right htaken
  have hmore := hlocal more
  rw [← hsplit, List.append_assoc, List.singleton_append] at hmore
  rw [List.append_assoc, splitBalanced_markless hfront', splitBalanced_seen, hmore]
  simp

private theorem exists_keyword (h : isDoctype body = true) :
    ∃ front, body = front ++ (body.drop 7).dropWhile isSpace ∧ Markless front := by
  rw [isDoctype, Bool.and_eq_true, beq_iff_eq] at h
  have hletter {b : UInt8} (hb : b ∈ body.take 7) : upper b ∈ ascii "DOCTYPE" :=
    h.1 ▸ List.mem_map_of_mem hb
  have hspace {b : UInt8} (hb : b ∈ (body.drop 7).takeWhile isSpace) : isSpace b = true :=
    List.mem_takeWhile_imp hb
  refine ⟨body.take 7 ++ (body.drop 7).takeWhile isSpace, ?_, ?_, ?_⟩
  · rw [List.append_assoc, List.takeWhile_append_dropWhile, List.take_append_drop]
  · exact List.not_mem_append (fun hb => absurd (hletter hb) (by decide))
      fun hb => absurd (hspace hb) (by decide)
  · exact List.not_mem_append (fun hb => absurd (hletter hb) (by decide))
      fun hb => absurd (hspace hb) (by decide)

private theorem isDoctype_rewritten (h : isDoctype body = true) :
    isDoctype (ascii "DOCTYPE " ++ (body.drop 7).dropWhile isSpace) = true := by
  rw [isDoctype, Bool.and_eq_true, Bool.not_eq_true'] at h
  have htake (rest : Bytes) : ((ascii "DOCTYPE " ++ rest).take 7).map upper = ascii "DOCTYPE" := rfl
  have hdrop (rest : Bytes) : (ascii "DOCTYPE " ++ rest).drop 7 = 0x20 :: rest := rfl
  have hspace : isSpace 0x20 = true := by decide
  rw [isDoctype, htake, hdrop, List.all_cons, hspace, Bool.true_and, beq_self_eq_true,
    Bool.true_and, Bool.not_eq_true', Bool.eq_false_iff]
  intro hall
  have hdrop : (body.drop 7).all isSpace = true := by
    rw [← List.takeWhile_append_dropWhile (p := isSpace) (l := body.drop 7), List.all_append, hall,
      Bool.and_true]
    exact List.all_takeWhile
  rw [hdrop] at h
  cases h.2

private theorem markup?_doctype (h : isDoctype body = true) {bytes : Bytes}
    (hsplit : splitBalanced 0 [] bytes = some (body, rest)) :
    markup? (0x21 :: bytes) = some (doctype body, rest) := by
  have hbytes := splitBalanced_eq_some hsplit
  cases body with
  | nil => cases h
  | cons b body =>
    obtain ⟨hdash, hbracket⟩ := ne_of_isDoctype h
    have hfirst : b :: (body ++ 0x3E :: rest) = bytes := by simpa using hbytes
    have hcomment : ¬ (ascii "--").isPrefixOf bytes = true := by
      rw [List.isPrefixOf_iff_prefix, ← hfirst]
      exact fun hp => hdash (List.cons_prefix_cons.1 hp).1.symm
    have hcdata : ¬ (ascii "[CDATA[").isPrefixOf bytes = true := by
      rw [List.isPrefixOf_iff_prefix, ← hfirst]
      exact fun hp => hbracket (List.cons_prefix_cons.1 hp).1.symm
    rw [markup?, if_neg hcomment, if_neg hcdata, hsplit]
    exact if_pos h

private theorem reads_doctype (h : isDoctype body = true)
    (hsplit : splitBalanced 0 [] (body ++ 0x3E :: rest) = some (body, rest)) :
    Reads (doctype body).written (rewritten (doctype body)) := by
  obtain ⟨front, hfront, hmarkless⟩ := exists_keyword h
  have hkeyword : Markless (ascii "DOCTYPE ") := ⟨by decide, by decide⟩
  rw [hfront] at hsplit
  have hmore := splitBalanced_replace hsplit hmarkless hkeyword
  intro more
  have hbytes : (doctype body).written ++ more
      = 0x3C :: 0x21 :: (ascii "DOCTYPE " ++ (body.drop 7).dropWhile isSpace ++ 0x3E :: more) := by
    rw [← source_rewritten]
    simp [rewritten, source]
  rw [hbytes]
  exact scan_markup (markup?_doctype (isDoctype_rewritten h) (hmore more))

/-- The piece has been read from some input. -/
def Told (p : Piece) : Prop :=
  ∃ b bytes rest, next? b bytes = some (p, rest)

theorem told_of_mem_scan (h : p ∈ (scan bytes).1) : Told p := by
  fun_induction scan bytes with
  | case1 => cases h
  | case2 => cases h
  | case3 b bytes piece rest hnext hlength pieces whole hscan ih =>
    rcases List.mem_cons.1 h with rfl | h
    · exact ⟨b, bytes, rest, hnext⟩
    · rw [hscan] at ih
      exact ih h

/-- What is not text has been read behind `<`. -/
theorem Told.exists_markup? (h : Told p) (hp : ∀ body, p ≠ text body) :
    ∃ bytes rest, markup? bytes = some (p, rest) ∧ p.source ++ rest = 0x3C :: bytes := by
  obtain ⟨b, bytes, rest, hnext⟩ := h
  by_cases hb : b = 0x3C
  · rw [next?, if_pos hb] at hnext
    exact ⟨bytes, rest, hnext, markup?_source hnext⟩
  · rw [next?, if_neg hb] at hnext
    exact absurd (Prod.mk.inj (Option.some.inj hnext)).1.symm (hp _)

private theorem Told.reads (h : Told p) (hp : ∀ body, p ≠ text body) : Reads p.source p := by
  obtain ⟨b, bytes, rest, hnext⟩ := h
  intro more
  apply scan_of_next? hnext
  left
  by_contra hb
  rw [next?, if_neg hb] at hnext
  exact hp _ (Prod.mk.inj (Option.some.inj hnext)).1.symm

private theorem Told.text (h : Told (text body)) : body ≠ [] ∧ 0x3C ∉ body := by
  obtain ⟨b, bytes, rest, hnext⟩ := h
  by_cases hb : b = 0x3C
  · rw [next?, if_pos hb] at hnext
    exact absurd hnext markup?_ne_text
  · rw [next?, if_neg hb] at hnext
    obtain ⟨hbody, -⟩ := Prod.mk.inj (Option.some.inj hnext)
    injection hbody with hbody
    rw [← hbody]
    refine ⟨List.cons_ne_nil _ _, List.not_mem_cons_of_ne_of_not_mem (Ne.symm hb) ?_⟩
    intro hmem
    exact absurd (List.mem_takeWhile_imp (p := (· != 0x3C)) hmem) (by decide)

private theorem Told.stop (h : Told (stop body)) : quoteBehind none body = some none := by
  obtain ⟨bytes, rest, hmarkup, hsource⟩ := h.exists_markup? nofun
  have hbytes : bytes = 0x2F :: (body ++ 0x3E :: rest) := by
    simpa [source] using (List.cons.inj hsource).2.symm
  rw [hbytes, markup?] at hmarkup
  obtain ⟨⟨body', rest'⟩, hsplit, he⟩ := Option.map_eq_some_iff.1 hmarkup
  cases he
  obtain ⟨taken, hbody, -, hquote⟩ := quoteBehind_of_splitTag hsplit
  rw [hbody]
  exact hquote

private theorem Told.doctype (h : Told (doctype body)) :
    Reads (doctype body).written (rewritten (doctype body)) := by
  obtain ⟨bytes, rest, hmarkup, hsource⟩ := h.exists_markup? nofun
  have hbytes : bytes = 0x21 :: (body ++ 0x3E :: rest) := by
    simpa [source] using (List.cons.inj hsource).2.symm
  rw [hbytes, markup?] at hmarkup
  split at hmarkup
  · obtain ⟨x, -, he⟩ := Option.map_eq_some_iff.1 hmarkup
    cases he
  · split at hmarkup
    · obtain ⟨x, -, he⟩ := Option.map_eq_some_iff.1 hmarkup
      cases he
    · obtain ⟨⟨body', rest'⟩, hsplit, he⟩ := Option.bind_eq_some_iff.1 hmarkup
      obtain ⟨hdoctype, he⟩ := Option.ite_none_right_eq_some.1 he
      cases he
      exact reads_doctype hdoctype hsplit

private theorem isTag_of_mark (hb : b = 0x2F ∨ b = 0x3F ∨ b = 0x21)
    (h : markup? (b :: bytes) = some (p, rest)) : p.isTag = false := by
  have hmap {x : Option (Bytes × Bytes)} {piece : Bytes → Piece}
      (hpiece : ∀ body, (piece body).isTag = false)
      (hx : (x.map fun (body, rest) => (piece body, rest)) = some (p, rest)) : p.isTag = false := by
    obtain ⟨y, -, he⟩ := Option.map_eq_some_iff.1 hx
    rw [← (Prod.mk.inj he).1]
    exact hpiece _
  rcases hb with rfl | rfl | rfl
  · rw [markup?] at h
    exact hmap (fun _ => rfl) h
  · rw [markup?] at h
    split at h
    · cases h
    · exact hmap (fun _ => rfl) h
  · rw [markup?] at h
    split at h
    · exact hmap (fun _ => rfl) h
    · split at h
      · exact hmap (fun _ => rfl) h
      · obtain ⟨y, -, he⟩ := Option.bind_eq_some_iff.1 h
        obtain ⟨-, he⟩ := Option.ite_none_right_eq_some.1 he
        rw [← (Prod.mk.inj (Option.some.inj he)).1]
        rfl

/-- The body of a start tag or an empty tag, the latter with its slash. -/
theorem Told.tag (h : Told p) (htag : p.isTag = true) :
    ∃ body, p = ofTagBody body ∧ OpensTag body ∧ quoteBehind none body = some none := by
  obtain ⟨bytes, rest, hmarkup, -⟩ := h.exists_markup? (by rintro body rfl; cases htag)
  cases bytes with
  | nil => cases hmarkup
  | cons b bytes =>
    have hb : b ≠ 0x2F ∧ b ≠ 0x3F ∧ b ≠ 0x21 := by
      by_contra hmark
      have hmark : b = 0x2F ∨ b = 0x3F ∨ b = 0x21 := by
        by_contra hnone
        exact hmark (by simpa [not_or] using hnone)
      rw [isTag_of_mark hmark hmarkup] at htag
      cases htag
    rw [markup?_of_ne hb] at hmarkup
    obtain ⟨⟨body, rest'⟩, hsplit, he⟩ := Option.map_eq_some_iff.1 hmarkup
    obtain ⟨taken, hbody, hbytes, hquote⟩ := quoteBehind_of_splitTag hsplit
    obtain rfl : body = taken := hbody
    refine ⟨body, (Prod.mk.inj he).1.symm, ?_, hquote⟩
    intro c hc
    cases body with
    | nil => cases hc
    | cons d body =>
      cases hc
      rw [← (List.cons.inj hbytes).1]
      exact hb

/-- What is written for the piece is read again: a text as a text, any other piece as one piece
whatever stands behind it. -/
def Rereadable : Piece → Prop
  | text body => body ≠ [] ∧ 0x3C ∉ body
  | piece => Reads piece.written piece.rewritten

theorem Told.rereadable (h : Told p) : p.Rereadable := by
  cases p with
  | text body => exact h.text
  | stop body => exact reads_stop h.stop
  | doctype body => exact h.doctype
  | _ => exact h.reads nofun

/-- Pieces with a text in front, which is joined with a text that they begin with. -/
def joinText (body : Bytes) : List Piece → List Piece
  | text more :: ps => text (body ++ more) :: ps
  | ps => text body :: ps

/-- No text begins with `<`. -/
theorem ne_text_of_next? (h : next? 0x3C bytes = some (p, rest)) (more : Bytes) : p ≠ text more := by
  rintro rfl
  rw [next?, if_pos rfl] at h
  exact markup?_ne_text h

private theorem scan_joinText (hne : body ≠ []) (hopen : 0x3C ∉ body) (bytes : Bytes) :
    scan (body ++ bytes) = (joinText body (scan bytes).1, (scan bytes).2) := by
  obtain ⟨b, tail, rfl⟩ := List.exists_cons_of_ne_nil hne
  have hb : b ≠ 0x3C := by
    rintro rfl
    exact hopen List.mem_cons_self
  have hall : ∀ c ∈ b :: tail, (c != 0x3C) = true := by
    intro c hc
    rw [bne_iff_ne]
    rintro rfl
    exact hopen hc
  have hnext : next? b (tail ++ bytes)
      = some (text (b :: tail ++ bytes.takeWhile (· != 0x3C)), bytes.dropWhile (· != 0x3C)) := by
    rw [SameLines.next?_of_ne hb, ← List.cons_append, List.takeWhile_append_of_pos hall,
      List.dropWhile_append_of_pos hall]
  rw [List.cons_append, scan_cons hnext]
  cases bytes with
  | nil => simp [scan, joinText]
  | cons c bytes =>
    by_cases hc : c = 0x3C
    · subst hc
      have hends : Text.Ends (· != 0x3C) (0x3C :: bytes) := rfl
      rw [hends.takeWhile, hends.dropWhile, List.append_nil]
      cases hmarkup : next? 0x3C bytes with
      | none =>
        rw [SameLines.scan_of_none hmarkup]
        rfl
      | some read =>
        obtain ⟨p, rest⟩ := read
        rw [scan_cons hmarkup]
        cases p with
        | text more => exact absurd rfl (ne_text_of_next? hmarkup more)
        | _ => rfl
    · rw [scan_cons (SameLines.next?_of_ne hc bytes)]
      rfl

/-- The pieces that are read where pieces were written. -/
def reread : List Piece → List Piece
  | [] => []
  | text body :: ps => joinText body (reread ps)
  | p :: ps => p.rewritten :: reread ps

theorem reread_cons (hp : ∀ body, p ≠ text body) (ps : List Piece) :
    reread (p :: ps) = p.rewritten :: reread ps := by
  cases p with
  | text body => exact absurd rfl (hp body)
  | _ => rfl

/-- What is written for pieces is read to its end. -/
theorem scan_written {ps : List Piece} (h : ∀ p ∈ ps, p.Rereadable) :
    scan (ps.flatMap written) = (reread ps, true) := by
  induction ps with
  | nil => rw [List.flatMap_nil, scan]; rfl
  | cons p ps ih =>
    obtain ⟨hp, hps⟩ := List.forall_mem_cons.1 h
    rw [List.flatMap_cons]
    cases p with
    | text body =>
      have hwritten : (text body).written = body := rfl
      rw [hwritten, scan_joinText hp.1 hp.2, ih hps]
      rfl
    | _ =>
      rw [hp, ih hps]
      rfl

end XsdCatalog.Fragment.Piece
