import XsdCatalog.Proofs.NormalSpelling

/-!
# What normalised spellings say

Attribute values and character data say the same with normalised line ends: their readers normalise
them anyway. So do texts in which no carriage return stands beside a reference; the reader of texts
leaves a character as it is that stands right behind a reference, and a carriage return in front of
one.
-/

namespace XsdCatalog.Markup

open Text (unixLines unixChar)

/-- What is passed up to a semicolon does not depend on what stands behind the semicolon. -/
theorem run_before_semicolon {p : Char → Bool} (hsemicolon : p ';' = false) (hreturn : p '\r' = false)
    {cs rest : List Char} (h : cs.dropWhile p = ';' :: rest) :
    cs = cs.takeWhile p ++ ';' :: rest ∧ '\r' ∉ cs.takeWhile p ∧
      ∀ rest, (cs.takeWhile p ++ ';' :: rest).takeWhile p = cs.takeWhile p ∧
        (cs.takeWhile p ++ ';' :: rest).dropWhile p = ';' :: rest := by
  have hall : ∀ c ∈ cs.takeWhile p, p c = true := fun _ hc => List.mem_takeWhile_imp hc
  refine ⟨?_, fun hm => ?_, fun rest => ⟨?_, ?_⟩⟩
  · rw [← h, List.takeWhile_append_dropWhile]
  · rw [hall _ hm] at hreturn
    cases hreturn
  · exact Text.takeWhile_append hall hsemicolon
  · exact Text.dropWhile_append hall hsemicolon

/-- A character by its number: the digits up to a semicolon, and what follows it. -/
def numberReference? (base : Nat) (cs : List Char) : Option (Piece × List Char) :=
  let isDigit := fun c => (digitValue? base c).isSome
  match numbered? base (cs.takeWhile isDigit), cs.dropWhile isDigit with
  | some c, ';' :: rest => some (.reference c, rest)
  | _, _ => none

private theorem exists_digits {base : Nat} {cs rest : List Char} {p : Piece}
    (h : numberReference? base cs = some (p, rest)) :
    ∃ c digits, p = .reference c ∧ cs = digits ++ ';' :: rest ∧ '\r' ∉ digits ∧
      (∀ d ∈ digits, (digitValue? base d).isSome = true) ∧ digits ≠ [] ∧
      ∀ rest, numberReference? base (digits ++ ';' :: rest) = some (.reference c, rest) := by
  rw [numberReference?] at h
  split at h
  · next c rest' hc hrest =>
    cases h
    obtain ⟨hcs, hreturn, hbehind⟩ :=
      run_before_semicolon (by simp [digitValue?]) (by simp [digitValue?]) hrest
    have hdigits : ∀ d ∈ cs.takeWhile fun d => (digitValue? base d).isSome,
        (digitValue? base d).isSome = true :=
      fun d hd => List.mem_takeWhile_imp (p := fun d => (digitValue? base d).isSome) hd
    refine ⟨c, _, rfl, hcs, hreturn, hdigits, fun hnil => ?_, fun rest => ?_⟩
    · rw [hnil] at hc
      cases hc
    · rw [numberReference?]
      simp only [(hbehind rest).1, (hbehind rest).2, hc]
  · cases h

private theorem named_ne_plain (name : List Char) (c : Char) : named name ≠ .plain c := by
  unfold named
  split <;> exact Piece.noConfusion

/-- What begins with a reference begins with it whatever stands behind its semicolon. -/
theorem exists_name_of_reference? {cs rest : List Char} {p : Piece}
    (h : reference? cs = some (p, rest)) :
    (∀ c, p ≠ .plain c) ∧ ∃ name, cs = name ++ ';' :: rest ∧ '\r' ∉ name ∧
      ∀ rest, reference? (name ++ ';' :: rest) = some (p, rest) := by
  rw [reference?.eq_def] at h
  simp only at h
  split at h
  · next cs =>
    obtain ⟨c, digits, rfl, rfl, hreturn, -, -, hbehind⟩ := exists_digits h
    exact ⟨fun _ => Piece.noConfusion, '#' :: 'x' :: digits, rfl, by simpa using hreturn, hbehind⟩
  · next cs hx =>
    obtain ⟨c, digits, rfl, rfl, hreturn, hdigits, hne, hbehind⟩ := exists_digits h
    refine ⟨fun _ => Piece.noConfusion, '#' :: digits, rfl, by simpa using hreturn, fun rest => ?_⟩
    rw [List.cons_append, reference?.eq_2]
    · exact hbehind rest
    · intro tail htail
      obtain ⟨d, digits, rfl⟩ := List.exists_cons_of_ne_nil hne
      injection htail with hd _
      have hdigit := hdigits d List.mem_cons_self
      rw [hd] at hdigit
      exact absurd hdigit (by decide)
  · next first tail hx hhash =>
    split at h
    · next rest hrest =>
      obtain ⟨hstart, h⟩ := Option.ite_none_right_eq_some.1 h
      cases h
      obtain ⟨hcs, hreturn, hbehind⟩ := run_before_semicolon (by decide) (by decide) hrest
      refine ⟨named_ne_plain _, (first :: tail).takeWhile isNameChar, hcs, hreturn, fun rest => ?_⟩
      have hfirst : isNameChar first = true := by
        by_contra hfirst
        rw [List.dropWhile_cons_of_neg hfirst] at hrest
        injection hrest with hsemicolon _
        rw [hsemicolon] at hstart
        cases hstart
      have hne : first ≠ '#' := fun hf => absurd (hf ▸ hfirst) (by decide)
      have hname : (first :: tail).takeWhile isNameChar = first :: tail.takeWhile isNameChar :=
        List.takeWhile_cons_of_pos hfirst
      obtain ⟨htake, hdrop⟩ := hbehind rest
      rw [hname, List.cons_append] at htake hdrop ⊢
      rw [reference?.eq_3 _ _ (fun _ hf => absurd hf hne) (fun hf => absurd hf hne), hdrop, htake]
      simp only [hstart, if_true]
    · cases h
  · cases h

private theorem piecesFrom_eq (done : List Piece) (cs : List Char) :
    piecesFrom done cs = (pieces? cs).map (done.reverse ++ ·) := by
  induction hn : cs.length using Nat.strong_induction_on generalizing done cs with
  | _ n ih =>
    subst hn
    rw [pieces?, piecesFrom.eq_def, piecesFrom.eq_def []]
    cases cs with
    | nil => simp
    | cons c cs =>
      by_cases hc : c = '&'
      · simp only [hc, if_true]
        split
        · next p rest hp =>
          have hlength : rest.length < ('&' :: cs).length :=
            Nat.lt_succ_of_lt (reference?_length hp)
          rw [ih _ (hc ▸ hlength) (p :: done) rest rfl, ih _ (hc ▸ hlength) [p] rest rfl]
          cases pieces? rest <;> simp
        · rfl
      · simp only [hc, if_false]
        rw [ih _ (Nat.lt_succ_self _) (.plain c :: done) cs rfl,
          ih _ (Nat.lt_succ_self _) [.plain c] cs rfl]
        cases pieces? cs <;> simp

private theorem pieces?_reference {cs rest : List Char} {p : Piece}
    (h : reference? cs = some (p, rest)) : pieces? ('&' :: cs) = (pieces? rest).map (p :: ·) := by
  rw [pieces?, piecesFrom.eq_def]
  simp only [if_true]
  split
  · next q rest' hq =>
    rw [h] at hq
    cases hq
    exact piecesFrom_eq [p] rest
  · next hnone =>
    rw [h] at hnone
    cases hnone

private theorem pieces?_plain {c : Char} (hc : c ≠ '&') (cs : List Char) :
    pieces? (c :: cs) = (pieces? cs).map (.plain c :: ·) := by
  rw [pieces?, piecesFrom.eq_def]
  simp only [hc, if_false]
  exact piecesFrom_eq [.plain c] cs

private theorem exists_reference_of_pieces? {cs : List Char} {ps : List Piece}
    (h : pieces? ('&' :: cs) = some ps) :
    ∃ p rest more, reference? cs = some (p, rest) ∧ pieces? rest = some more ∧ ps = p :: more := by
  cases hr : reference? cs with
  | none =>
    rw [pieces?, piecesFrom.eq_def] at h
    simp only [if_true] at h
    split at h
    · next hq =>
      rw [hr] at hq
      cases hq
    · cases h
  | some found =>
    obtain ⟨p, rest⟩ := found
    rw [pieces?_reference hr] at h
    obtain ⟨more, hmore, rfl⟩ := Option.map_eq_some_iff.1 h
    exact ⟨p, rest, more, rfl, hmore, rfl⟩

/-- A carriage return and a line feed are one piece, and so is a carriage return alone. -/
def unixPieces : List Piece → List Piece
  | [] => []
  | .plain '\r' :: .plain '\n' :: ps => .plain '\n' :: unixPieces ps
  | .plain c :: ps => .plain (unixChar c) :: unixPieces ps
  | .reference c :: ps => .reference c :: unixPieces ps
  | .entity name :: ps => .entity name :: unixPieces ps

private theorem unixPieces_cons_of_ne {p : Piece} (hp : p ≠ .plain '\r') (ps : List Piece) :
    unixPieces (p :: ps) = p :: unixPieces ps := by
  cases p with
  | plain c =>
    have hc : c ≠ '\r' := fun h => hp (h ▸ rfl)
    rw [unixPieces, unixChar, if_neg hc]
    exact fun _ _ h => hc h
  | reference c => rfl
  | entity name => rfl

/-- A character by itself stands where its piece does. -/
theorem head?_of_pieces? {cs : List Char} {c : Char} {ps : List Piece}
    (h : pieces? cs = some (.plain c :: ps)) : cs.head? = some c := by
  cases cs with
  | nil =>
    rw [pieces?, piecesFrom] at h
    cases h
  | cons d cs =>
    by_cases hd : d = '&'
    · subst hd
      obtain ⟨p, rest, more, hp, -, he⟩ := exists_reference_of_pieces? h
      injection he with he _
      exact absurd he.symm ((exists_name_of_reference? hp).1 c)
    · rw [pieces?_plain hd] at h
      obtain ⟨more, -, he⟩ := Option.map_eq_some_iff.1 h
      injection he with he _
      cases he
      rfl

private theorem pieces?_unixLines {cs : List Char} {ps : List Piece} (h : pieces? cs = some ps) :
    pieces? (unixLines cs) = some (unixPieces ps) := by
  induction hn : cs.length using Nat.strong_induction_on generalizing cs ps with
  | _ n ih =>
    subst hn
    cases cs with
    | nil =>
      rw [pieces?, piecesFrom] at h
      cases h
      rw [unixLines, pieces?, piecesFrom]
      rfl
    | cons c cs =>
      by_cases hc : c = '&'
      · subst hc
        obtain ⟨p, rest, more, hp, hmore, rfl⟩ := exists_reference_of_pieces? h
        obtain ⟨hpiece, name, rfl, hreturn, hname⟩ := exists_name_of_reference? hp
        have hlength : rest.length < ('&' :: (name ++ ';' :: rest)).length := by
          simp
          omega
        rw [Text.unixLines_cons_of_ne (by decide), Text.unixLines_append_of_not_mem hreturn,
          Text.unixLines_cons_of_ne (by decide), pieces?_reference (hname _),
          ih _ hlength hmore rfl, unixPieces_cons_of_ne (hpiece _)]
        rfl
      · rw [pieces?_plain hc] at h
        obtain ⟨more, hmore, rfl⟩ := Option.map_eq_some_iff.1 h
        by_cases hreturn : c = '\r'
        · subst hreturn
          by_cases hfeed : cs.head? = some '\n'
          · obtain ⟨cs, rfl⟩ := List.head?_eq_some_iff.1 hfeed
            rw [pieces?_plain (by decide)] at hmore
            obtain ⟨more, hrest, rfl⟩ := Option.map_eq_some_iff.1 hmore
            have hlength : cs.length < ('\r' :: '\n' :: cs).length :=
              Nat.lt_succ_of_lt (Nat.lt_succ_self _)
            rw [unixLines, pieces?_plain (by decide), ih _ hlength hrest rfl]
            rfl
          · rw [Text.unixLines_return hfeed, pieces?_plain (by decide),
              ih _ (Nat.lt_succ_self _) hmore rfl, unixPieces]
            · rfl
            · rintro tail rfl -
              exact hfeed (head?_of_pieces? hmore)
        · rw [Text.unixLines_cons_of_ne hreturn, pieces?_plain hc,
            ih _ (Nat.lt_succ_self _) hmore rfl, unixPieces_cons_of_ne (by simpa using hreturn)]
          rfl

private theorem attributeFrom_unixPieces (enter : List Char → Nat → Option (List Char × Nat))
    (done : List Char) (ps : List Piece) (count : Nat) :
    attributeFrom false enter done (unixPieces ps) count
      = attributeFrom false enter done ps count := by
  have hchar (c : Char) : unixChar c ≠ '\r' ∧ attributeChar (unixChar c) = attributeChar c := by
    rw [unixChar]
    split
    · next hc => exact ⟨by decide, by rw [hc]; rfl⟩
    · next hc => exact ⟨hc, rfl⟩
  fun_induction unixPieces ps generalizing done count with
  | case1 => rfl
  | case2 ps ih =>
    rw [attributeFrom.eq_2, attributeFrom.eq_3 _ _ _ _ _ _ (fun _ h _ => absurd h (by decide)),
      attributeFrom.eq_3 _ _ _ _ _ _ (fun _ h _ => absurd h (by decide)), ih]
  | case3 c ps hn ih =>
    rw [attributeFrom.eq_3 _ _ _ _ _ _ (fun _ h _ => absurd h (hchar c).1), (hchar c).2, ih,
      attributeFrom.eq_3 _ _ _ _ _ _ fun tail hc hps => hn tail hps hc]
  | case4 c ps ih => exact ih _ _
  | case5 name ps ih =>
    rw [attributeFrom, attributeFrom]
    simp only [ih]

private theorem value?_unixLines {raw value : List Char} (h : value? raw = some value) :
    value? (unixLines raw) = some value := by
  obtain ⟨ps, hps, h⟩ := Option.bind_eq_some_iff.1 h
  rw [value?, pieces?_unixLines hps, Option.bind_some, attributeFrom_unixPieces]
  exact h

theorem values?_normal {as : List SpelledAttribute} {values : List (TagName × String)}
    (h : values? (as.map (·.raw)) = some values) :
    values? ((as.map (·.normal)).map (·.raw)) = some values := by
  induction as generalizing values with
  | nil => exact h
  | cons a as ih =>
    obtain ⟨value, hvalue, h⟩ := Option.bind_eq_some_iff.1 h
    obtain ⟨rest, hrest, h⟩ := Option.bind_eq_some_iff.1 h
    have hnormal : value? a.normal.raw.value = some value := value?_unixLines hvalue
    rw [List.map_cons, List.map_cons, values?, hnormal, ih hrest]
    exact h

/-- No carriage return stands right in front of a reference, or behind one at the end. -/
def Steady (ps : List Piece) : Prop :=
  (∀ c : Char, ¬ [.plain '\r', .reference c] <:+: ps) ∧
    ∀ c : Char, ¬ [.reference c, .plain '\r'] <:+ ps

/-- No carriage return waits for what follows it. -/
def Settled (text : List Char) (verbatim : Bool) : Prop :=
  verbatim = false → text.head? ≠ some '\r'

private theorem settled_cons {c : Char} (hc : c ≠ '\r') (text : List Char) (verbatim : Bool) :
    Settled (c :: text) verbatim :=
  fun _ h => hc (Option.some.inj h)

/-- The text behind a character by itself. -/
def pushPlain (text : List Char) (verbatim : Bool) (c : Char) (last : Bool) : List Char :=
  if verbatim then c :: text else pushChar text c last

private theorem plainFrom_plain (text : List Char) (verbatim : Bool) (c : Char) (ps : List Piece) :
    plainFrom text verbatim (.plain c :: ps)
      = plainFrom (pushPlain text verbatim c ps.isEmpty) false ps := by
  rw [plainFrom, pushPlain]
  split <;> rfl

private theorem pushPlain_eq {text : List Char} {verbatim : Bool} (h : Settled text verbatim)
    {c : Char}
    {last : Bool} (hc : c = '\r' → last = false) : pushPlain text verbatim c last = c :: text := by
  cases verbatim with
  | true => rfl
  | false =>
    show pushChar text c last = c :: text
    rw [pushChar.eq_def]
    split
    · exact absurd rfl (h rfl)
    · refine if_neg fun hreturn => ?_
      rw [Bool.and_eq_true, beq_iff_eq] at hreturn
      rw [hc hreturn.2] at hreturn
      cases hreturn.1

/-- What follows a carriage return turns it into a line feed. -/
theorem pushPlain_return {c : Char} (hc : c ≠ '\n') (text : List Char) (last : Bool) :
    pushPlain ('\r' :: text) false c last = pushPlain ('\n' :: text) false c last := by
  show pushChar ('\r' :: text) c last = pushChar ('\n' :: text) c last
  rw [pushChar.eq_1, pushChar.eq_2 _ _ _ fun _ h => by cases h]
  rw [if_pos (bne_iff_ne.2 hc)]

private theorem pushPlain_feed (text : List Char) (last : Bool) :
    pushPlain ('\r' :: text) false '\n' last = '\n' :: text := by
  show pushChar ('\r' :: text) '\n' last = '\n' :: text
  rw [pushChar.eq_1]
  simp

private theorem pushPlain_last (text : List Char) (h : Settled text false) :
    pushPlain text false '\r' true = '\n' :: text := by
  show pushChar text '\r' true = '\n' :: text
  rw [pushChar.eq_def]
  split
  · exact absurd rfl (h rfl)
  · rfl

private theorem Steady.tail {p : Piece} {ps : List Piece} (h : Steady (p :: ps)) : Steady ps :=
  ⟨fun c hc => h.1 c (List.infix_cons hc), fun c hc => h.2 c (hc.trans (List.suffix_cons p ps))⟩

private theorem plainFrom_unixPieces {ps : List Piece} {text : List Char} {verbatim : Bool}
    (h : Steady ps) (hlast : ps = [.plain '\r'] → verbatim = false) (hs : Settled text verbatim) :
    plainFrom text verbatim (unixPieces ps) = plainFrom text verbatim ps := by
  fun_induction unixPieces ps generalizing text verbatim with
  | case1 => rfl
  | case2 ps ih =>
    rw [plainFrom_plain, pushPlain_eq hs (fun h => absurd h (by decide)), plainFrom_plain,
      List.isEmpty_cons, pushPlain_eq hs (fun _ => rfl), plainFrom_plain, pushPlain_feed]
    exact ih h.tail.tail (fun _ => rfl) (settled_cons (by decide) text false)
  | case3 c ps hn ih =>
    by_cases hc : c = '\r'
    · subst hc
      have hfeed := ih h.tail (fun _ => rfl) (settled_cons (by decide : '\n' ≠ '\r') text false)
      show plainFrom text verbatim (.plain '\n' :: unixPieces ps) = _
      rw [plainFrom_plain, pushPlain_eq hs (fun h => absurd h (by decide)), hfeed, plainFrom_plain]
      cases ps with
      | nil =>
        cases hlast rfl
        rw [List.isEmpty_nil, pushPlain_last text hs]
      | cons p ps =>
        rw [List.isEmpty_cons, pushPlain_eq hs (fun _ => rfl)]
        cases p with
        | plain d =>
          have hd : d ≠ '\n' := fun hd => hn ps (hd ▸ rfl) rfl
          rw [plainFrom_plain, plainFrom_plain, pushPlain_return hd]
        | reference d => exact absurd ⟨[], ps, rfl⟩ (h.1 d)
        | entity name => rfl
    · have hchar : unixChar c = c := if_neg hc
      rw [hchar, plainFrom_plain, plainFrom_plain, pushPlain_eq hs (fun h => absurd h hc),
        pushPlain_eq hs (fun h => absurd h hc)]
      exact ih h.tail (fun _ => rfl) (settled_cons hc text false)
  | case4 c ps ih =>
    refine ih h.tail (fun hps => ?_) (fun h => absurd h.symm Bool.false_ne_true)
    exact absurd (hps ▸ List.suffix_refl _) (h.2 c)
  | case5 name ps ih => rfl

theorem pieces?_of_not_mem {cs : List Char} (h : '&' ∉ cs) : pieces? cs = some (cs.map .plain) := by
  induction cs with
  | nil =>
    rw [pieces?, piecesFrom]
    rfl
  | cons c cs ih =>
    rw [List.mem_cons, not_or] at h
    rw [pieces?_plain (Ne.symm h.1), ih h.2]
    rfl

private theorem plainFrom_of_not_mem {cs : List Char} (h : '\r' ∉ cs) {text : List Char}
    (hs : Settled text false) : plainFrom text false (cs.map .plain) = some (text.reverse ++ cs) := by
  induction cs generalizing text with
  | nil => simp [plainFrom]
  | cons c cs ih =>
    rw [List.mem_cons, not_or] at h
    have hc : c ≠ '\r' := Ne.symm h.1
    rw [List.map_cons, plainFrom_plain, pushPlain_eq hs (fun h => absurd h hc),
      ih h.2 (settled_cons hc text false)]
    simp

/-- A text without references and carriage returns is what it spells. -/
theorem plainText?_eq (raw : List Char) :
    plainText? raw = (pieces? raw).bind (plainFrom [] false) := by
  rw [plainText?]
  split
  · rfl
  · next h =>
    have hmem (c : Char) (hc : c = '&' ∨ c = '\r') : c ∉ raw := by
      intro hm
      refine h (List.any_eq_true.2 ⟨c, hm, ?_⟩)
      rcases hc with rfl | rfl <;> rfl
    rw [pieces?_of_not_mem (hmem '&' (.inl rfl)), Option.bind_some,
      plainFrom_of_not_mem (hmem '\r' (.inr rfl)) (fun _ => by decide)]
    rfl

theorem plainText?_unixLines {raw text : List Char} (h : plainText? raw = some text)
    (hs : ∀ ps, pieces? raw = some ps → Steady ps) : plainText? (unixLines raw) = some text := by
  rw [plainText?_eq] at h ⊢
  obtain ⟨ps, hps, h⟩ := Option.bind_eq_some_iff.1 h
  rw [pieces?_unixLines hps, Option.bind_some,
    plainFrom_unixPieces (hs ps hps) (fun _ => rfl) (fun _ => by decide)]
  exact h

private theorem unixPieces_map_plain (cs : List Char) :
    unixPieces (cs.map .plain) = (unixLines cs).map .plain := by
  fun_induction unixLines cs with
  | case1 => rfl
  | case2 cs ih => 
    rw [List.map_cons, List.map_cons, unixPieces, ih]
    rfl
  | case3 c cs hn ih =>
    rw [List.map_cons, unixPieces, ih]
    · rfl
    · intro ps hps hc
      cases cs with
      | nil => cases hps
      | cons d cs =>
        injection hps with hd _
        injection hd with hd
        exact hn cs hc (hd ▸ rfl)

theorem steady_map_plain (cs : List Char) : Steady (cs.map .plain) := by
  have hreference (c : Char) {ps : List Piece} (hc : .reference c ∈ ps) : ¬ ps <:+: cs.map .plain := by
    intro h
    obtain ⟨d, -, hd⟩ := List.mem_map.1 (h.subset hc)
    cases hd
  exact ⟨fun c => hreference c (by simp), fun c h => hreference c (by simp) h.isInfix⟩

/-- Of characters by themselves the text of an entity is made like any other. -/
theorem segments_map_plain (text cs : List Char) :
    segments true text false (cs.map .plain)
      = ((plainFrom text false (cs.map .plain)).map fun read => Segment.ofReversed read.reverse).getD [] := by
  induction cs generalizing text with
  | nil => simp [segments, plainFrom]
  | cons c cs ih =>
    rw [List.map_cons, plainFrom_plain, segments]
    exact ih _

theorem cdataText_eq (raw : List Char) : cdataText raw = unixLines raw := by
  rw [cdataText]
  split
  · have hsettled : Settled [] false := fun _ => by decide
    have hread : plainFrom [] false (raw.map .plain) = some (unixLines raw) := by
      rw [← plainFrom_unixPieces (steady_map_plain raw) (fun _ => rfl) hsettled,
        unixPieces_map_plain, plainFrom_of_not_mem (Text.not_mem_unixLines raw) hsettled]
      rfl
    rw [segments_map_plain, hread, Option.map_some, Option.getD_some, Segment.ofReversed,
      List.isEmpty_reverse, List.reverse_reverse]
    cases unixLines raw <;> rfl
  · next h =>
    rw [Text.unixLines_of_not_mem]
    simpa using h

end XsdCatalog.Markup
