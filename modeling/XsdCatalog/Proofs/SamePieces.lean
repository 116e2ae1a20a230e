import Mathlib.Data.List.Forall2
import XsdCatalog.Proofs.SameLines

/-!
# Pieces with the same lines

Bytes with the same lines are cut into the same pieces, up to the line ends inside them. Names in
start tags hold no line ends, so end tags match in both or in none.
-/

namespace XsdCatalog.Fragment

open Piece (tagName stopName isDoctype upper ofTagBody markup? next?)

variable {alone : Prop} {xs ys name : Bytes} {b c : UInt8}

/-- The pieces are of one kind, and their bodies have the same lines. -/
inductive SamePiece (alone : Prop) : Piece → Piece → Prop
  | text {xs ys : Bytes} (body : SameLines alone xs ys) : SamePiece alone (.text xs) (.text ys)
  | start {xs ys : Bytes} (body : SameLines alone xs ys) : SamePiece alone (.start xs) (.start ys)
  | empty {xs ys : Bytes} (body : SameLines alone xs ys) : SamePiece alone (.empty xs) (.empty ys)
  | stop {xs ys : Bytes} (body : SameLines alone xs ys) : SamePiece alone (.stop xs) (.stop ys)
  | comment {xs ys : Bytes} (body : SameLines alone xs ys) :
    SamePiece alone (.comment xs) (.comment ys)
  | cdata {xs ys : Bytes} (body : SameLines alone xs ys) : SamePiece alone (.cdata xs) (.cdata ys)
  | instruction {xs ys : Bytes} (body : SameLines alone xs ys) :
    SamePiece alone (.instruction xs) (.instruction ys)
  | doctype {xs ys : Bytes} (body : SameLines alone xs ys)
      (keyword : (xs.take 7).map upper = ascii "DOCTYPE") :
    SamePiece alone (.doctype xs) (.doctype ys)

namespace SameLines

theorem flatMap {α β : Type} {r : α → β → Prop} {as : List α} {bs : List β} {f : α → Bytes}
    {g : β → Bytes} (h : List.Forall₂ r as bs) (hr : ∀ a b, r a b → SameLines alone (f a) (g b)) :
    SameLines alone (as.flatMap f) (bs.flatMap g) := by
  induction h with
  | nil => exact .nil
  | cons hab _ ih => exact (hr _ _ hab).append ih

theorem oneLine_tagName (body : Bytes) : OneLine (tagName body) := by
  intro b hb
  have hspace : (!isSpace b) = true := List.mem_takeWhile_imp (p := (!isSpace ·)) hb
  rw [isVisible_iff]
  constructor <;> rintro rfl <;> cases hspace

theorem tagName_eq (h : SameLines alone xs ys) : tagName xs = tagName ys :=
  (h.takeWhile (p := (!isSpace ·)) rfl).eq_of_oneLine (oneLine_tagName ys)

/-- A name in an end tag goes up to the last byte that is no space. -/
theorem stopName_append {us spaces : Bytes} (hb : isSpace b = false)
    (hspaces : spaces.all isSpace = true) : stopName (us ++ b :: spaces) = us ++ [b] := by
  have hall : ¬ (us ++ b :: spaces).all isSpace = true := by simp [hb]
  have hdrop : (us ++ b :: spaces).reverse.dropWhile isSpace = b :: us.reverse := by
    have hreverse : (us ++ b :: spaces).reverse = spaces.reverse ++ b :: us.reverse := by simp
    rw [hreverse]
    apply Text.dropWhile_append
    · intro c hc
      exact List.all_eq_true.1 hspaces c (List.mem_reverse.1 hc)
    · exact hb
  rw [stopName, if_neg hall, hdrop]
  simp

theorem exists_last_name {body : Bytes} (h : ¬ body.all isSpace = true) :
    ∃ us b spaces, body = us ++ b :: spaces ∧ isSpace b = false ∧ spaces.all isSpace = true := by
  induction body using List.reverseRecOn with
  | nil => exact absurd rfl h
  | append_singleton body b ih =>
    by_cases hb : isSpace b = true
    · have hbody : ¬ body.all isSpace = true := by
        intro hbody
        apply h
        rw [List.all_append, hbody]
        simp [hb]
      obtain ⟨us, c, spaces, rfl, hc, hspaces⟩ := ih hbody
      refine ⟨us, c, spaces ++ [b], by simp, hc, ?_⟩
      rw [List.all_append, hspaces]
      simp [hb]
    · exact ⟨body, b, [], rfl, Bool.eq_false_iff.2 hb, rfl⟩

theorem isVisible_of_not_isSpace (hb : isSpace b = false) : isVisible b = true := by
  rw [isVisible_iff]
  constructor <;> rintro rfl <;> cases hb

private theorem stopName (h : SameLines alone xs ys) :
    SameLines alone (Piece.stopName xs) (Piece.stopName ys) := by
  by_cases hall : xs.all isSpace = true
  · have hall' : ys.all isSpace = true := by rwa [← h.all_eq rfl]
    rw [Piece.stopName, Piece.stopName, if_pos hall, if_pos hall']
    exact h
  · obtain ⟨us, b, spaces, rfl, hb, hspaces⟩ := exists_last_name hall
    obtain ⟨vs, spaces', rfl, hfront, hbehind⟩ :=
      h.exists_of_append_cons (isVisible_of_not_isSpace hb)
    have hspaces' : spaces'.all isSpace = true := by rwa [← hbehind.all_eq rfl]
    rw [stopName_append hb hspaces, stopName_append hb hspaces']
    exact hfront.append (.byte (isVisible_iff.1 (isVisible_of_not_isSpace hb)).1 .nil)

/-- End tags match a name without line ends in both or in none. -/
theorem stopName_eq_iff (h : SameLines alone xs ys) (hname : OneLine name) :
    Piece.stopName xs = name ↔ Piece.stopName ys = name := by
  have hstop := h.stopName
  constructor
  · intro hx
    rw [hx] at hstop
    rw [← hstop.eq_of_oneLine (hstop.oneLine_iff.1 hname)]
  · intro hy
    rw [hy] at hstop
    exact hstop.eq_of_oneLine hname

private theorem oneLine_keyword (h : (xs.take 7).map upper = ascii "DOCTYPE") :
    OneLine (xs.take 7) := by
  intro b hb
  have hupper : upper b ∈ ascii "DOCTYPE" := h ▸ List.mem_map_of_mem hb
  rw [isVisible_iff]
  constructor <;> rintro rfl <;> exact absurd hupper (by decide)

private theorem length_keyword (h : (xs.take 7).map upper = ascii "DOCTYPE") :
    (xs.take 7).length = 7 := by
  rw [← List.length_map upper, h]
  rfl

private theorem keyword_iff (h : SameLines alone xs ys) :
    (xs.take 7).map upper = ascii "DOCTYPE" ↔ (ys.take 7).map upper = ascii "DOCTYPE" := by
  constructor
  · intro hx
    have hp := (h.prefix_iff (oneLine_keyword hx)).1 (List.take_prefix 7 xs)
    rw [List.prefix_iff_eq_take, length_keyword hx] at hp
    rwa [← hp]
  · intro hy
    have hp := (h.prefix_iff (oneLine_keyword hy)).2 (List.take_prefix 7 ys)
    rw [List.prefix_iff_eq_take, length_keyword hy] at hp
    rwa [← hp]

private theorem drop_keyword (h : SameLines alone xs ys)
    (hx : (xs.take 7).map upper = ascii "DOCTYPE") : SameLines alone (xs.drop 7) (ys.drop 7) := by
  have hdrop := h.drop_length (oneLine_keyword hx) (List.take_prefix 7 xs)
  rwa [length_keyword hx] at hdrop

private theorem isDoctype_eq (h : SameLines alone xs ys) : isDoctype xs = isDoctype ys := by
  rw [Bool.eq_iff_iff, isDoctype, isDoctype, Bool.and_eq_true, Bool.and_eq_true, beq_iff_eq,
    beq_iff_eq, ← h.keyword_iff]
  apply and_congr_right
  intro hx
  rw [(h.drop_keyword hx).all_eq rfl]

/-- The same piece is read from both, and what follows it has the same lines. -/
def SameRead (alone : Prop) (x y : Piece × Bytes) : Prop :=
  SamePiece alone x.1 y.1 ∧ SameLines alone x.2 y.2

private theorem rel_map {x y : Option (Bytes × Bytes)} (h : Option.Rel (Halves alone) x y)
    {piece : Bytes → Piece}
    (hpiece : ∀ {xs ys}, SameLines alone xs ys → SamePiece alone (piece xs) (piece ys)) :
    Option.Rel (SameRead alone) (x.map fun (body, rest) => (piece body, rest))
      (y.map fun (body, rest) => (piece body, rest)) := by
  cases h with
  | none => exact .none
  | some h => exact .some ⟨hpiece h.1, h.2⟩

private theorem ofTagBody (h : SameLines alone xs ys) :
    SamePiece alone (Piece.ofTagBody xs) (Piece.ofTagBody ys) := by
  rw [Piece.ofTagBody, Piece.ofTagBody]
  by_cases hx : xs.getLast? = some 0x2F
  · obtain ⟨us, rfl⟩ := List.getLast?_eq_some_iff.1 hx
    obtain ⟨vs, rest, rfl, hfront, hbehind⟩ := h.exists_of_append_cons rfl
    obtain rfl : rest = [] := hbehind.nil_iff.1 rfl
    simp only [List.getLast?_concat, List.dropLast_concat, if_true]
    exact .empty hfront
  · have hy : ¬ ys.getLast? = some 0x2F := by
      intro hy
      obtain ⟨vs, rfl⟩ := List.getLast?_eq_some_iff.1 hy
      obtain ⟨us, rest, rfl, -, hbehind⟩ := h.exists_of_append_cons_right rfl
      obtain rfl : rest = [] := hbehind.nil_iff.2 rfl
      exact hx List.getLast?_concat
    rw [if_neg hx, if_neg hy]
    exact .start h

private theorem markup?_tag (h : SameLines alone (b :: xs) (c :: ys))
    (hb : b ≠ 0x2F ∧ b ≠ 0x3F ∧ b ≠ 0x21) (hc : c ≠ 0x2F ∧ c ≠ 0x3F ∧ c ≠ 0x21) :
    Option.Rel (SameRead alone) (Piece.markup? (b :: xs)) (Piece.markup? (c :: ys)) := by
  rw [Piece.markup?_of_ne hb, Piece.markup?_of_ne hc]
  exact rel_map (h.splitTag (by simp) .nil) ofTagBody

private theorem head?_iff (h : SameLines alone xs ys) (hb : isVisible b = true) :
    xs.head? = some b ↔ ys.head? = some b := by
  rw [List.head?_eq_some_iff, List.head?_eq_some_iff]
  constructor
  · rintro ⟨rest, rfl⟩
    obtain ⟨rest', rfl, -⟩ := h.exists_of_cons hb
    exact ⟨rest', rfl⟩
  · rintro ⟨rest, rfl⟩
    obtain ⟨rest', rfl, -⟩ := h.exists_of_cons_right hb
    exact ⟨rest', rfl⟩

private theorem markup?_instruction (h : SameLines alone xs ys) :
    Option.Rel (SameRead alone) (Piece.markup? (0x3F :: xs)) (Piece.markup? (0x3F :: ys)) := by
  rw [Piece.markup?, Piece.markup?]
  by_cases hx : xs.head? = some 0x3E
  · rw [if_pos hx, if_pos ((h.head?_iff rfl).1 hx)]
    exact .none
  · rw [if_neg hx, if_neg fun hy => hx ((h.head?_iff rfl).2 hy)]
    exact rel_map (h.splitFirst? (by decide) (by decide)) .instruction

private theorem markup?_declaration (h : SameLines alone xs ys) :
    Option.Rel (SameRead alone) (Piece.markup? (0x21 :: xs)) (Piece.markup? (0x21 :: ys)) := by
  have hcomment : OneLine (ascii "--") := by decide
  have hcdata : OneLine (ascii "[CDATA[") := by decide
  rw [Piece.markup?, Piece.markup?, ← h.isPrefixOf_eq hcomment, ← h.isPrefixOf_eq hcdata]
  split
  · next hp =>
    have hrest := h.drop_length hcomment (List.isPrefixOf_iff_prefix.1 hp)
    exact rel_map (hrest.splitFirst? (by decide) (by decide)) .comment
  · split
    · next hp =>
      have hrest := h.drop_length hcdata (List.isPrefixOf_iff_prefix.1 hp)
      exact rel_map (hrest.splitFirst? (by decide) (by decide)) .cdata
    · have hseen : SameLines alone ([] : Bytes).reverse ([] : Bytes).reverse := .nil
      have hsplit := h.splitBalanced 0 hseen
      generalize Piece.splitBalanced 0 [] xs = x at hsplit ⊢
      generalize Piece.splitBalanced 0 [] ys = y at hsplit ⊢
      cases hsplit with
      | none => exact .none
      | @some x y hsplit =>
        simp only [Option.bind_some, ← hsplit.1.isDoctype_eq]
        split
        · next hdoctype =>
          rw [isDoctype, Bool.and_eq_true, beq_iff_eq] at hdoctype
          exact .some ⟨.doctype hsplit.1 hdoctype.1, hsplit.2⟩
        · exact .none

private theorem markup? (h : SameLines alone xs ys) :
    Option.Rel (SameRead alone) (Piece.markup? xs) (Piece.markup? ys) := by
  cases h with
  | nil => exact .none
  | @byte b xs ys plain rest =>
    by_cases hstop : b = 0x2F
    · subst hstop
      rw [Piece.markup?, Piece.markup?]
      exact rel_map (rest.splitTag (by simp) .nil) .stop
    by_cases hinstruction : b = 0x3F
    · subst hinstruction
      exact rest.markup?_instruction
    by_cases hdeclaration : b = 0x21
    · subst hdeclaration
      exact rest.markup?_declaration
    · have hb : b ≠ 0x2F ∧ b ≠ 0x3F ∧ b ≠ 0x21 := ⟨hstop, hinstruction, hdeclaration⟩
      exact markup?_tag (.byte plain rest) hb hb
  | pair rest => exact markup?_tag (.pair rest) (by decide) (by decide)
  | lone ends rest => exact markup?_tag (.lone ends rest) (by decide) (by decide)

/-- A text goes up to the next `<`. -/
theorem next?_of_ne (hb : b ≠ 0x3C) (bytes : Bytes) :
    Piece.next? b bytes
      = some (.text ((b :: bytes).takeWhile (· != 0x3C)), (b :: bytes).dropWhile (· != 0x3C)) := by
  rw [next?, if_neg hb, List.takeWhile_cons_of_pos (by simpa using hb),
    List.dropWhile_cons_of_pos (by simpa using hb)]

private theorem next? (h : SameLines alone (b :: xs) (c :: ys)) :
    Option.Rel (SameRead alone) (Piece.next? b xs) (Piece.next? c ys) := by
  by_cases hb : b = 0x3C
  · subst hb
    obtain ⟨ys', he, hrest⟩ := h.exists_of_cons rfl
    obtain ⟨rfl, rfl⟩ := List.cons.inj he
    rw [Piece.next?, Piece.next?, if_pos rfl, if_pos rfl]
    exact hrest.markup?
  · have hc : c ≠ 0x3C := by
      rintro rfl
      obtain ⟨xs', he, -⟩ := h.exists_of_cons_right rfl
      exact hb (List.cons.inj he).1
    rw [next?_of_ne hb, next?_of_ne hc]
    exact .some ⟨.text (h.takeWhile rfl), h.dropWhile rfl⟩

theorem scan_of_none (h : Piece.next? b xs = none) : Piece.scan (b :: xs) = ([], false) := by
  rw [Piece.scan]
  split
  · rfl
  · next hsome =>
    rw [h] at hsome
    cases hsome

theorem scan (h : SameLines alone xs ys) :
    List.Forall₂ (SamePiece alone) (Piece.scan xs).1 (Piece.scan ys).1 ∧
      (Piece.scan xs).2 = (Piece.scan ys).2 := by
  induction hlength : xs.length using Nat.strongRecOn generalizing xs ys with
  | ind n ih =>
    cases xs with
    | nil =>
      obtain rfl := h.nil_iff.1 rfl
      rw [Piece.scan]
      exact ⟨.nil, rfl⟩
    | cons b xs =>
      have hne : ys ≠ [] := fun he => absurd (h.nil_iff.2 he) (List.cons_ne_nil b xs)
      obtain ⟨c, ys, rfl⟩ := List.exists_cons_of_ne_nil hne
      have hread := h.next?
      generalize hx : Piece.next? b xs = x at hread
      generalize hy : Piece.next? c ys = y at hread
      cases hread with
      | none =>
        rw [scan_of_none hx, scan_of_none hy]
        exact ⟨.nil, rfl⟩
      | some hread =>
        have hlt := Piece.next?_length hx
        rw [List.length_cons] at hlength
        obtain ⟨hpieces, hwhole⟩ := ih _ (by omega) hread.2 rfl
        rw [Piece.scan_cons hx, Piece.scan_cons hy]
        exact ⟨.cons hread.1 hpieces, hwhole⟩

end SameLines

namespace SamePiece

variable {p q : Piece}

theorem source (h : SamePiece alone p q) : SameLines alone p.source q.source := by
  cases h with
  | text body => exact body
  | start body =>
    exact .byte (by decide) (body.append (.of_oneLine alone (by decide)))
  | empty body =>
    exact .byte (by decide) (body.append (.of_oneLine alone (by decide)))
  | stop body =>
    exact .byte (by decide) (.byte (by decide) (body.append (.of_oneLine alone (by decide))))
  | comment body =>
    exact ((SameLines.of_oneLine alone (by decide)).append body).append
      (.of_oneLine alone (by decide))
  | cdata body =>
    exact ((SameLines.of_oneLine alone (by decide)).append body).append
      (.of_oneLine alone (by decide))
  | instruction body =>
    exact .byte (by decide) (.byte (by decide) (body.append (.of_oneLine alone (by decide))))
  | doctype body _ =>
    exact .byte (by decide) (.byte (by decide) (body.append (.of_oneLine alone (by decide))))

theorem written (h : SamePiece alone p q) : SameLines alone p.written q.written := by
  cases h with
  | stop body =>
    exact .byte (by decide) (.byte (by decide)
      (body.stopName.append (.of_oneLine alone (by decide))))
  | doctype body keyword =>
    have hrest := (body.drop_keyword keyword).dropWhile (p := isSpace) rfl
    exact ((SameLines.of_oneLine alone (by decide)).append hrest).append
      (.of_oneLine alone (by decide))
  | text body => exact (SamePiece.text body).source
  | start body => exact (SamePiece.start body).source
  | empty body => exact (SamePiece.empty body).source
  | comment body => exact (SamePiece.comment body).source
  | cdata body => exact (SamePiece.cdata body).source
  | instruction body => exact (SamePiece.instruction body).source

theorem flat_iff (h : SamePiece alone p q) : p.Flat ↔ q.Flat := by
  cases h <;> rfl

end SamePiece

end XsdCatalog.Fragment
