import XsdCatalog.Proofs.InheritedDeclarations
import XsdCatalog.Proofs.WrittenPieces

/-!
# Elements read again

The pieces that are read where an element was written make an element again, with the same first
tag. They are spelled as they are written, and so are pieces with the same lines.
-/

namespace XsdCatalog.Fragment

open Piece (reread joinText rewritten)

variable {alone : Prop} {p : Piece} {ps ps' qs element : List Piece} {xs ys body : Bytes}

private theorem joinText_append (body last : Bytes) (ps qs : List Piece) :
    joinText body (ps ++ .stop last :: qs) = joinText body ps ++ .stop last :: qs := by
  cases ps with
  | nil => rfl
  | cons p ps => cases p <;> rfl

/-- No text is joined with one behind an end tag. -/
theorem reread_append (last : Bytes) (ps qs : List Piece) :
    reread (ps ++ .stop last :: qs) = reread ps ++ .stop (Piece.stopName last) :: reread qs := by
  induction ps with
  | nil => rfl
  | cons p ps ih =>
    cases p with
    | text body =>
      rw [List.cons_append, reread, reread, ih]
      exact joinText_append body _ _ _
    | _ => exact congrArg (_ :: ·) ih

private theorem Balanced.joinText (h : Balanced ps) (body : Bytes) :
    Balanced (joinText body ps) := by
  cases h with
  | nil => exact .flat trivial .nil
  | @flat p ps hp hps =>
    cases p with
    | text more => exact .flat trivial hps
    | _ => exact .flat trivial (.flat hp hps)
  | element hinner hlast hps => exact .flat trivial (.element hinner hlast hps)

private theorem flat_rewritten (h : p.Flat) : p.rewritten.Flat := by
  cases p with
  | start body => cases h
  | stop body => cases h
  | _ => trivial

private theorem Balanced.reread (h : Balanced ps) : Balanced (reread ps) := by
  induction h with
  | nil => exact .nil
  | @flat p ps hp _ ih =>
    cases p with
    | text body => exact ih.joinText body
    | _ => exact .flat (flat_rewritten hp) ih
  | @element body last inner ps _ hlast _ ihInner ihRest =>
    have hreread : Piece.reread (.start body :: (inner ++ .stop last :: ps))
        = .start body
          :: (Piece.reread inner ++ .stop (Piece.stopName last) :: Piece.reread ps) :=
      congrArg (_ :: ·) (reread_append last inner ps)
    rw [hreread]
    exact .element ihInner ((Piece.stopName_stopName last).trans hlast) ihRest

theorem IsElement.reread (h : IsElement element) :
    IsElement (reread element) ∧ tagBody (reread element) = tagBody element := by
  cases h with
  | empty body => exact ⟨.empty body, rfl⟩
  | @full body last inner hinner hlast =>
    have hreread : Piece.reread (.start body :: (inner ++ [.stop last]))
        = .start body :: (Piece.reread inner ++ [.stop (Piece.stopName last)]) :=
      congrArg (_ :: ·) (reread_append last inner [])
    rw [hreread]
    exact ⟨.full hinner.reread ((Piece.stopName_stopName last).trans hlast), rfl⟩

private theorem mem_joinText (h : p ∈ joinText body ps) : (∃ more, p = .text more) ∨ p ∈ ps := by
  cases ps with
  | nil => exact .inl ⟨body, List.mem_singleton.1 h⟩
  | cons q ps =>
    cases q with
    | text more =>
      rcases List.mem_cons.1 h with rfl | h
      · exact .inl ⟨_, rfl⟩
      · exact .inr (List.mem_cons_of_mem _ h)
    | _ =>
      rcases List.mem_cons.1 h with rfl | h
      · exact .inl ⟨body, rfl⟩
      · exact .inr h

/-- What is read is spelled as it is written. -/
theorem written_of_mem_reread (h : p ∈ reread ps) : p.written = p.source := by
  induction ps with
  | nil => cases h
  | cons q ps ih =>
    by_cases hq : ∃ body, q = .text body
    · obtain ⟨body, rfl⟩ := hq
      rcases mem_joinText h with ⟨more, rfl⟩ | h
      · rfl
      · exact ih h
    · rw [Piece.reread_cons (not_exists.1 hq)] at h
      rcases List.mem_cons.1 h with rfl | h
      · rw [Piece.written_rewritten, Piece.source_rewritten]
      · exact ih h

private theorem exists_of_append_same (h : List.Forall₂ (SamePiece alone) (ps ++ ps') qs) :
    ∃ rs rs', qs = rs ++ rs' ∧ List.Forall₂ (SamePiece alone) ps rs ∧
      List.Forall₂ (SamePiece alone) ps' rs' := by
  induction ps generalizing qs with
  | nil => exact ⟨[], qs, rfl, .nil, h⟩
  | cons p ps ih =>
    cases h with
    | cons hp hps =>
      obtain ⟨rs, rs', rfl, hrs, hrs'⟩ := ih hps
      exact ⟨_ :: rs, rs', rfl, .cons hp hrs, hrs'⟩

/-- An element with what follows it is an element again, of which each part has the same lines. -/
theorem exists_element_same {last : Bytes}
    (h : List.Forall₂ (SamePiece alone) (.start body :: (ps ++ .stop last :: ps')) qs)
    (hname : Piece.stopName last = Piece.tagName body) :
    ∃ body' rs last' rs', qs = .start body' :: (rs ++ .stop last' :: rs') ∧
      SameLines alone body body' ∧ List.Forall₂ (SamePiece alone) ps rs ∧
      List.Forall₂ (SamePiece alone) ps' rs' ∧ Piece.stopName last' = Piece.tagName body' := by
  cases h with
  | cons hstart hbehind =>
    obtain ⟨rs, behind, rfl, hrs, hrest⟩ := exists_of_append_same hbehind
    cases hstart with
    | start hbody =>
      cases hrest with
      | cons hstop hrs' =>
        cases hstop with
        | stop hlast =>
          refine ⟨_, rs, _, _, rfl, hbody, hrs, hrs', ?_⟩
          rw [← hbody.tagName_eq]
          exact (hlast.stopName_eq_iff (SameLines.oneLine_tagName body)).1 hname

private theorem Balanced.same (h : Balanced ps)
    (hqs : List.Forall₂ (SamePiece alone) ps qs) : Balanced qs := by
  induction h generalizing qs with
  | nil =>
    cases hqs
    exact .nil
  | flat hp _ ih =>
    cases hqs with
    | cons hpq hqs => exact .flat (hpq.flat_iff.1 hp) (ih hqs)
  | element _ hname _ ihInner ihRest =>
    obtain ⟨body', rs, last', rs', rfl, -, hrs, hrs', hname'⟩ := exists_element_same hqs hname
    exact .element (ihInner hrs) hname' (ihRest hrs')

theorem IsElement.same (h : IsElement element)
    (hqs : List.Forall₂ (SamePiece alone) element qs) :
    IsElement qs ∧ SameLines alone (tagBody element) (tagBody qs) := by
  cases h with
  | empty body =>
    cases hqs with
    | cons hempty hqs =>
      cases hempty with
      | empty hbody =>
        cases hqs
        exact ⟨.empty _, hbody⟩
  | full hinner hname =>
    obtain ⟨body', rs, last', rs', rfl, hbody, hrs, hrs', hname'⟩ := exists_element_same hqs hname
    cases hrs'
    exact ⟨.full (hinner.same hrs) hname', hbody⟩

private theorem stopName_eq_self (hxy : SameLines alone xs ys) (h : Piece.stopName xs = xs) :
    Piece.stopName ys = ys := by
  by_cases hall : ys.all isSpace = true
  · exact if_pos hall
  · obtain ⟨vs, b, spaces, rfl, hb, hspaces⟩ := SameLines.exists_last_name hall
    obtain ⟨us, spaces', rfl, -, hbehind⟩ :=
      hxy.exists_of_append_cons_right (SameLines.isVisible_of_not_isSpace hb)
    have hspaces' : spaces'.all isSpace = true := by rwa [hbehind.all_eq rfl]
    rw [SameLines.stopName_append hb hspaces'] at h
    obtain rfl : spaces' = [] := by simpa using h
    obtain rfl : spaces = [] := hbehind.nil_iff.1 rfl
    exact SameLines.stopName_append hb hspaces

private theorem ends_of_same (hxy : SameLines alone xs ys) (h : Text.Ends isSpace xs) :
    Text.Ends isSpace ys := by
  cases xs with
  | nil =>
    rw [hxy.nil_iff.1 rfl]
    exact Text.ends_nil isSpace
  | cons b xs =>
    obtain ⟨ys, rfl, -⟩ := hxy.exists_of_cons (SameLines.isVisible_of_not_isSpace h)
    exact h

private theorem doctype_written_iff (body : Bytes) :
    (Piece.doctype body).written = (Piece.doctype body).source
      ↔ ∃ said, body = ascii "DOCTYPE " ++ said ∧ Text.Ends isSpace said := by
  have hdrop (rest : Bytes) : (ascii "DOCTYPE " ++ rest).drop 7 = 0x20 :: rest := rfl
  have hspace : isSpace 0x20 = true := by decide
  rw [← Piece.source_rewritten]
  constructor
  · intro h
    refine ⟨(body.drop 7).dropWhile isSpace, ?_, Text.ends_dropWhile isSpace _⟩
    have hbodies : 0x3C :: 0x21 :: (ascii "DOCTYPE " ++ (body.drop 7).dropWhile isSpace)
        = 0x3C :: 0x21 :: body := List.append_cancel_right h
    exact (List.cons.inj (List.cons.inj hbodies).2).2.symm
  · rintro ⟨said, rfl, hsaid⟩
    rw [rewritten, hdrop, List.dropWhile_cons_of_pos hspace, hsaid.dropWhile]

/-- Where a piece is spelled as it is written, so are those with its lines. -/
theorem SamePiece.written_eq_source {q : Piece} (h : SamePiece alone p q)
    (hp : p.written = p.source) : q.written = q.source := by
  cases h with
  | @stop xs ys hxy =>
    have hstop : Piece.stopName xs = xs := by simpa [Piece.written, Piece.source] using hp
    rw [Piece.written, stopName_eq_self hxy hstop]
    rfl
  | @doctype xs ys hxy _ =>
    obtain ⟨said, rfl, hsaid⟩ := (doctype_written_iff xs).1 hp
    have hplain : OneLine (ascii "DOCTYPE ") := by decide
    obtain ⟨said', rfl, hrest⟩ := SameLines.exists_of_append hplain hxy
    exact (doctype_written_iff _).2 ⟨said', rfl, ends_of_same hrest hsaid⟩
  | _ => rfl

theorem flatMap_written_same (h : List.Forall₂ (SamePiece alone) ps qs)
    (hps : ∀ p ∈ ps, p.written = p.source) : qs.flatMap (·.written) = qs.flatMap (·.source) := by
  induction h with
  | nil => rfl
  | cons hpq _ ih =>
    obtain ⟨hp, hps⟩ := List.forall_mem_cons.1 hps
    rw [List.flatMap_cons, List.flatMap_cons, hpq.written_eq_source hp, ih hps]

end XsdCatalog.Fragment
