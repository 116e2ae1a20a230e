import XsdCatalog.Proofs.Rereading

/-!
# Tags with declarations at their end

Declarations without quotes and `<` are put at the end of a tag. The tag then ends where it did, or
at the first `>` in one of their keys. In the second case what follows is read as a text. A start
tag stays one unless a slash stands in front of this `>`, and an empty tag is cut in two.
-/

namespace XsdCatalog.Fragment

open Piece (Rereadable OpensTag Told IsQuote quoteBehind)
open Declaration (written)

variable {element : List Piece} {body extra key : Bytes} {ds : List Declaration}

/-- The bytes between `<` and the `>` at which a start tag or an empty tag ends. -/
structure TagBody (body : Bytes) : Prop where
  opens : OpensTag body
  unquoted : quoteBehind none body = some none

namespace TagBody

private theorem of_slash (h : TagBody (body ++ [0x2F])) : TagBody body ∧ body ≠ [] := by
  have hplain : ∀ b ∈ ([0x2F] : Bytes), b ≠ 0x3E ∧ ¬ IsQuote b := by
    intro b hb
    obtain rfl := List.mem_singleton.1 hb
    decide
  have hquote := Piece.quoteBehind_of_append h.unquoted hplain
  cases body with
  | nil => exact absurd rfl (h.opens 0x2F rfl).1
  | cons b body => exact ⟨⟨h.opens, hquote⟩, List.cons_ne_nil b body⟩

private theorem rereadable_start (h : TagBody body) (hlast : body.getLast? ≠ some 0x2F) :
    Rereadable (.start body) := by
  have hreads := Piece.reads_tag h.opens h.unquoted
  rw [Piece.ofTagBody, if_neg hlast] at hreads
  exact hreads

private theorem rereadable_empty (h : TagBody body) (hne : body ≠ []) :
    Rereadable (.empty body) := by
  have hopens : OpensTag (body ++ [0x2F]) := by
    cases body with
    | nil => exact absurd rfl hne
    | cons b body => exact h.opens
  have hquote : quoteBehind none (body ++ [0x2F]) = some none := by
    rw [Piece.quoteBehind_append, h.unquoted]
    rfl
  have hreads := Piece.reads_tag hopens hquote
  rw [Piece.ofTagBody, if_pos List.getLast?_concat, List.dropLast_concat] at hreads
  exact hreads

private theorem of_start (h : Told (.start body)) : TagBody body ∧ body.getLast? ≠ some 0x2F := by
  obtain ⟨bytes, hbytes, hopens, hquote⟩ := h.tag rfl
  rw [Piece.ofTagBody] at hbytes
  split at hbytes
  · cases hbytes
  · next hlast =>
    injection hbytes with hbytes
    subst hbytes
    exact ⟨⟨hopens, hquote⟩, hlast⟩

private theorem of_empty (h : Told (.empty body)) : TagBody body ∧ body ≠ [] := by
  obtain ⟨bytes, hbytes, hopens, hquote⟩ := h.tag rfl
  rw [Piece.ofTagBody] at hbytes
  split at hbytes
  · next hlast =>
    injection hbytes with hbytes
    obtain ⟨front, rfl⟩ := List.getLast?_eq_some_iff.1 hlast
    rw [List.dropLast_concat] at hbytes
    subst hbytes
    exact of_slash ⟨hopens, hquote⟩
  · cases hbytes

end TagBody

/-- Bytes that can be put at the end of a tag and leave its name as it is. -/
structure Trailing (extra : Bytes) : Prop where
  spaced : ∀ b ∈ extra.head?, isSpace b = true
  unquoted : quoteBehind none extra = some none
  unopened : 0x3C ∉ extra

namespace Trailing

private theorem nil : Trailing [] :=
  ⟨nofun, rfl, List.not_mem_nil⟩

private theorem append {more : Bytes} (h : Trailing extra) (hmore : Trailing more) :
    Trailing (extra ++ more) := by
  refine ⟨?_, ?_, List.not_mem_append h.unopened hmore.unopened⟩
  · cases extra with
    | nil => exact hmore.spaced
    | cons b extra => exact h.spaced
  · rw [Piece.quoteBehind_append, h.unquoted]
    exact hmore.unquoted

private theorem tagName_append (h : Trailing extra) (body : Bytes) :
    Piece.tagName (body ++ extra) = Piece.tagName body := by
  have hends : extra.takeWhile (!isSpace ·) = [] := by
    apply Text.Ends.takeWhile
    cases extra with
    | nil => rfl
    | cons b extra =>
      show (!isSpace b) = false
      rw [h.spaced b rfl]
      rfl
  rw [Piece.tagName, Piece.tagName, List.takeWhile_append, hends, List.append_nil]
  split
  · next hlength => exact ((List.takeWhile_prefix _).eq_of_length hlength).symm
  · rfl

private theorem tagBody_append (h : Trailing extra) (hbody : TagBody body) :
    TagBody (body ++ extra) := by
  refine ⟨?_, ?_⟩
  · cases body with
    | cons b body => exact hbody.opens
    | nil =>
      intro b hb
      have hspace := h.spaced b hb
      refine ⟨?_, ?_, ?_⟩ <;> rintro rfl <;> exact absurd hspace (by decide)
  · rw [Piece.quoteBehind_append, hbody.unquoted]
    exact h.unquoted

/-- A start tag stays one if neither its body nor what is put behind it ends in a slash. -/
theorem rereadable_start (h : Trailing extra) (hbody : TagBody body)
    (hslash : body.getLast? ≠ some 0x2F) (hlast : extra.getLast? ≠ some 0x2F) :
    Rereadable (.start (body ++ extra)) := by
  apply (h.tagBody_append hbody).rereadable_start
  by_cases hne : extra = []
  · rw [hne, List.append_nil]
    exact hslash
  · rw [List.getLast?_append_of_ne_nil _ hne]
    exact hlast

end Trailing

/-- Neither a quote nor `<` is in the key or the value. -/
def Declaration.Unquoted (d : Declaration) : Prop :=
  ∀ b ∈ d.key ++ d.value, ¬ IsQuote b ∧ b ≠ 0x3C

instance (d : Declaration) : Decidable d.Unquoted :=
  List.decidableBAll (fun b => ¬ IsQuote b ∧ b ≠ 0x3C) (d.key ++ d.value)

/-- The part in front of its first `>` of the first key that has one. -/
def beforeClose? : List Declaration → Option Bytes
  | [] => none
  | d :: ds => if 0x3E ∈ d.key then some (d.key.takeWhile (· != 0x3E)) else beforeClose? ds

private theorem not_mem_written {d : Declaration} (h : d.Unquoted) : 0x3C ∉ written d := by
  have hequals : 0x3C ∉ ascii "=\"" := by decide
  have hquote : 0x3C ∉ ascii "\"" := by decide
  intro hmem
  simp only [written, List.mem_append, List.mem_cons] at hmem
  rcases hmem with (((hmem | hmem) | hmem) | hmem) | hmem
  · exact absurd hmem (by decide)
  · exact (h _ (List.mem_append_left _ hmem)).2 rfl
  · exact hequals hmem
  · exact (h _ (List.mem_append_right _ hmem)).2 rfl
  · exact hquote hmem

/-- A part of a key without `>` may stand behind a space at the end of a tag. -/
theorem trailing_key {d : Declaration} (h : d.Unquoted) {rest : Bytes} (hkey : d.key = key ++ rest)
    (hclose : 0x3E ∉ key) : Trailing (0x20 :: key) := by
  have hmem {b : UInt8} (hb : b ∈ key) : b ∈ d.key ++ d.value := by
    rw [hkey]
    exact List.mem_append_left _ (List.mem_append_left _ hb)
  refine ⟨?_, ?_, ?_⟩
  · rintro b ⟨⟩
    rfl
  · apply Piece.quoteBehind_unquoted
    intro b hb
    rcases List.mem_cons.1 hb with rfl | hb
    · decide
    · refine ⟨?_, (h b (hmem hb)).1⟩
      rintro rfl
      exact hclose hb
  · intro hopen
    rcases List.mem_cons.1 hopen with hopen | hopen
    · exact absurd hopen (by decide)
    · exact (h _ (hmem hopen)).2 rfl

private theorem not_mem_flatMap_written (h : ∀ d ∈ ds, d.Unquoted) : 0x3C ∉ ds.flatMap written := by
  intro hmem
  obtain ⟨d, hd, hmem⟩ := List.mem_flatMap.1 hmem
  exact not_mem_written (h d hd) hmem

private theorem quoteBehind_quoted {q : UInt8} {value : Bytes} (h : q ∉ value) :
    quoteBehind (some q) (value ++ [q]) = some none := by
  induction value with
  | nil => simp [quoteBehind]
  | cons b value ih =>
    have hb : b ≠ q := fun hb => h (hb ▸ List.mem_cons_self)
    rw [List.cons_append, quoteBehind, if_neg hb]
    exact ih fun hmem => h (List.mem_cons_of_mem b hmem)

private theorem trailing_written {d : Declaration} (h : d.Unquoted) (hclose : 0x3E ∉ d.key) :
    Trailing (written d) := by
  have hquote : 0x22 ∉ d.value := fun hmem =>
    (h 0x22 (List.mem_append_right _ hmem)).1 (.inl rfl)
  have hkey := trailing_key h (List.append_nil d.key).symm hclose
  have hbytes : written d = (0x20 :: d.key) ++ 0x3D :: 0x22 :: (d.value ++ [0x22]) := by
    have hequals : ascii "=\"" = [0x3D, 0x22] := by decide
    have hend : ascii "\"" = [0x22] := by decide
    simp [written, hequals, hend]
  refine ⟨?_, ?_, not_mem_written h⟩
  · rintro b ⟨⟩
    rfl
  · rw [hbytes, Piece.quoteBehind_append, hkey.unquoted]
    exact quoteBehind_quoted hquote

/-- Where no key has a `>`, the tag ends where it did. -/
theorem trailing_of_none (h : ∀ d ∈ ds, d.Unquoted) (hnone : beforeClose? ds = none) :
    Trailing (ds.flatMap written) := by
  induction ds with
  | nil => exact .nil
  | cons d ds ih =>
    obtain ⟨hd, hds⟩ := List.forall_mem_cons.1 h
    rw [beforeClose?] at hnone
    split at hnone
    · cases hnone
    · next hclose => exact (trailing_written hd hclose).append (ih hds hnone)

/-- A key with a `>` goes on there behind its part in front of the first one. -/
theorem exists_first_close (h : 0x3E ∈ key) :
    ∃ rest, key = key.takeWhile (· != 0x3E) ++ 0x3E :: rest ∧
      0x3E ∉ key.takeWhile (· != 0x3E) := by
  obtain ⟨front, rest, rfl, hfirst⟩ := List.eq_append_cons_of_mem h
  have hfront : (front ++ 0x3E :: rest).takeWhile (· != 0x3E) = front := by
    refine Text.takeWhile_append ?_ rfl
    intro b hb
    rw [bne_iff_ne]
    rintro rfl
    exact hfirst hb
  rw [hfront]
  exact ⟨rest, rfl, hfirst⟩

/-- The tag ends at the first `>` in a key, and a text follows. -/
theorem trailing_of_some (h : ∀ d ∈ ds, d.Unquoted) (hsome : beforeClose? ds = some key) :
    ∃ extra behind, ds.flatMap written = extra ++ 0x20 :: key ++ 0x3E :: behind ∧
      Trailing (extra ++ 0x20 :: key) ∧ 0x3C ∉ behind := by
  induction ds with
  | nil => cases hsome
  | cons d ds ih =>
    obtain ⟨hd, hds⟩ := List.forall_mem_cons.1 h
    have hopen := not_mem_flatMap_written h
    rw [List.flatMap_cons] at hopen ⊢
    rw [beforeClose?] at hsome
    split at hsome
    · next hclose =>
      obtain ⟨rest, hkey, hfirst⟩ := exists_first_close hclose
      injection hsome with hsome
      rw [hsome] at hkey hfirst
      have hbytes : written d ++ ds.flatMap written = [] ++ 0x20 :: key ++ 0x3E
          :: (rest ++ ascii "=\"" ++ d.value ++ ascii "\"" ++ ds.flatMap written) := by
        simp [written, hkey]
      refine ⟨[], _, hbytes, trailing_key hd hkey hfirst, ?_⟩
      intro hmem
      rw [hbytes] at hopen
      exact hopen (List.mem_append_right _ (List.mem_cons_of_mem _ hmem))
    · next hclose =>
      obtain ⟨extra, behind, hbytes, hextra, hbehind⟩ := ih hds hsome
      refine ⟨written d ++ extra, behind, ?_, ?_, hbehind⟩
      · rw [hbytes]
        simp
      · rw [List.append_assoc]
        exact (trailing_written hd hclose).append hextra

/-- The declarations do not leave the first tag a tag of its kind. An empty tag ends at any `>` in
their keys, and a start tag becomes an empty tag if a slash stands in front of the first one. -/
def TurnsTag (ds : List Declaration) : List Piece → Prop
  | .empty _ :: _ => beforeClose? ds ≠ none
  | _ => (beforeClose? ds).bind List.getLast? = some 0x2F

private theorem getLast?_written_ne (ds : List Declaration) :
    (ds.flatMap written).getLast? ≠ some 0x2F := by
  rcases List.eq_nil_or_concat ds with rfl | ⟨front, d, rfl⟩
  · nofun
  · have hend : ascii "\"" = [0x22] := by decide
    rw [List.concat_eq_append, List.flatMap_append, List.flatMap_singleton, written, hend,
      ← List.append_assoc, List.getLast?_concat]
    decide

/-- What is behind the early end of a tag is read as a text. -/
theorem rereadable_text {behind mark : Bytes} (hbehind : 0x3C ∉ behind) (hne : mark ≠ [])
    (hmark : 0x3C ∉ mark) : Rereadable (.text (behind ++ mark)) :=
  ⟨List.append_ne_nil_of_right_ne_nil behind hne, List.not_mem_append hbehind hmark⟩

section Early

variable (hbody : TagBody body) (hopen : 0x3C ∉ body) (hds : ∀ d ∈ ds, d.Unquoted)
  (hsome : beforeClose? ds = some key)
include hbody hopen hds hsome

/-- The tag ends early as a start tag. -/
theorem exists_early_start (hlast : key.getLast? ≠ some 0x2F) :
    ∃ body' behind, Rereadable (.start body') ∧ 0x3C ∉ body' ∧ 0x3C ∉ behind ∧
      Piece.tagName body' = Piece.tagName body ∧
      body' ++ 0x3E :: behind = body ++ ds.flatMap written := by
  obtain ⟨extra, behind, hbytes, hextra, hbehind⟩ := trailing_of_some hds hsome
  refine ⟨body ++ (extra ++ 0x20 :: key), behind, ?_, List.not_mem_append hopen hextra.unopened,
    hbehind, hextra.tagName_append body, ?_⟩
  · apply (hextra.tagBody_append hbody).rereadable_start
    rw [← List.append_assoc, List.getLast?_append_of_ne_nil _ (List.cons_ne_nil _ _)]
    cases key with
    | nil => decide
    | cons b key => exact hlast
  · rw [hbytes]
    simp

/-- The tag ends early as an empty tag. -/
theorem exists_early_empty (hlast : key.getLast? = some 0x2F) :
    ∃ body' behind, Rereadable (.empty body') ∧ 0x3C ∉ body' ∧ 0x3C ∉ behind ∧
      body' ++ 0x2F :: 0x3E :: behind = body ++ ds.flatMap written := by
  obtain ⟨extra, behind, hbytes, hextra, hbehind⟩ := trailing_of_some hds hsome
  obtain ⟨front, rfl⟩ := List.getLast?_eq_some_iff.1 hlast
  have hsplit : body ++ (extra ++ 0x20 :: (front ++ [0x2F]))
      = body ++ extra ++ 0x20 :: front ++ [0x2F] := by simp
  have hwhole := hextra.tagBody_append hbody
  have hfree := List.not_mem_append hopen hextra.unopened
  rw [hsplit] at hwhole hfree
  obtain ⟨htag, hne⟩ := hwhole.of_slash
  refine ⟨body ++ extra ++ 0x20 :: front, behind, htag.rereadable_empty hne, ?_, hbehind, ?_⟩
  · exact fun hmem => hfree (List.mem_append_left _ hmem)
  · rw [hbytes]
    simp

end Early

variable (h : IsElement element) (htold : ∀ p ∈ element, Told p) (hopen : 0x3C ∉ tagBody element)
  (hds : ∀ d ∈ ds, d.Unquoted)
include h htold hopen hds

/-- Where the first tag keeps its kind, the element is written as an element that is read again. -/
theorem IsElement.exists_kept (hkept : ¬ TurnsTag ds element) :
    ∃ element', IsElement element' ∧ (∀ p ∈ element', Rereadable p) ∧ 0x3C ∉ tagBody element' ∧
      element'.flatMap (·.written)
        = (extendTag (ds.flatMap written) element).flatMap (·.written) := by
  cases h with
  | empty body =>
    have hextra := trailing_of_none hds (not_not.1 hkept)
    obtain ⟨htag, hne⟩ := TagBody.of_empty (htold _ List.mem_cons_self)
    refine ⟨[.empty (body ++ ds.flatMap written)], .empty _, ?_,
      List.not_mem_append hopen hextra.unopened, rfl⟩
    intro p hp
    obtain rfl := List.mem_singleton.1 hp
    exact (hextra.tagBody_append htag).rereadable_empty (List.append_ne_nil_of_left_ne_nil hne _)
  | @full body last inner hinner hlast =>
    obtain ⟨hstart, hrest⟩ := List.forall_mem_cons.1 htold
    have hrest : ∀ p ∈ inner ++ [.stop last], Rereadable p := fun p hp => (hrest p hp).rereadable
    obtain ⟨htag, hslash⟩ := TagBody.of_start hstart
    cases hsome : beforeClose? ds with
    | none =>
      have hextra := trailing_of_none hds hsome
      refine ⟨.start (body ++ ds.flatMap written) :: (inner ++ [.stop last]),
        .full hinner (hlast.trans (hextra.tagName_append body).symm), ?_,
        List.not_mem_append hopen hextra.unopened, rfl⟩
      have hread := hextra.rereadable_start htag hslash (getLast?_written_ne ds)
      exact List.forall_mem_cons.2 ⟨hread, hrest⟩
    | some key =>
      have hkey : key.getLast? ≠ some 0x2F := fun hkey =>
        hkept (Option.bind_eq_some_iff.2 ⟨key, hsome, hkey⟩)
      obtain ⟨body', behind, hread, hfree, hbehind, hname, hbytes⟩ :=
        exists_early_start htag hopen hds hsome hkey
      -- what is left of the declarations is a text in front of the others
      have hinner' : Balanced (.text (behind ++ [0x3E]) :: inner) := .flat trivial hinner
      refine ⟨.start body' :: (.text (behind ++ [0x3E]) :: inner ++ [.stop last]),
        .full hinner' (hlast.trans hname.symm), ?_, hfree, ?_⟩
      · have htext := rereadable_text hbehind (List.cons_ne_nil 0x3E []) (by decide)
        exact List.forall_mem_cons.2 ⟨hread, List.forall_mem_cons.2 ⟨htext, hrest⟩⟩
      · simp [extendTag, ← hbytes, Piece.written, Piece.source]

/-- Where the first tag is turned, it is read as an empty tag with a text behind it, or as a start
tag with nothing but a text behind it. -/
theorem IsElement.exists_turned (hturned : TurnsTag ds element) :
    ∃ p more ps, p.isTag = true ∧ (∀ q ∈ p :: .text more :: ps, Rereadable q) ∧
      0x3C ∉ tagBody [p] ∧
      (p :: .text more :: ps).flatMap (·.written)
        = (extendTag (ds.flatMap written) element).flatMap (·.written) ∧
      ((∃ body, p = .empty body) ∨ ps = []) := by
  cases h with
  | empty body =>
    obtain ⟨key, hsome⟩ := Option.ne_none_iff_exists'.1 hturned
    obtain ⟨htag, -⟩ := TagBody.of_empty (htold _ List.mem_cons_self)
    by_cases hkey : key.getLast? = some 0x2F
    · obtain ⟨body', behind, hread, hfree, hbehind, hbytes⟩ :=
        exists_early_empty htag hopen hds hsome hkey
      refine ⟨.empty body', behind ++ [0x2F, 0x3E], [], rfl, ?_, hfree, ?_, .inr rfl⟩
      · have htext := rereadable_text hbehind (List.cons_ne_nil 0x2F [0x3E]) (by decide)
        exact List.forall_mem_cons.2 ⟨hread, List.forall_mem_singleton.2 htext⟩
      · simp [extendTag, ← hbytes, Piece.written, Piece.source]
    · obtain ⟨body', behind, hread, hfree, hbehind, -, hbytes⟩ :=
        exists_early_start htag hopen hds hsome hkey
      refine ⟨.start body', behind ++ [0x2F, 0x3E], [], rfl, ?_, hfree, ?_, .inr rfl⟩
      · have htext := rereadable_text hbehind (List.cons_ne_nil 0x2F [0x3E]) (by decide)
        exact List.forall_mem_cons.2 ⟨hread, List.forall_mem_singleton.2 htext⟩
      · simp [extendTag, ← hbytes, Piece.written, Piece.source]
  | @full body last inner hinner hlast =>
    obtain ⟨hstart, hrest⟩ := List.forall_mem_cons.1 htold
    have hrest : ∀ p ∈ inner ++ [.stop last], Rereadable p := fun p hp => (hrest p hp).rereadable
    obtain ⟨htag, -⟩ := TagBody.of_start hstart
    obtain ⟨key, hsome, hkey⟩ := Option.bind_eq_some_iff.1 hturned
    obtain ⟨body', behind, hread, hfree, hbehind, hbytes⟩ :=
      exists_early_empty htag hopen hds hsome hkey
    refine ⟨.empty body', behind ++ [0x3E], inner ++ [.stop last], rfl, ?_, hfree, ?_,
      .inl ⟨body', rfl⟩⟩
    · have htext := rereadable_text hbehind (List.cons_ne_nil 0x3E []) (by decide)
      exact List.forall_mem_cons.2 ⟨hread, List.forall_mem_cons.2 ⟨htext, hrest⟩⟩
    · simp [extendTag, ← hbytes, Piece.written, Piece.source]

end XsdCatalog.Fragment
