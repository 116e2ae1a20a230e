import XsdCatalog.Proofs.BytePlaces
import XsdCatalog.Proofs.Extraction

/-!
# The search for a tag

A position names the tag that stands there, and no other position names anything. The element of a
tag ends with the end tag that repeats its name behind balanced pieces; it is handed out with the
declarations of the elements around it, or it is not closed before reading stops.
-/

namespace XsdCatalog.Fragment

/-- The piece neither opens nor closes an element. -/
def Piece.Flat : Piece → Prop
  | .start _ => False
  | .stop _ => False
  | _ => True

/-- Pieces in which each start tag has its end tag. -/
inductive Balanced : List Piece → Prop
  | nil : Balanced []
  | flat {p : Piece} {ps : List Piece} : p.Flat → Balanced ps → Balanced (p :: ps)
  | element {body last : Bytes} {inner ps : List Piece} :
    Balanced inner → Piece.stopName last = Piece.tagName body → Balanced ps →
      Balanced (.start body :: (inner ++ .stop last :: ps))

/-- The pieces of one element. -/
inductive IsElement : List Piece → Prop
  | empty (body : Bytes) : IsElement [.empty body]
  | full {body last : Bytes} {inner : List Piece} :
    Balanced inner → Piece.stopName last = Piece.tagName body →
      IsElement (.start body :: (inner ++ [.stop last]))

/-- The bodies of the start tags that are open behind pieces, innermost first. -/
def openTags (stack : List Bytes) : List Piece → List Bytes
  | [] => stack
  | .start body :: ps => openTags (body :: stack) ps
  | .stop _ :: ps => openTags stack.tail ps
  | _ :: ps => openTags stack ps

/-- The declarations of the elements around what stands behind pieces, from the outermost
inwards. -/
def scopesBehind (ps : List Piece) : List (List Declaration) :=
  ((openTags [] ps).map Declaration.ofTag).reverse

/-- Pieces whose first one is given the declarations that it inherits. -/
def inheriting (scopes : List (List Declaration)) : List Piece → List Piece
  | .start body :: ps => .start (Declaration.withInherited scopes body) :: ps
  | .empty body :: ps => .empty (Declaration.withInherited scopes body) :: ps
  | ps => ps

theorem names?_of_flat {p : Piece} (h : p.Flat) (names : List Bytes) :
    p.names? names = some names := by
  cases p with
  | start body => cases h
  | stop body => cases h
  | _ => rfl

private theorem subtree?_of_flat {p : Piece} (h : p.Flat) (depth : Nat) (place : Position)
    (es : List Event) :
    subtree? depth (⟨p, place⟩ :: es) = (subtree? depth es).map (p :: ·) := by
  cases p with
  | start body => cases h
  | stop body => cases h
  | _ => rfl

private theorem subtree?_stop (depth : Nat) (body : Bytes) (place : Position) (es : List Event) :
    subtree? (depth + 2) (⟨.stop body, place⟩ :: es)
      = (subtree? (depth + 1) es).map (.stop body :: ·) := rfl

/-- Balanced pieces are taken as they are. -/
theorem subtree?_balanced {ps : List Piece} (h : Balanced ps) (depth : Nat) {es : List Event}
    (hes : es.map (·.piece) = ps) (more : List Event) :
    subtree? (depth + 1) (es ++ more) = (subtree? (depth + 1) more).map (ps ++ ·) := by
  induction h generalizing depth es more with
  | nil =>
    rw [List.map_eq_nil_iff.1 hes]
    simp
  | @flat p ps hp _ ih =>
    obtain ⟨⟨q, place⟩, es, rfl, rfl, hrest⟩ := List.map_eq_cons_iff.1 hes
    rw [List.cons_append, subtree?_of_flat hp, ih depth hrest, Option.map_map]
    rfl
  | @element body last inner ps _ _ _ ihInner ihRest =>
    obtain ⟨⟨q, place⟩, es, rfl, rfl, hbehind⟩ := List.map_eq_cons_iff.1 hes
    obtain ⟨inside, es, rfl, hinside, hclosed⟩ := List.map_eq_append_iff.1 hbehind
    obtain ⟨⟨q, place'⟩, es, rfl, rfl, hrest⟩ := List.map_eq_cons_iff.1 hclosed
    have hinner := ihInner (depth + 1) hinside (⟨.stop last, place'⟩ :: (es ++ more))
    rw [List.cons_append, List.append_assoc, List.cons_append]
    show (subtree? (depth + 2) _).map _ = _
    rw [hinner, subtree?_stop, ihRest depth hrest, Option.map_map, Option.map_map, Option.map_map]
    congr 1
    funext qs
    simp

theorem namesBehind_cons {p : Piece} {names names' : List Bytes} (h : p.names? names = some names')
    (ps : List Piece) : namesBehind names (p :: ps) = namesBehind names' ps := by
  rw [namesBehind, List.foldlM_cons, h]
  rfl

/-- Names that match in a row of pieces match in its parts. -/
theorem namesBehind_append {ps qs : List Piece} {names names' : List Bytes} :
    namesBehind names (ps ++ qs) = some names' ↔
      ∃ between, namesBehind names ps = some between ∧ namesBehind between qs = some names' := by
  rw [namesBehind, List.foldlM_append, Option.bind_eq_bind, Option.bind_eq_some_iff]
  rfl

/-- Pieces that go on up to the end of `depth + 1` elements are balanced up to the first of these
ends, whose name matches, and go on behind it. -/
theorem balanced_of_subtree? (depth : Nat) {names : List Bytes} {name : Bytes} {es : List Event}
    {ps : List Piece} (h : subtree? (depth + 1) es = some ps)
    (hnames : (namesBehind (name :: names) (es.map (·.piece))).isSome) :
    ∃ inner last rest, es.map (·.piece) = inner ++ .stop last :: rest.map (·.piece) ∧
      Balanced inner ∧ Piece.stopName last = name ∧ rest.length < es.length ∧
      (namesBehind names (rest.map (·.piece))).isSome ∧
      (depth = 0 ∨ (subtree? depth rest).isSome) := by
  induction hlength : es.length using Nat.strongRecOn generalizing depth names name es ps with
  | ind n ih =>
    cases es with
    | nil => cases h
    | cons e es =>
      obtain ⟨p, place⟩ := e
      subst hlength
      by_cases hflat : p.Flat
      · rw [subtree?_of_flat hflat] at h
        obtain ⟨qs, hqs, -⟩ := Option.map_eq_some_iff.1 h
        rw [List.map_cons, namesBehind_cons (names?_of_flat hflat _)] at hnames
        obtain ⟨inner, last, rest, hsplit, hinner, hlast, hlt, hrest⟩ :=
          ih es.length (Nat.lt_succ_self _) depth hqs hnames rfl
        refine ⟨p :: inner, last, rest, ?_, .flat hflat hinner, hlast, Nat.lt_succ_of_lt hlt, hrest⟩
        rw [List.map_cons, hsplit]
        rfl
      · cases p with
        | stop body =>
          have hname : Piece.stopName body = name := by
            by_contra hname
            simp [namesBehind, Piece.names?, hname] at hnames
          have hclosed : (Piece.stop body).names? (name :: names) = some names := if_pos hname
          rw [List.map_cons, namesBehind_cons hclosed] at hnames
          refine ⟨[], body, es, rfl, .nil, hname, Nat.lt_succ_self _, hnames, ?_⟩
          cases depth with
          | zero => exact .inl rfl
          | succ depth =>
            rw [subtree?_stop] at h
            obtain ⟨qs, hqs, -⟩ := Option.map_eq_some_iff.1 h
            exact .inr (by rw [hqs]; rfl)
        | start body =>
          obtain ⟨qs, hqs, -⟩ := Option.map_eq_some_iff.1 h
          -- first the element that opens here, then what follows it
          obtain ⟨inner, last, rest, hsplit, hinner, hlast, hlt, hbehind, hmore⟩ :=
            ih es.length (Nat.lt_succ_self _) (depth + 1) hqs hnames rfl
          obtain ⟨qs', hqs'⟩ := Option.isSome_iff_exists.1 (hmore.resolve_left (Nat.succ_ne_zero _))
          obtain ⟨inner', last', rest', hsplit', hinner', hlast', hlt', hbehind'⟩ :=
            ih rest.length (Nat.lt_succ_of_lt hlt) depth hqs' hbehind rfl
          refine ⟨.start body :: (inner ++ .stop last :: inner'), last', rest', ?_,
            .element hinner hlast hinner', hlast', ?_, hbehind'⟩
          · rw [List.map_cons, hsplit, hsplit']
            simp
          · simp only [List.length_cons]
            omega
        | _ => exact absurd trivial hflat

/-- The search passes over events of which none is a tag at its target. -/
theorem seek_append {target : Position} {front : List Event}
    (h : ∀ e ∈ front, e.piece.isTag = true → e.place ≠ target) (stack : List Bytes)
    (more : List Event) :
    seek target (stack.map Declaration.ofTag) (front ++ more)
      = seek target ((openTags stack (front.map (·.piece))).map Declaration.ofTag) more := by
  induction front generalizing stack with
  | nil => rfl
  | cons e front ih =>
    have hrest := ih fun f hf => h f (List.mem_cons_of_mem e hf)
    have hplace := h e List.mem_cons_self
    obtain ⟨p, place⟩ := e
    cases p with
    | start body => exact (if_neg (hplace rfl)).trans (hrest (body :: stack))
    | empty body => exact (if_neg (hplace rfl)).trans (hrest stack)
    | stop body =>
      show seek target (stack.map Declaration.ofTag).tail _ = _
      rw [← List.map_tail]
      exact hrest stack.tail
    | _ => exact hrest stack

theorem seek_nothing {target : Position} {es : List Event}
    (h : target ∉ (es.filter (·.piece.isTag)).map (·.place)) : seek target [] es = .nothing := by
  have hplaces : ∀ e ∈ es, e.piece.isTag = true → e.place ≠ target := by
    intro e he htag hplace
    exact h (List.mem_map.2 ⟨e, List.mem_filter.2 ⟨he, htag⟩, hplace⟩)
  have hes := seek_append hplaces [] []
  rwa [List.append_nil] at hes

section Found

variable {es front behind : List Event} {e : Event}

/-- The search comes to a tag at its target, since no other tag is there. -/
theorem seek_at (hes : Placed [] es) (hsplit : es = front ++ e :: behind)
    (htag : e.piece.isTag = true) :
    seek e.place [] es
      = seek e.place ((openTags [] (front.map (·.piece))).map Declaration.ofTag) (e :: behind) := by
  have hfront : ∀ f ∈ front, f.piece.isTag = true → f.place ≠ e.place := by
    intro f hf hftag hplace
    have hnodup := hes.nodup
    have hhere : (e :: behind).filter (·.piece.isTag) = e :: behind.filter (·.piece.isTag) :=
      List.filter_cons_of_pos htag
    rw [hsplit, List.filter_append, hhere, List.map_append, List.map_cons] at hnodup
    refine (List.nodup_append.1 hnodup).2.2 f.place ?_ e.place List.mem_cons_self hplace
    exact List.mem_map.2 ⟨f, List.mem_filter.2 ⟨hf, hftag⟩, rfl⟩
  rw [hsplit]
  exact seek_append hfront [] (e :: behind)

/-- The element of the tag is found whole. -/
theorem seek_element_at (hes : Placed [] es) (hsplit : es = front ++ e :: behind)
    {element rest : List Piece} (helement : IsElement element)
    (hpieces : e.piece :: behind.map (·.piece) = element ++ rest) :
    seek e.place [] es = .pieces (inheriting (scopesBehind (front.map (·.piece))) element) := by
  obtain ⟨p, place⟩ := e
  cases helement with
  | empty body =>
    injection hpieces with hp _
    subst hp
    rw [seek_at hes hsplit rfl]
    exact if_pos rfl
  | @full body last inner hinner hlast =>
    injection hpieces with hp hbehind
    subst hp
    have hbehind : behind.map (·.piece) = inner ++ .stop last :: rest := by simpa using hbehind
    obtain ⟨inside, outside, rfl, hinside, houtside⟩ := List.map_eq_append_iff.1 hbehind
    obtain ⟨⟨q, place'⟩, outside, rfl, rfl, -⟩ := List.map_eq_cons_iff.1 houtside
    have hsubtree : subtree? 1 (inside ++ ⟨.stop last, place'⟩ :: outside)
        = some (inner ++ [.stop last]) := subtree?_balanced hinner 0 hinside _
    rw [seek_at hes hsplit rfl]
    exact seek_start rfl hsubtree _ body

/-- The element of the tag is not closed. -/
theorem seek_unclosed_at (hes : Placed [] es) (hsplit : es = front ++ e :: behind)
    (htag : e.piece.isTag = true) (hnames : (namesBehind [] (es.map (·.piece))).isSome)
    (hopen : ∀ element rest, e.piece :: behind.map (·.piece) = element ++ rest →
      ¬ IsElement element) :
    seek e.place [] es = .unclosed := by
  obtain ⟨p, place⟩ := e
  cases p with
  | start body =>
    obtain ⟨names, hnames⟩ : ∃ names,
        (namesBehind (Piece.tagName body :: names) (behind.map (·.piece))).isSome := by
      obtain ⟨last, hlast⟩ := Option.isSome_iff_exists.1 hnames
      rw [hsplit, List.map_append] at hlast
      obtain ⟨names, -, hbehind⟩ := namesBehind_append.1 hlast
      rw [List.map_cons, namesBehind_cons rfl] at hbehind
      exact ⟨names, Option.isSome_iff_exists.2 ⟨last, hbehind⟩⟩
    have hsubtree : subtree? 1 behind = none := by
      by_contra hsome
      obtain ⟨ps, hps⟩ := Option.ne_none_iff_exists'.1 hsome
      obtain ⟨inner, last, rest, hbehind, hinner, hlast, -⟩ := balanced_of_subtree? 0 hps hnames
      refine hopen (.start body :: (inner ++ [.stop last])) (rest.map (·.piece)) ?_
        (.full hinner hlast)
      rw [hbehind]
      simp
    rw [seek_at hes hsplit rfl, seek]
    simp only [if_true, hsubtree]
  | empty body => exact absurd (.empty body) (hopen [.empty body] (behind.map (·.piece)) rfl)
  | _ => cases htag

end Found

theorem extract_of_unclosed {line column : Nat} {bytes : Bytes} (hline : line ≠ 0)
    (hcolumn : column ≠ 0) (h : seek ⟨line, column⟩ [] (eventsOf bytes).1 = .unclosed)
    (document : String) :
    extract document line column bytes
      = .error (.markup (match (eventsOf bytes).2 with
        | .whole => unexpectedEnd
        | .malformed => malformedMarkup)) := by
  rw [extract, if_neg (by omega)]
  simp only [h]
  cases (eventsOf bytes).2 <;> rfl

theorem extract_of_nothing {line column : Nat} {bytes : Bytes} (hline : line ≠ 0)
    (hcolumn : column ≠ 0) (h : seek ⟨line, column⟩ [] (eventsOf bytes).1 = .nothing)
    (document : String) :
    extract document line column bytes
      = .error (match (eventsOf bytes).2 with
        | .whole => .fragmentNotFound document line column
        | .malformed => .markup malformedMarkup) := by
  rw [extract, if_neg (by omega)]
  simp only [h]
  cases (eventsOf bytes).2 <;> rfl

private theorem render_error {ps : List Piece} {err : Error} (h : render ps = .error err) :
    err = .markup malformedMarkup := by
  rw [render] at h
  split at h
  · cases h
  · injection h with h
    exact h.symm

/-- What a line and a column name, in any bytes: the tag whose last `<` stands there, if reading
comes to one. The bytes that were read are those in front of `unread`; a tag's place is read off
the bytes in front of its last `<`. No two tags share a place, and no tag has the place of a
character of another piece. A tag is answered with its element, given the declarations of the
elements around it, or with an error that says that the element is not closed; only an element
whose bytes are no text is an error as well. Elsewhere nothing is found, and this is a fault of the
markup where reading stops early. -/
theorem extract_exact (document : String) (line column : Nat) (bytes : Bytes) :
    let es := (eventsOf bytes).1
    let places := (es.filter (·.piece.isTag)).map (·.place)
    (∃ unread, spelled es ++ unread = unmarked bytes ∧
      ((eventsOf bytes).2 = .whole → unread = [])) ∧
    (∀ front e behind, es = front ++ e :: behind → e.piece.isTag = true →
      ∃ head tail, e.piece.source = head ++ 0x3C :: tail ∧ 0x3C ∉ tail ∧
        e.place = placeBehind (spelled front ++ head)) ∧
    places.Nodup ∧
    (∀ front e behind head b tail, es = front ++ e :: behind → e.piece.isTag = false →
      e.piece.source = head ++ b :: tail → begins b = true →
        placeBehind (spelled front ++ head) ∉ places) ∧
    (line = 0 ∨ column = 0 → extract document line column bytes = .error .missingPosition) ∧
    (line ≠ 0 → column ≠ 0 →
      (∀ front e behind, es = front ++ e :: behind → e.piece.isTag = true →
        e.place = ⟨line, column⟩ →
          (∀ element rest, e.piece :: behind.map (·.piece) = element ++ rest → IsElement element →
            extract document line column bytes
              = render (inheriting (scopesBehind (front.map (·.piece))) element)) ∧
          ((∀ element rest, e.piece :: behind.map (·.piece) = element ++ rest →
              ¬ IsElement element) →
            extract document line column bytes = .error (.markup (match (eventsOf bytes).2 with
              | .whole => unexpectedEnd
              | .malformed => malformedMarkup)))) ∧
      (⟨line, column⟩ ∉ places →
        extract document line column bytes = .error (match (eventsOf bytes).2 with
          | .whole => .fragmentNotFound document line column
          | .malformed => .markup malformedMarkup))) ∧
    (∀ ps err, render ps = .error err → err = .markup malformedMarkup) := by
  intro es places
  obtain ⟨hplaced, hnames, hspelled⟩ := eventsOf_spec bytes
  refine ⟨hspelled, hplaced, hplaced.nodup, ?_, fun h => if_pos h, ?_, fun ps err => render_error⟩
  · intro front e behind head b tail hsplit hother hsource hb
    exact hplaced.not_mem hsplit hother hsource hb
  · intro hline hcolumn
    refine ⟨?_, ?_⟩
    · intro front e behind hsplit htag hplace
      refine ⟨?_, ?_⟩
      · intro element rest hpieces helement
        have hseek := seek_element_at hplaced hsplit helement hpieces
        rw [hplace] at hseek
        exact extract_of_seek hline hcolumn hseek document
      · intro hopen
        have hseek := seek_unclosed_at hplaced hsplit htag hnames hopen
        rw [hplace] at hseek
        exact extract_of_unclosed hline hcolumn hseek document
    · intro hnone
      exact extract_of_nothing hline hcolumn (seek_nothing hnone) document

end XsdCatalog.Fragment
