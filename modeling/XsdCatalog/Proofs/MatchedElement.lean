import XsdCatalog.Proofs.TagSearch

/-!
# The element at a place

Where an element is handed out, it stands whole among the events of the bytes, its first tag is the
one at the place, and the elements around it are those whose start tags in front of it have no end
tag yet.
-/

namespace XsdCatalog.Fragment

/-- A whole element among the events of bytes, whose first tag is at a place. -/
structure Matched (bytes : Bytes) (place : Position) where
  /-- What stands in front of the tag. -/
  front : List Event
  tag : Event
  /-- What stands behind the tag. -/
  behind : List Event
  events_eq : (eventsOf bytes).1 = front ++ tag :: behind
  place_eq : tag.place = place
  /-- The pieces of the element, the tag's among them. -/
  element : List Piece
  rest : List Piece
  pieces_eq : tag.piece :: behind.map (·.piece) = element ++ rest
  isElement : IsElement element

/-- The pieces have start tags without end tags, whose bodies are given from the outermost
inwards. -/
inductive Opens : List Piece → List Bytes → Prop
  | none {ps : List Piece} : Balanced ps → Opens ps []
  | inside {front ps : List Piece} {body : Bytes} {opened : List Bytes} :
    Opens front opened → Balanced ps → Opens (front ++ .start body :: ps) (opened ++ [body])

private theorem Balanced.append {ps qs : List Piece} (hps : Balanced ps) (hqs : Balanced qs) :
    Balanced (ps ++ qs) := by
  induction hps with
  | nil => exact hqs
  | flat hp _ ih => exact .flat hp ih
  | @element body last inner ps hinner hlast _ _ ih =>
    have happend : .start body :: (inner ++ .stop last :: ps) ++ qs
        = .start body :: (inner ++ .stop last :: (ps ++ qs)) := by simp
    rw [happend]
    exact .element hinner hlast ih

private theorem Opens.append {ps qs : List Piece} {opened : List Bytes} (hps : Opens ps opened)
    (hqs : Balanced qs) : Opens (ps ++ qs) opened := by
  cases hps with
  | none hps => exact .none (hps.append hqs)
  | inside hfront hps =>
    rw [List.append_assoc, List.cons_append]
    exact .inside hfront (hps.append hqs)

private theorem openTags_of_balanced {ps : List Piece} (h : Balanced ps) (stack : List Bytes)
    (qs : List Piece) : openTags stack (ps ++ qs) = openTags stack qs := by
  induction h generalizing stack qs with
  | nil => rfl
  | @flat p ps hp _ ih =>
    cases p with
    | start body => cases hp
    | stop body => cases hp
    | _ => exact ih stack qs
  | @element body last inner ps _ _ _ ihInner ihRest =>
    have happend : .start body :: (inner ++ .stop last :: ps) ++ qs
        = .start body :: (inner ++ .stop last :: (ps ++ qs)) := by simp
    rw [happend]
    show openTags (body :: stack) (inner ++ .stop last :: (ps ++ qs)) = _
    rw [ihInner]
    exact ihRest stack qs

private theorem openTags_append (stack : List Bytes) (ps qs : List Piece) :
    openTags stack (ps ++ qs) = openTags (openTags stack ps) qs := by
  induction ps generalizing stack with
  | nil => rfl
  | cons p ps ih => cases p <;> exact ih _

/-- The tags that pieces open are the ones that the search has on its stack behind them. -/
theorem Opens.openTags_eq {ps : List Piece} {opened : List Bytes} (h : Opens ps opened) :
    openTags [] ps = opened.reverse := by
  induction h with
  | @none ps hps => simpa [openTags] using openTags_of_balanced hps [] []
  | @inside front ps body opened _ hps ih =>
    rw [openTags_append, ih, List.reverse_append]
    simpa [openTags] using openTags_of_balanced hps (body :: opened.reverse) []

theorem Opens.unique {ps : List Piece} {opened opened' : List Bytes} (h : Opens ps opened)
    (h' : Opens ps opened') : opened' = opened := by
  rw [← List.reverse_inj, ← h.openTags_eq, ← h'.openTags_eq]

/-- Where all names match, the pieces open tags with the names that are left. -/
theorem exists_opens {ps : List Piece} {names : List Bytes} (h : namesBehind [] ps = some names) :
    ∃ opened, Opens ps opened ∧ names = (opened.map Piece.tagName).reverse := by
  induction ps using List.reverseRecOn generalizing names with
  | nil =>
    cases h
    exact ⟨[], .none .nil, rfl⟩
  | append_singleton ps p ih =>
    obtain ⟨names', hps, hp⟩ := namesBehind_append.1 h
    obtain ⟨opened, hopened, rfl⟩ := ih hps
    have hp : p.names? (opened.map Piece.tagName).reverse = some names := by
      simpa [namesBehind] using hp
    by_cases hflat : p.Flat
    · rw [names?_of_flat hflat] at hp
      cases hp
      exact ⟨opened, hopened.append (.flat hflat .nil), rfl⟩
    · cases p with
      | start body =>
        cases hp
        exact ⟨opened ++ [body], .inside hopened .nil, by simp⟩
      | stop last =>
        -- the end tag makes one element of the last open tag and of what stands behind it
        cases hopened with
        | none _ => cases hp
        | @inside front inner body opened hfront hinner =>
          rw [List.map_append, List.reverse_append] at hp
          obtain ⟨hlast, hp⟩ := Option.ite_none_right_eq_some.1 hp
          cases hp
          refine ⟨opened, ?_, rfl⟩
          rw [List.append_assoc]
          exact hfront.append (.element hinner hlast .nil)
      | _ => exact absurd trivial hflat

theorem IsElement.exists_tag {element : List Piece} (h : IsElement element) :
    ∃ p ps, element = p :: ps ∧ p.isTag = true := by
  cases h with
  | empty body => exact ⟨_, _, rfl, rfl⟩
  | full => exact ⟨_, _, rfl, rfl⟩

namespace Matched

variable {bytes : Bytes} {place : Position} (m : Matched bytes place)

theorem isTag : m.tag.piece.isTag = true := by
  obtain ⟨p, ps, helement, hp⟩ := m.isElement.exists_tag
  have hpieces := m.pieces_eq
  rw [helement, List.cons_append] at hpieces
  rw [(List.cons.inj hpieces).1]
  exact hp

include m in
/-- No tag has line or column zero. -/
theorem place_ne_zero : place.line ≠ 0 ∧ place.column ≠ 0 := by
  obtain ⟨head, tail, -, -, hplace⟩ := (eventsOf_spec bytes).1 m.front m.tag m.behind m.events_eq
    m.isTag
  rw [← m.place_eq, hplace, placeBehind]
  simp

/-- The element is what the search finds at the place. -/
theorem seek_eq : seek place [] (eventsOf bytes).1
    = .pieces (inheriting (scopesBehind (m.front.map (·.piece))) m.element) := by
  have hseek := seek_element_at (eventsOf_spec bytes).1 m.events_eq m.isElement m.pieces_eq
  rwa [m.place_eq] at hseek

/-- The element is written out with what it inherits. -/
theorem extract_eq (document : String) : extract document place.line place.column bytes
    = render (inheriting (scopesBehind (m.front.map (·.piece))) m.element) :=
  extract_of_seek m.place_ne_zero.1 m.place_ne_zero.2 m.seek_eq document

/-- The tags around the element. -/
theorem exists_opens : ∃ opened, Opens (m.front.map (·.piece)) opened := by
  obtain ⟨names, hnames⟩ := Option.isSome_iff_exists.1 (eventsOf_spec bytes).2.1
  rw [m.events_eq, List.map_append] at hnames
  obtain ⟨names', hfront, -⟩ := namesBehind_append.1 hnames
  obtain ⟨opened, hopened, -⟩ := Fragment.exists_opens hfront
  exact ⟨opened, hopened⟩

end Matched

/-- Where a text is handed out, it is that of an element at the place. -/
theorem exists_matched {document : String} {line column : Nat} {bytes : Bytes} {text : String}
    (h : extract document line column bytes = .ok text) :
    Nonempty (Matched bytes ⟨line, column⟩) := by
  have hplace : ¬ (line = 0 ∨ column = 0) := by
    intro hzero
    rw [extract, if_pos hzero] at h
    cases h
  obtain ⟨hline, hcolumn⟩ := not_or.1 hplace
  obtain ⟨hplaced, hnames, -⟩ := eventsOf_spec bytes
  have htag : ⟨line, column⟩ ∈ ((eventsOf bytes).1.filter (·.piece.isTag)).map (·.place) := by
    by_contra hnone
    rw [extract_of_nothing hline hcolumn (seek_nothing hnone)] at h
    cases h
  obtain ⟨tag, hmem, hplace⟩ := List.mem_map.1 htag
  obtain ⟨hmem, htag⟩ := List.mem_filter.1 hmem
  obtain ⟨front, behind, hsplit⟩ := List.append_of_mem hmem
  by_contra hnone
  have hopen : ∀ element rest, tag.piece :: behind.map (·.piece) = element ++ rest →
      ¬ IsElement element := fun element rest hpieces helement =>
    hnone ⟨⟨front, tag, behind, hsplit, hplace, element, rest, hpieces, helement⟩⟩
  have hseek := seek_unclosed_at hplaced hsplit htag hnames hopen
  rw [hplace] at hseek
  rw [extract_of_unclosed hline hcolumn hseek] at h
  cases h

end XsdCatalog.Fragment
