import XsdCatalog.Proofs.Seeking

/-!
# Places of bytes

A place is read off the bytes in front of it: the line feeds give its line, and the bytes that
begin a character behind the last of them its column. A byte that begins a character moves the
place, so two such bytes never share one. The pieces of any input, valid UTF-8 or not, are met at
the last `<` in them, and this is where the tracker says they are.
-/

namespace XsdCatalog

/-- A position stands before another one in a text. -/
def Position.Before (p q : Position) : Prop :=
  p.line < q.line ∨ p.line = q.line ∧ p.column < q.column

namespace Position

private theorem Before.trans {p q r : Position} (hpq : p.Before q) (hqr : q.Before r) :
    p.Before r := by
  simp only [Before] at *
  omega

theorem Before.ne {p q : Position} (h : p.Before q) : p ≠ q := by
  rintro rfl
  simp only [Before] at h
  omega

end Position

namespace Fragment

/-- The byte begins a character. -/
def begins (b : UInt8) : Bool :=
  !Tracker.isContinuation b

/-- The bytes behind the last line feed. -/
def lastLine (bytes : Bytes) : Bytes :=
  (bytes.reverse.takeWhile (· != 0x0A)).reverse

/-- The place behind bytes. -/
def placeBehind (bytes : Bytes) : Position :=
  ⟨1 + bytes.count 0x0A, 1 + (lastLine bytes).countP begins⟩

/-- The place behind one more byte. -/
def advance (p : Position) (b : UInt8) : Position :=
  if b = 0x0A then ⟨p.line + 1, 1⟩
  else if begins b then ⟨p.line, p.column + 1⟩
  else p

private theorem lastLine_concat (bytes : Bytes) (b : UInt8) :
    lastLine (bytes ++ [b]) = if b = 0x0A then [] else lastLine bytes ++ [b] := by
  by_cases hb : b = 0x0A
  · simp [lastLine, hb]
  · simp [lastLine, hb]

theorem placeBehind_concat (bytes : Bytes) (b : UInt8) :
    placeBehind (bytes ++ [b]) = advance (placeBehind bytes) b := by
  rw [placeBehind, lastLine_concat, advance, placeBehind]
  by_cases hb : b = 0x0A
  · simp [hb, Nat.add_assoc]
  · by_cases hbegins : begins b = true
    · simp [hb, hbegins, Nat.add_assoc]
    · simp [hb, hbegins]

theorem before_advance {b : UInt8} (hb : begins b = true) (p : Position) :
    p.Before (advance p b) := by
  rw [advance]
  by_cases hfeed : b = 0x0A
  · simp [Position.Before, hfeed]
  · simp [Position.Before, hfeed, hb]

theorem before_advance_of_before {p q : Position} (h : p.Before q) (b : UInt8) :
    p.Before (advance q b) := by
  by_cases hb : begins b = true
  · exact h.trans (before_advance hb q)
  · have hfeed : b ≠ 0x0A := by
      rintro rfl
      exact hb (by decide)
    rw [advance, if_neg hfeed, if_neg hb]
    exact h

/-- A byte that begins a character stands before everything behind it. -/
theorem placeBehind_before {b : UInt8} (hb : begins b = true) (front back : Bytes) :
    (placeBehind front).Before (placeBehind (front ++ b :: back)) := by
  induction back using List.reverseRecOn with
  | nil =>
    rw [placeBehind_concat]
    exact before_advance hb _
  | append_singleton back c ih =>
    have hsplit : front ++ b :: (back ++ [c]) = (front ++ b :: back) ++ [c] := by simp
    rw [hsplit, placeBehind_concat]
    exact before_advance_of_before ih c

namespace Tracker

/-- A tracker that has passed nothing of a document but the byte order mark. -/
def started : Tracker := { atStart := false }

private theorem position_step (t : Tracker) (b : UInt8) :
    (t.step b).position = advance t.position b := by
  rw [step, advance]
  by_cases hfeed : b = 0x0A
  · simp [hfeed]
  · by_cases hopen : b = 0x3C
    · have hbegins : begins 0x3C = true := by decide
      simp [hopen, hbegins]
    · by_cases hb : begins b = true
      · have hcontinues : isContinuation b = false := by simpa [begins] using hb
        simp [hfeed, hopen, hb, hcontinues]
      · have hcontinues : isContinuation b = true := by simpa [begins] using hb
        simp [hfeed, hopen, hb, hcontinues]

theorem position_foldl_step (bytes : Bytes) :
    (bytes.foldl step started).position = placeBehind bytes := by
  induction bytes using List.reverseRecOn with
  | nil => rfl
  | append_singleton bytes b ih =>
    rw [List.foldl_append, placeBehind_concat, ← ih]
    exact position_step _ b

theorem lastTag_step {b : UInt8} (hb : b ≠ 0x3C) (t : Tracker) :
    (t.step b).lastTag = t.lastTag := by
  rw [step]
  simp only [hb, if_false]
  split
  · rfl
  · split <;> rfl

private theorem lastTag_foldl_of_not_mem {bytes : Bytes} (h : 0x3C ∉ bytes) (t : Tracker) :
    (bytes.foldl step t).lastTag = t.lastTag := by
  induction bytes generalizing t with
  | nil => rfl
  | cons b bytes ih =>
    have hb : b ≠ 0x3C := fun hb => h (hb ▸ List.mem_cons_self)
    rw [List.foldl_cons, ih fun hm => h (List.mem_cons_of_mem b hm), lastTag_step hb]

/-- Behind bytes the tracker remembers the place of the last `<`. -/
theorem lastTag_foldl_step_of_split (head : Bytes) {tail : Bytes} (h : 0x3C ∉ tail) :
    ((head ++ 0x3C :: tail).foldl step started).lastTag = placeBehind head := by
  rw [List.foldl_append, List.foldl_cons, lastTag_foldl_of_not_mem h, ← position_foldl_step]
  rfl

end Tracker

/-- The piece is a start tag or an empty tag. -/
def Piece.isTag : Piece → Bool
  | start _ => true
  | empty _ => true
  | _ => false

/-- The bytes that events were read from. -/
def spelled (es : List Event) : Bytes :=
  es.flatMap (·.piece.source)

/-- Each tag is at the last `<` in it, where `front` are the bytes in front of the events. -/
def Placed (front : Bytes) (es : List Event) : Prop :=
  ∀ before e behind, es = before ++ e :: behind → e.piece.isTag = true →
    ∃ head tail, e.piece.source = head ++ 0x3C :: tail ∧ 0x3C ∉ tail ∧
      e.place = placeBehind (front ++ spelled before ++ head)

private theorem spelled_append (es fs : List Event) :
    spelled (es ++ fs) = spelled es ++ spelled fs :=
  List.flatMap_append

private theorem spelled_cons (e : Event) (es : List Event) :
    spelled (e :: es) = e.piece.source ++ spelled es := rfl

/-- A byte that occurs in a list has a last occurrence. -/
theorem exists_last_split {b : UInt8} {bytes : Bytes} (h : b ∈ bytes) :
    ∃ head tail, bytes = head ++ b :: tail ∧ b ∉ tail := by
  obtain ⟨tail, head, hsplit, htail⟩ := List.eq_append_cons_of_mem (List.mem_reverse.2 h)
  refine ⟨head.reverse, tail.reverse, ?_, by simpa using htail⟩
  have hreverse := congrArg List.reverse hsplit
  simpa using hreverse

private theorem mem_source_of_isTag {p : Piece} (h : p.isTag = true) : 0x3C ∈ p.source := by
  cases p with
  | start body => exact List.mem_cons_self
  | empty body => exact List.mem_cons_self
  | _ => cases h

theorem map_piece_tracked (t : Tracker) (ps : List Piece) : (tracked t ps).map (·.piece) = ps := by
  induction ps generalizing t with
  | nil => rfl
  | cons p ps ih => exact congrArg (p :: ·) (ih _)

private theorem placed_tracked (front : Bytes) (ps : List Piece) :
    Placed front (tracked (front.foldl Tracker.step .started) ps) := by
  have hstarted (bytes : Bytes) : (bytes.foldl Tracker.step .started).atStart = false :=
    Tracker.atStart_foldl_step bytes .started
  induction ps generalizing front with
  | nil =>
    intro before e behind hsplit
    simp [tracked] at hsplit
  | cons p ps ih =>
    intro before e behind hsplit htag
    have hconsume : (front.foldl Tracker.step .started).consume p.source
        = (front ++ p.source).foldl Tracker.step .started := by
      rw [Tracker.consume_of_started (hstarted front), List.foldl_append]
    rw [tracked, hconsume] at hsplit
    cases before with
    | nil =>
      injection hsplit with he _
      subst he
      obtain ⟨head, tail, hsource, htail⟩ := exists_last_split (mem_source_of_isTag htag)
      refine ⟨head, tail, hsource, htail, ?_⟩
      show ((front ++ p.source).foldl Tracker.step .started).lastTag = _
      have hsource : p.source = head ++ 0x3C :: tail := hsource
      rw [hsource, ← List.append_assoc, Tracker.lastTag_foldl_step_of_split _ htail]
      simp [spelled]
    | cons f before =>
      injection hsplit with hf hrest
      obtain ⟨head, tail, hsource, htail, hplace⟩ :=
        ih (front ++ p.source) before e behind hrest htag
      refine ⟨head, tail, hsource, htail, ?_⟩
      rw [hplace, ← hf, spelled_cons]
      simp

section Placed

variable {es : List Event} (h : Placed [] es)
include h

/-- A tag stands before everything behind it. -/
theorem Placed.tag_before {before behind : List Event} {e : Event} (more : Bytes)
    (hsplit : es = before ++ e :: behind) (htag : e.piece.isTag = true) :
    e.place.Before (placeBehind (spelled before ++ e.piece.source ++ more)) := by
  obtain ⟨head, tail, hsource, -, hplace⟩ := h before e behind hsplit htag
  have hbytes : spelled before ++ e.piece.source ++ more
      = (spelled before ++ head) ++ 0x3C :: (tail ++ more) := by
    rw [hsource]
    simp
  rw [hplace, hbytes]
  exact placeBehind_before (by decide) _ _

/-- A tag stands behind the characters in front of it. -/
theorem Placed.before_tag {before behind : List Event} {e : Event} {front back : Bytes} {b : UInt8}
    (hsplit : es = before ++ e :: behind) (htag : e.piece.isTag = true)
    (hfront : spelled before = front ++ b :: back) (hb : begins b = true) :
    (placeBehind front).Before e.place := by
  obtain ⟨head, tail, -, -, hplace⟩ := h before e behind hsplit htag
  have hbytes : [] ++ spelled before ++ head = front ++ b :: (back ++ head) := by
    rw [hfront]
    simp
  rw [hplace, hbytes]
  exact placeBehind_before hb _ _

private theorem Placed.pairwise :
    (es.filter (·.piece.isTag)).Pairwise (·.place.Before ·.place) := by
  rw [List.pairwise_filter, List.pairwise_iff_forall_sublist]
  intro e f hsublist he hf
  obtain ⟨xs, ys, hes, hmemE, hsublist⟩ := List.cons_sublist_iff.1 hsublist
  obtain ⟨before, between, rfl⟩ := List.append_of_mem hmemE
  obtain ⟨between', behind, rfl⟩ := List.append_of_mem (List.singleton_sublist.1 hsublist)
  have hsplitE : es = before ++ e :: (between ++ between' ++ f :: behind) := by simp [hes]
  have hsplitF : es = (before ++ e :: (between ++ between')) ++ f :: behind := by simp [hes]
  obtain ⟨head, tail, -, -, hplace⟩ := h _ f behind hsplitF hf
  rw [hplace, spelled_append, spelled_cons]
  simpa using h.tag_before (spelled (between ++ between') ++ head) hsplitE he

/-- No two tags share a place. -/
theorem Placed.nodup : ((es.filter (·.piece.isTag)).map (·.place)).Nodup :=
  List.Pairwise.map _ (fun _ _ h => h.ne) h.pairwise

/-- No tag is at the place of a character in another piece. -/
theorem Placed.not_mem {before behind : List Event} {e : Event} {head tail : Bytes} {b : UInt8}
    (hsplit : es = before ++ e :: behind) (hother : e.piece.isTag = false)
    (hsource : e.piece.source = head ++ b :: tail) (hb : begins b = true) :
    placeBehind (spelled before ++ head) ∉ (es.filter (·.piece.isTag)).map (·.place) := by
  intro hmem
  obtain ⟨f, hf, hplace⟩ := List.mem_map.1 hmem
  obtain ⟨hf, htag⟩ := List.mem_filter.1 hf
  rw [hsplit, List.mem_append, List.mem_cons] at hf
  rcases hf with hf | rfl | hf
  · obtain ⟨xs, ys, rfl⟩ := List.append_of_mem hf
    have hsplit' : es = xs ++ f :: (ys ++ e :: behind) := by simp [hsplit]
    have hbefore := h.tag_before (spelled ys ++ head) hsplit' htag
    refine hbefore.ne ?_
    rw [hplace, spelled_append, spelled_cons]
    simp
  · rw [hother] at htag
    cases htag
  · obtain ⟨xs, ys, rfl⟩ := List.append_of_mem hf
    have hsplit' : es = (before ++ e :: xs) ++ f :: ys := by simp [hsplit]
    have hfront : spelled (before ++ e :: xs)
        = (spelled before ++ head) ++ b :: (tail ++ spelled xs) := by
      rw [spelled_append, spelled_cons, hsource]
      simp
    exact (h.before_tag hsplit' htag hfront hb).ne hplace.symm

end Placed

/-- The bytes of a document behind its byte order mark. -/
def unmarked (bytes : Bytes) : Bytes :=
  if Tracker.byteOrderMark.isPrefixOf bytes then bytes.drop 3 else bytes

theorem unmarked_append (bytes : Bytes) : unmarked (Tracker.byteOrderMark ++ bytes) = bytes := rfl

theorem unmarked_eq_self {bytes : Bytes} (h : ¬ Tracker.byteOrderMark <+: bytes) :
    unmarked bytes = bytes :=
  if_neg (mt List.isPrefixOf_iff_prefix.1 h)

/-- The names of the open elements behind pieces; none where names do not match. -/
def namesBehind (names : List Bytes) (ps : List Piece) : Option (List Bytes) :=
  ps.foldlM (fun names p => p.names? names) names

theorem eventsOf_eq (bytes : Bytes) :
    eventsOf bytes
      = events .started [] (if (Piece.scan (unmarked bytes)).2 then .whole else .malformed)
          (Piece.scan (unmarked bytes)).1 := by
  rw [eventsOf, unmarked]
  cases hmark : Tracker.byteOrderMark.isPrefixOf bytes with
  | true =>
    obtain ⟨body, rfl⟩ := List.isPrefixOf_iff_prefix.1 hmark
    rfl
  | false => exact events_start hmark _

/-- Events are the pieces up to the first end tag whose name does not match. -/
theorem events_eq_tracked (t : Tracker) (names : List Bytes) (ending : Ending) (ps : List Piece) :
    ∃ qs rest, ps = qs ++ rest ∧ (events t names ending ps).1 = tracked t qs ∧
      (namesBehind names qs).isSome ∧
      ((events t names ending ps).2 = .whole → rest = [] ∧ ending = .whole) := by
  induction ps generalizing t names with
  | nil => exact ⟨[], [], rfl, rfl, rfl, fun h => ⟨rfl, h⟩⟩
  | cons p ps ih =>
    cases hnames : p.names? names with
    | some names' =>
      obtain ⟨qs, rest, hsplit, htracked, hbehind, hwhole⟩ := ih (t.consume p.source) names'
      refine ⟨p :: qs, rest, congrArg (p :: ·) hsplit, ?_, ?_, ?_⟩
      · rw [events_cons hnames, htracked]
        rfl
      · rw [namesBehind, List.foldlM_cons, hnames]
        exact hbehind
      · rw [events_cons hnames]
        exact hwhole
    | none =>
      refine ⟨[], p :: ps, rfl, ?_, rfl, ?_⟩ <;>
      cases p with
      | stop body =>
        cases names with
        | nil => simp [events, tracked]
        | cons name outer =>
          have hname : Piece.stopName body ≠ name := by
            intro hname
            simp [Piece.names?, hname] at hnames
          simp [events, tracked, hname]
      | _ => simp [Piece.names?] at hnames

/-- Pieces spell the input up to where reading stops. -/
theorem Piece.source_scan (bytes : Bytes) :
    ∃ unread, (scan bytes).1.flatMap (·.source) ++ unread = bytes ∧
      ((scan bytes).2 = true → unread = []) := by
  fun_induction scan bytes with
  | case1 => exact ⟨[], rfl, fun _ => rfl⟩
  | case2 b bytes hnone => exact ⟨b :: bytes, rfl, nofun⟩
  | case3 b bytes piece rest hnext hlength pieces whole hscan ih =>
    obtain ⟨unread, hspelled, hwhole⟩ := ih
    refine ⟨unread, ?_, ?_⟩
    · rw [hscan] at hspelled
      rw [List.flatMap_cons, List.append_assoc, hspelled]
      exact next?_source hnext
    · rw [hscan] at hwhole
      exact hwhole

/-- What the events of a document are, whether or not it is well-formed. -/
theorem eventsOf_spec (bytes : Bytes) :
    Placed [] (eventsOf bytes).1 ∧
      (namesBehind [] ((eventsOf bytes).1.map (·.piece))).isSome ∧
      ∃ unread, spelled (eventsOf bytes).1 ++ unread = unmarked bytes ∧
        ((eventsOf bytes).2 = .whole → unread = []) := by
  obtain ⟨unread, hspelled, hwhole⟩ := Piece.source_scan (unmarked bytes)
  rw [eventsOf_eq]
  generalize hending :
    (if (Piece.scan (unmarked bytes)).2 then Ending.whole else .malformed) = ending
  obtain ⟨qs, rest, hsplit, htracked, hnames, hrest⟩ :=
    events_eq_tracked .started [] ending (Piece.scan (unmarked bytes)).1
  have hpieces : spelled (tracked .started qs) = qs.flatMap (·.source) := by
    rw [spelled, ← List.flatMap_map, map_piece_tracked]
  refine ⟨?_, ?_, rest.flatMap (·.source) ++ unread, ?_, ?_⟩
  · rw [htracked]
    exact placed_tracked [] qs
  · rw [htracked, map_piece_tracked]
    exact hnames
  · rw [htracked, hpieces, ← List.append_assoc, ← List.flatMap_append, ← hsplit]
    exact hspelled
  · intro hw
    obtain ⟨rfl, rfl⟩ := hrest hw
    have hscan : (Piece.scan (unmarked bytes)).2 = true := by
      by_contra hscan
      rw [if_neg hscan] at hending
      cases hending
    exact hwhole hscan

end Fragment

end XsdCatalog
