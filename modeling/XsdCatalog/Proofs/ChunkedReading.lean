import Mathlib.Algebra.Ring.Nat
import Mathlib.Data.List.Infix
import XsdCatalog.Proofs.BytePlaces

/-!
# Reading in chunks

A document is passed chunk by chunk. Chunks may end anywhere, between the bytes of a character or
of a line end as well, but not inside a byte order mark at the start: the tracker then is where it
would be had it passed the whole at once, and this is read off the bytes. It is all the same
whether every byte is looked at, or the characters between one line feed or `<` and the next are
counted together in 32 bits, as long as the counts fit.
-/

namespace XsdCatalog

/-- Both counts are numbers of 32 bits. -/
def Position.Fits32 (p : Position) : Prop :=
  p.line < 2 ^ 32 ∧ p.column < 2 ^ 32

namespace Fragment

/-- The places of the bytes `<`, in order. -/
def openings (bytes : Bytes) : List Position :=
  ((List.range bytes.length).filter fun i => bytes[i]? = some 0x3C).map
    fun i => placeBehind (bytes.take i)

private theorem openings_concat (bytes : Bytes) (b : UInt8) :
    openings (bytes ++ [b]) = openings bytes ++ if b = 0x3C then [placeBehind bytes] else [] := by
  have hfront : ((List.range bytes.length).filter fun i => (bytes ++ [b])[i]? = some 0x3C)
      = (List.range bytes.length).filter fun i => bytes[i]? = some 0x3C := by
    apply List.filter_congr
    intro i hi
    rw [List.getElem?_append_left (List.mem_range.1 hi)]
  have hplaces : ((List.range bytes.length).filter fun i => bytes[i]? = some 0x3C).map
      (fun i => placeBehind ((bytes ++ [b]).take i)) = openings bytes := by
    apply List.map_congr_left
    intro i hi
    have hlt : i < bytes.length := List.mem_range.1 (List.mem_filter.1 hi).1
    rw [List.take_append_of_le_length (Nat.le_of_lt hlt)]
  rw [openings, List.length_append, List.length_singleton, List.range_succ, List.filter_append,
    List.map_append, hfront, hplaces]
  by_cases hb : b = 0x3C
  · simp [hb]
  · simp [hb]

private theorem before_placeBehind_of_mem {bytes : Bytes} {p : Position} (h : p ∈ openings bytes) :
    p.Before (placeBehind bytes) := by
  induction bytes using List.reverseRecOn with
  | nil => cases h
  | append_singleton bytes b ih =>
    rw [openings_concat, List.mem_append] at h
    rw [placeBehind_concat]
    rcases h with h | h
    · exact before_advance_of_before (ih h) b
    · split at h
      · next hb =>
        rw [List.mem_singleton.1 h, hb]
        exact before_advance (by decide) _
      · cases h

/-- Every tag stands before the next one. -/
theorem pairwise_openings (bytes : Bytes) : (openings bytes).Pairwise Position.Before := by
  induction bytes using List.reverseRecOn with
  | nil => exact .nil
  | append_singleton bytes b ih =>
    rw [openings_concat, List.pairwise_append]
    refine ⟨ih, ?_, ?_⟩
    · split
      · exact List.pairwise_singleton _ _
      · exact .nil
    · intro p hp q hq
      split at hq
      · rw [List.mem_singleton.1 hq]
        exact before_placeBehind_of_mem hp
      · cases hq

namespace Tracker

private theorem lastTag_foldl_step_started (bytes : Bytes) :
    (bytes.foldl step started).lastTag = (openings bytes).getLast?.getD ⟨0, 0⟩ := by
  induction bytes using List.reverseRecOn with
  | nil => rfl
  | append_singleton bytes b ih =>
    rw [List.foldl_append, List.foldl_cons, List.foldl_nil, openings_concat]
    by_cases hb : b = 0x3C
    · rw [if_pos hb, List.getLast?_concat, ← position_foldl_step, hb]
      rfl
    · rw [if_neg hb, List.append_nil, lastTag_step hb, ih]

/-- What a tracker has come to is read off the bytes it has passed. -/
theorem foldl_step_started (bytes : Bytes) :
    bytes.foldl step started
      = { position := placeBehind bytes
          lastTag := (openings bytes).getLast?.getD ⟨0, 0⟩
          atStart := false } := by
  have hposition := position_foldl_step bytes
  have hlastTag := lastTag_foldl_step_started bytes
  have hstarted : (bytes.foldl step started).atStart = false := atStart_foldl_step bytes started
  generalize bytes.foldl step started = t at *
  cases t
  simp_all

end Tracker

/-- No chunk ends inside a byte order mark at the start. -/
def MarkUncut (chunks : List Bytes) : Prop :=
  Tracker.byteOrderMark <+: chunks.flatten →
    ∀ front, front <+: chunks → front.flatten = [] ∨ Tracker.byteOrderMark <+: front.flatten

private theorem markUncut_singleton (bytes : Bytes) : MarkUncut [bytes] := by
  intro hmark front hfront
  rcases List.prefix_cons_iff.1 hfront with rfl | ⟨more, rfl, hmore⟩
  · exact .inl rfl
  · rw [List.prefix_nil.1 hmore]
    exact .inr hmark

private theorem unmarked_append_of_uncut {first rest : Bytes}
    (h : Tracker.byteOrderMark <+: first ++ rest → Tracker.byteOrderMark <+: first) :
    unmarked (first ++ rest) = unmarked first ++ rest := by
  by_cases hmark : Tracker.byteOrderMark <+: first
  · obtain ⟨body, rfl⟩ := hmark
    rw [List.append_assoc, unmarked_append, unmarked_append]
  · rw [unmarked_eq_self (mt h hmark), unmarked_eq_self hmark]

/-- Behind empty chunks the first one with bytes holds the whole byte order mark, if there is
one. -/
theorem MarkUncut.exists_first {chunks : List Bytes} (h : MarkUncut chunks)
    (hne : chunks.flatten ≠ []) :
    ∃ count first rest, chunks = List.replicate count [] ++ first :: rest ∧ first ≠ [] ∧
      unmarked chunks.flatten = unmarked first ++ rest.flatten := by
  induction chunks with
  | nil => exact absurd rfl hne
  | cons chunk chunks ih =>
    by_cases hchunk : chunk = []
    · subst hchunk
      have huncut : MarkUncut chunks := by
        intro hmark front hfront
        exact h hmark ([] :: front) (List.cons_prefix_cons.2 ⟨rfl, hfront⟩)
      obtain ⟨count, first, rest, rfl, hfirst, hflatten⟩ := ih huncut hne
      exact ⟨count + 1, first, rest, rfl, hfirst, hflatten⟩
    · refine ⟨0, chunk, chunks, rfl, hchunk, unmarked_append_of_uncut fun hmark => ?_⟩
      have hfront : [chunk] <+: chunk :: chunks := ⟨chunks, rfl⟩
      have hcase := h hmark [chunk] hfront
      rw [List.flatten_singleton] at hcase
      exact hcase.resolve_left hchunk

private theorem eq_replicate_of_flatten {chunks : List Bytes} (h : chunks.flatten = []) :
    chunks = List.replicate chunks.length [] :=
  List.eq_replicate_iff.2 ⟨rfl, List.flatten_eq_nil_iff.1 h⟩

namespace Tracker

private theorem consume_start_eq {bytes : Bytes} (hne : bytes ≠ []) :
    consume {} bytes = (unmarked bytes).foldl step started := by
  have hempty : bytes.isEmpty = false := by simpa using hne
  rw [consume, hempty]
  rfl

private theorem foldl_consume_replicate (count : Nat) :
    (List.replicate count []).foldl consume {} = {} := by
  induction count with
  | zero => rfl
  | succ count ih => exact ih

private theorem foldl_consume_of_started {t : Tracker} (h : t.atStart = false)
    (chunks : List Bytes) : chunks.foldl consume t = chunks.flatten.foldl step t := by
  induction chunks generalizing t with
  | nil => rfl
  | cons chunk chunks ih =>
    rw [List.foldl_cons, ih (atStart_consume h chunk), consume_of_started h, List.flatten_cons,
      List.foldl_append]

private theorem foldl_consume_start {chunks : List Bytes} (h : MarkUncut chunks) :
    chunks.foldl consume {} = consume {} chunks.flatten := by
  by_cases hne : chunks.flatten = []
  · rw [hne, eq_replicate_of_flatten hne, foldl_consume_replicate]
    rfl
  · obtain ⟨count, first, rest, hchunks, hfirst, hflatten⟩ := h.exists_first hne
    rw [consume_start_eq hne, hflatten, hchunks, List.foldl_append, foldl_consume_replicate,
      List.foldl_cons, consume_start_eq hfirst, foldl_consume_of_started, List.foldl_append]
    exact atStart_foldl_step _ _

end Tracker

/-- The sum of two counts, or the greatest count where it does not fit. -/
def saturatingAdd (a b : UInt32) : UInt32 :=
  UInt32.ofNat (min (a.toNat + b.toNat) (2 ^ 32 - 1))

/-- The byte ends a line or opens a tag. -/
def isStop (b : UInt8) : Bool :=
  b == 0x0A || b == 0x3C

/-- A tracker that counts in 32 bits. -/
structure Counter where
  line : UInt32 := 1
  column : UInt32 := 1
  tagLine : UInt32 := 0
  tagColumn : UInt32 := 0
  atStart : Bool := true
deriving DecidableEq

namespace Counter

/-- Passes bytes none of which is a stop. Their characters are counted together. -/
def passGap (c : Counter) (gap : Bytes) : Counter :=
  { c with column := saturatingAdd c.column (UInt32.ofNat (gap.countP begins)) }

/-- Passes a stop. -/
def passStop (c : Counter) (b : UInt8) : Counter :=
  if b = 0x0A then { c with line := saturatingAdd c.line 1, column := 1 }
  else { c with tagLine := c.line, tagColumn := c.column, column := saturatingAdd c.column 1 }

private theorem length_lt_of_dropWhile {bytes rest : Bytes} {b : UInt8}
    (h : bytes.dropWhile (!isStop ·) = b :: rest) : rest.length < bytes.length := by
  have hlength := (List.dropWhile_sublist (!isStop ·) (l := bytes)).length_le
  rw [h, List.length_cons] at hlength
  exact hlength

/-- Passes bytes from each stop to the next one. -/
def pass (c : Counter) (bytes : Bytes) : Counter :=
  match _ : bytes.dropWhile (!isStop ·) with
  | [] => c.passGap bytes
  | b :: rest => pass ((c.passGap (bytes.takeWhile (!isStop ·))).passStop b) rest
termination_by bytes.length
decreasing_by exact length_lt_of_dropWhile ‹_›

/-- Passes a chunk; of the first one that is not empty a leading byte order mark is left out of
account. -/
def consume (c : Counter) (chunk : Bytes) : Counter :=
  if c.atStart && !chunk.isEmpty then pass { c with atStart := false } (unmarked chunk)
  else c.pass chunk

/-- The tracker with the same counts. -/
def tracker (c : Counter) : Tracker where
  position := ⟨c.line.toNat, c.column.toNat⟩
  lastTag := ⟨c.tagLine.toNat, c.tagColumn.toNat⟩
  atStart := c.atStart

private theorem tracker_injective : Function.Injective tracker := by
  intro c d h
  cases c
  cases d
  simp only [tracker, Tracker.mk.injEq, Position.mk.injEq, UInt32.toNat_inj] at h
  obtain ⟨⟨rfl, rfl⟩, ⟨rfl, rfl⟩, rfl⟩ := h
  rfl

end Counter

/-- The counts fit in every document that is not longer than they reach. -/
theorem fits32_of_length {bytes : Bytes} (h : bytes.length + 1 < 2 ^ 32) {front : Bytes}
    (hfront : front <+: bytes) : (placeBehind front).Fits32 := by
  have hlength := hfront.length_le
  have hfeeds : front.count 0x0A ≤ front.length := List.count_le_length
  have hline : (lastLine front).length ≤ front.length := by
    rw [lastLine, List.length_reverse]
    exact (List.takeWhile_sublist _).length_le.trans_eq List.length_reverse
  have hcharacters : (lastLine front).countP begins ≤ (lastLine front).length :=
    List.countP_le_length
  constructor
  · show 1 + front.count 0x0A < 2 ^ 32
    omega
  · show 1 + (lastLine front).countP begins < 2 ^ 32
    omega

private theorem toNat_saturatingAdd {a b : UInt32} (h : a.toNat + b.toNat < 2 ^ 32) :
    (saturatingAdd a b).toNat = a.toNat + b.toNat := by
  have hmin : min (a.toNat + b.toNat) (2 ^ 32 - 1) = a.toNat + b.toNat := by omega
  rw [saturatingAdd, hmin, UInt32.toNat_ofNat_of_lt' h]

namespace Tracker

/-- The counts stay numbers of 32 bits while bytes are passed. -/
def Fits (t : Tracker) (bytes : Bytes) : Prop :=
  ∀ front, front <+: bytes → (front.foldl step t).position.Fits32

private theorem Fits.whole {t : Tracker} {bytes : Bytes} (h : t.Fits bytes) :
    (bytes.foldl step t).position.Fits32 :=
  h bytes (List.prefix_refl bytes)

private theorem Fits.left {t : Tracker} {bytes more : Bytes} (h : t.Fits (bytes ++ more)) :
    t.Fits bytes :=
  fun front hfront => h front (hfront.trans (List.prefix_append bytes more))

private theorem Fits.right {t : Tracker} {bytes more : Bytes} (h : t.Fits (bytes ++ more)) :
    (bytes.foldl step t).Fits more := by
  intro front hfront
  rw [← List.foldl_append]
  exact h _ ((List.prefix_append_right_inj bytes).2 hfront)

private theorem fits_started_iff {bytes : Bytes} :
    started.Fits bytes ↔ ∀ front, front <+: bytes → (placeBehind front).Fits32 := by
  simp only [Fits, position_foldl_step]

/-- Bytes that are no stops only move the column. -/
theorem foldl_step_gap {gap : Bytes} (h : ∀ b ∈ gap, isStop b = false) (t : Tracker) :
    gap.foldl step t
      = { t with position := ⟨t.position.line, t.position.column + gap.countP begins⟩ } := by
  induction gap generalizing t with
  | nil => rfl
  | cons b gap ih =>
    rw [List.forall_mem_cons] at h
    obtain ⟨hfeed, hopen⟩ : b ≠ 0x0A ∧ b ≠ 0x3C := by simpa [isStop] using h.1
    rw [List.foldl_cons, ih h.2, step, List.countP_cons]
    by_cases hb : isContinuation b = true
    · simp [hfeed, hopen, hb, begins]
    · simp [hfeed, hopen, hb, begins]
      omega

end Tracker

namespace Counter

private theorem tracker_passGap {c : Counter} {gap : Bytes} (h : ∀ b ∈ gap, isStop b = false)
    (hfits : c.tracker.Fits gap) : (c.passGap gap).tracker = gap.foldl Tracker.step c.tracker := by
  have hcolumn := hfits.whole.2
  rw [Tracker.foldl_step_gap h] at hcolumn ⊢
  have hcolumn : c.column.toNat + gap.countP begins < 2 ^ 32 := hcolumn
  have hcount : (UInt32.ofNat (gap.countP begins)).toNat = gap.countP begins :=
    UInt32.toNat_ofNat_of_lt' (by show _ < 2 ^ 32; omega)
  have hsum := toNat_saturatingAdd (a := c.column) (b := UInt32.ofNat (gap.countP begins))
    (by rw [hcount]; exact hcolumn)
  rw [hcount] at hsum
  simp [tracker, passGap, hsum]

private theorem tracker_passStop {c : Counter} {b : UInt8} (h : isStop b = true)
    (hfits : (c.tracker.step b).position.Fits32) :
    (c.passStop b).tracker = c.tracker.step b := by
  by_cases hfeed : b = 0x0A
  · have hline : c.line.toNat + 1 < 2 ^ 32 := by
      have hstep := hfits.1
      rwa [Tracker.step, if_pos hfeed] at hstep
    have hsum := toNat_saturatingAdd (a := c.line) (b := 1) hline
    rw [Tracker.step, if_pos hfeed, passStop, if_pos hfeed]
    simp [tracker, hsum]
  · have hopen : b = 0x3C := by simpa [isStop, hfeed] using h
    have hcolumn : c.column.toNat + 1 < 2 ^ 32 := by
      have hstep := hfits.2
      rwa [Tracker.step, if_neg hfeed, if_pos hopen] at hstep
    have hsum := toNat_saturatingAdd (a := c.column) (b := 1) hcolumn
    rw [Tracker.step, if_neg hfeed, if_pos hopen, passStop, if_neg hfeed]
    simp [tracker, hsum]

private theorem tracker_pass {c : Counter} {bytes : Bytes} (h : c.tracker.Fits bytes) :
    (c.pass bytes).tracker = bytes.foldl Tracker.step c.tracker := by
  fun_induction pass c bytes with
  | case1 c bytes hdrop =>
    have hgap : ∀ b ∈ bytes, isStop b = false := by
      intro b hb
      simpa using List.dropWhile_eq_nil_iff.1 hdrop b hb
    exact tracker_passGap hgap h
  | case2 c bytes b rest hdrop ih =>
    -- The bytes are a gap, a stop and the rest; each part leaves the two with the same counts.
    have hsplit := List.takeWhile_append_dropWhile (p := (!isStop ·)) (l := bytes)
    rw [hdrop] at hsplit
    have hgap : ∀ d ∈ bytes.takeWhile (!isStop ·), isStop d = false := by
      intro d hd
      simpa using List.mem_takeWhile_imp hd
    have hstop : isStop b = true := by
      have hends := Text.ends_dropWhile (!isStop ·) bytes
      rw [hdrop] at hends
      simpa [Text.Ends] using hends
    generalize bytes.takeWhile (!isStop ·) = gap at hsplit hgap ih
    subst hsplit
    have htracker := tracker_passGap hgap h.left
    have hbehind := h.right
    rw [← htracker] at hbehind
    rw [← List.singleton_append] at hbehind
    have hstep := tracker_passStop hstop hbehind.left.whole
    rw [ih, hstep, htracker, List.foldl_append, List.foldl_cons]
    rw [hstep]
    exact hbehind.right

private theorem tracker_consume_of_started {c : Counter} (h : c.atStart = false) {chunk : Bytes}
    (hfits : c.tracker.Fits chunk) : (c.consume chunk).tracker = c.tracker.consume chunk := by
  rw [consume, h, Tracker.consume_of_started h]
  exact tracker_pass hfits

private theorem tracker_consume_start {chunk : Bytes} (hne : chunk ≠ [])
    (hfits : Tracker.started.Fits (unmarked chunk)) :
    (consume {} chunk).tracker = Tracker.consume {} chunk := by
  have hempty : chunk.isEmpty = false := by simpa using hne
  rw [consume, hempty, Tracker.consume_start_eq hne]
  exact tracker_pass hfits

private theorem foldl_consume_replicate (count : Nat) :
    (List.replicate count []).foldl consume {} = {} := by
  have hempty : consume {} [] = {} := by
    show pass {} [] = {}
    rw [pass]
    rfl
  induction count with
  | zero => rfl
  | succ count ih => rw [List.replicate_succ, List.foldl_cons, hempty, ih]

private theorem tracker_foldl_consume_of_started {c : Counter} (h : c.atStart = false)
    {chunks : List Bytes} (hfits : c.tracker.Fits chunks.flatten) :
    (chunks.foldl consume c).tracker = chunks.foldl Tracker.consume c.tracker := by
  induction chunks generalizing c with
  | nil => rfl
  | cons chunk chunks ih =>
    have htracker := tracker_consume_of_started h hfits.left
    have hstarted : (c.consume chunk).atStart = false := by
      show (c.consume chunk).tracker.atStart = false
      rw [htracker]
      exact Tracker.atStart_consume h chunk
    have hrest := hfits.right
    rw [← Tracker.consume_of_started h, ← htracker] at hrest
    rw [List.foldl_cons, List.foldl_cons, ih hstarted hrest, htracker]

/-- Counting in 32 bits makes no difference where the counts fit. -/
theorem tracker_foldl_consume_start {chunks : List Bytes} (h : MarkUncut chunks)
    (hfits : Tracker.started.Fits (unmarked chunks.flatten)) :
    (chunks.foldl consume {}).tracker = chunks.foldl Tracker.consume {} := by
  by_cases hne : chunks.flatten = []
  · rw [eq_replicate_of_flatten hne, foldl_consume_replicate, Tracker.foldl_consume_replicate]
    rfl
  · obtain ⟨count, first, rest, hchunks, hfirst, hflatten⟩ := h.exists_first hne
    rw [hflatten] at hfits
    have htracker := tracker_consume_start hfirst hfits.left
    have hstarted : (consume {} first).atStart = false := by
      show (consume {} first).tracker.atStart = false
      rw [htracker, Tracker.consume_start_eq hfirst]
      exact Tracker.atStart_foldl_step _ _
    have hrest := hfits.right
    rw [← Tracker.consume_start_eq hfirst, ← htracker] at hrest
    rw [hchunks, List.foldl_append, foldl_consume_replicate, List.foldl_append,
      Tracker.foldl_consume_replicate, List.foldl_cons, List.foldl_cons,
      tracker_foldl_consume_of_started hstarted hrest, htracker]

end Counter

/-- However a document is cut into chunks, if not inside its byte order mark, and as long as the
counts fit 32 bits, the counter ends where it does for the document as a whole, and so does the
tracker: behind the bytes it has passed, with the place of the last tag. Tags follow each other at
increasing places. -/
theorem places_of_chunks (chunks : List Bytes) (huncut : MarkUncut chunks)
    (hcounts : ∀ front, front <+: unmarked chunks.flatten → (placeBehind front).Fits32) :
    let bytes := chunks.flatten
    let c := chunks.foldl Counter.consume {}
    c = Counter.consume {} bytes ∧
      chunks.foldl Tracker.consume {} = Tracker.consume {} bytes ∧
      c.tracker = chunks.foldl Tracker.consume {} ∧
      c.tracker = {
        position := placeBehind (unmarked bytes)
        lastTag := (openings (unmarked bytes)).getLast?.getD ⟨0, 0⟩
        atStart := bytes.isEmpty } ∧
      (openings (unmarked bytes)).Pairwise Position.Before := by
  intro bytes c
  have hfits : Tracker.started.Fits (unmarked bytes) := Tracker.fits_started_iff.2 hcounts
  have hchunks : chunks.foldl Tracker.consume {} = Tracker.consume {} bytes :=
    Tracker.foldl_consume_start huncut
  have htracker : c.tracker = chunks.foldl Tracker.consume {} :=
    Counter.tracker_foldl_consume_start huncut hfits
  have hwhole : (Counter.consume {} bytes).tracker = Tracker.consume {} bytes := by
    have hone : [bytes].flatten = bytes := List.flatten_singleton
    exact Counter.tracker_foldl_consume_start (markUncut_singleton bytes) (by rwa [hone])
  refine ⟨?_, hchunks, htracker, ?_, pairwise_openings _⟩
  · apply Counter.tracker_injective
    rw [htracker, hchunks, hwhole]
  · rw [htracker, hchunks]
    by_cases hne : bytes = []
    · rw [hne]
      rfl
    · have hempty : bytes.isEmpty = false := by simpa using hne
      rw [Tracker.consume_start_eq hne, Tracker.foldl_step_started, hempty]

/-- A document with a byte order mark, cut inside a line end and inside a character. -/
def brokenChunks : List Bytes :=
  [[], [0xEF, 0xBB, 0xBF, 0x3C], [0x72, 0x3E, 0x0D], [], [0x0A, 0xC3], [0xA4, 0x3C, 0x62],
    [0x2F, 0x3E]]

theorem places_of_brokenChunks :
    MarkUncut brokenChunks ∧
      (∀ front, front <+: unmarked brokenChunks.flatten → (placeBehind front).Fits32) ∧
      brokenChunks.foldl Counter.consume {} = ⟨2, 6, 2, 2, false⟩ := by
  have huncut : MarkUncut brokenChunks := by
    have hfronts : ∀ front ∈ brokenChunks.inits,
        front.flatten = [] ∨ Tracker.byteOrderMark <+: front.flatten := by decide
    exact fun _ front hfront => hfronts front ((List.mem_inits front brokenChunks).2 hfront)
  have hcounts : ∀ front, front <+: unmarked brokenChunks.flatten → (placeBehind front).Fits32 :=
    fun _ => fits32_of_length (by decide)
  obtain ⟨-, -, -, htracker, -⟩ := places_of_chunks brokenChunks huncut hcounts
  refine ⟨huncut, hcounts, Counter.tracker_injective ?_⟩
  rw [htracker]
  decide

/-- A byte order mark that is cut is counted as a character. -/
example : [[0xEF], [0xBB, 0xBF]].foldl Tracker.consume {} ≠ Tracker.consume {} [0xEF, 0xBB, 0xBF] :=
  by decide

end Fragment

end XsdCatalog
