import Mathlib.Data.Option.Basic
import XsdCatalog.Proofs.CutSources

/-!
# Bytes with the same lines

Two runs of bytes have the same lines if they differ in what ends a line only: in the second one it
is always a single line feed. What is cut off a run at bytes that are no line ends has the same lines
as what is cut off the other run there, and so has what is left.
-/

namespace XsdCatalog.Fragment

/-- The second bytes have the lines of the first ones, each ended by a line feed. Whether a carriage
return that stands alone ends a line of the first ones is told by `alone`. -/
inductive SameLines (alone : Prop) : Bytes → Bytes → Prop
  | nil : SameLines alone [] []
  | byte {b : UInt8} {xs ys : Bytes} (plain : b ≠ 0x0D) (rest : SameLines alone xs ys) :
    SameLines alone (b :: xs) (b :: ys)
  | pair {xs ys : Bytes} (rest : SameLines alone xs ys) :
    SameLines alone (0x0D :: 0x0A :: xs) (0x0A :: ys)
  | lone {xs ys : Bytes} (ends : alone) (rest : SameLines alone xs ys) :
    SameLines alone (0x0D :: xs) (0x0A :: ys)

/-- The byte is neither a carriage return nor a line feed. -/
def isVisible (b : UInt8) : Bool :=
  b != 0x0D && b != 0x0A

theorem isVisible_iff {b : UInt8} : isVisible b = true ↔ b ≠ 0x0D ∧ b ≠ 0x0A := by
  simp [isVisible]

/-- Bytes without line ends. -/
def OneLine (bytes : Bytes) : Prop :=
  ∀ b ∈ bytes, isVisible b = true

instance (bytes : Bytes) : Decidable (OneLine bytes) :=
  List.decidableBAll (fun b => isVisible b = true) bytes

namespace SameLines

variable {alone : Prop} {xs ys us vs : Bytes} {b : UInt8}

private theorem of_not_mem (alone : Prop) (h : 0x0D ∉ xs) : SameLines alone xs xs := by
  induction xs with
  | nil => exact .nil
  | cons b xs ih =>
    rw [List.mem_cons, not_or] at h
    exact .byte (Ne.symm h.1) (ih h.2)

theorem of_oneLine (alone : Prop) (h : OneLine xs) : SameLines alone xs xs :=
  of_not_mem alone fun hm => (isVisible_iff.1 (h _ hm)).1 rfl

theorem append (h : SameLines alone xs ys) (h' : SameLines alone us vs) :
    SameLines alone (xs ++ us) (ys ++ vs) := by
  induction h with
  | nil => exact h'
  | byte plain _ ih => exact .byte plain ih
  | pair _ ih => exact .pair ih
  | lone ends _ ih => exact .lone ends ih

theorem length_le (h : SameLines alone xs ys) : ys.length ≤ xs.length := by
  induction h with
  | nil => exact Nat.le_refl 0
  | byte _ _ ih => exact Nat.succ_le_succ ih
  | pair _ ih => exact Nat.le_succ_of_le (Nat.succ_le_succ ih)
  | lone _ _ ih => exact Nat.succ_le_succ ih

/-- A byte that ends no line stands in both or in none. -/
theorem mem_iff (h : SameLines alone xs ys) (hb : isVisible b = true) : b ∈ xs ↔ b ∈ ys := by
  obtain ⟨hreturn, hfeed⟩ := isVisible_iff.1 hb
  induction h with
  | nil => rfl
  | byte _ _ ih => rw [List.mem_cons, List.mem_cons, ih]
  | pair _ ih => simp [hreturn, hfeed, ih]
  | lone _ _ ih => simp [hreturn, hfeed, ih]

/-- Bytes without line ends are the same. -/
theorem eq_of_oneLine (h : SameLines alone xs ys) (hy : OneLine ys) : xs = ys := by
  induction h with
  | nil => rfl
  | byte _ _ ih => rw [ih fun c hc => hy c (List.mem_cons_of_mem _ hc)]
  | pair _ _ => cases hy 0x0A List.mem_cons_self
  | lone _ _ _ => cases hy 0x0A List.mem_cons_self

theorem oneLine_iff (h : SameLines alone xs ys) : OneLine xs ↔ OneLine ys := by
  constructor
  · intro hx
    induction h with
    | nil => exact hx
    | byte _ _ ih =>
      rw [OneLine, List.forall_mem_cons] at hx ⊢
      exact ⟨hx.1, ih hx.2⟩
    | pair _ _ => cases hx 0x0D List.mem_cons_self
    | lone _ _ _ => cases hx 0x0D List.mem_cons_self
  · intro hy
    rw [h.eq_of_oneLine hy]
    exact hy

theorem nil_iff (h : SameLines alone xs ys) : xs = [] ↔ ys = [] := by
  cases h <;> simp

/-- What follows a byte that ends no line has the same lines. -/
theorem exists_of_cons (h : SameLines alone (b :: xs) ys) (hb : isVisible b = true) :
    ∃ ys', ys = b :: ys' ∧ SameLines alone xs ys' := by
  have hreturn := (isVisible_iff.1 hb).1
  cases h with
  | byte _ rest => exact ⟨_, rfl, rest⟩
  | pair rest => exact absurd rfl hreturn
  | lone _ rest => exact absurd rfl hreturn

theorem exists_of_cons_right (h : SameLines alone xs (b :: ys)) (hb : isVisible b = true) :
    ∃ xs', xs = b :: xs' ∧ SameLines alone xs' ys := by
  have hfeed := (isVisible_iff.1 hb).2
  cases h with
  | byte _ rest => exact ⟨_, rfl, rest⟩
  | pair rest => exact absurd rfl hfeed
  | lone _ rest => exact absurd rfl hfeed

/-- What follows bytes without line ends has the same lines. -/
theorem exists_of_append (hu : OneLine us) (h : SameLines alone (us ++ xs) ys) :
    ∃ ys', ys = us ++ ys' ∧ SameLines alone xs ys' := by
  induction us generalizing ys with
  | nil => exact ⟨ys, rfl, h⟩
  | cons b us ih =>
    rw [OneLine, List.forall_mem_cons] at hu
    obtain ⟨ys', rfl, hbehind⟩ := h.exists_of_cons hu.1
    obtain ⟨ys'', rfl, hrest⟩ := ih hu.2 hbehind
    exact ⟨ys'', rfl, hrest⟩

private theorem exists_of_append_right (hv : OneLine vs) (h : SameLines alone xs (vs ++ ys)) :
    ∃ xs', xs = vs ++ xs' ∧ SameLines alone xs' ys := by
  induction vs generalizing xs with
  | nil => exact ⟨xs, rfl, h⟩
  | cons b vs ih =>
    rw [OneLine, List.forall_mem_cons] at hv
    obtain ⟨xs', rfl, hbehind⟩ := h.exists_of_cons_right hv.1
    obtain ⟨xs'', rfl, hrest⟩ := ih hv.2 hbehind
    exact ⟨xs'', rfl, hrest⟩

theorem prefix_iff (h : SameLines alone xs ys) (hu : OneLine us) : us <+: xs ↔ us <+: ys := by
  constructor
  · rintro ⟨rest, rfl⟩
    obtain ⟨rest', rfl, -⟩ := exists_of_append hu h
    exact List.prefix_append us rest'
  · rintro ⟨rest, rfl⟩
    obtain ⟨rest', rfl, -⟩ := exists_of_append_right hu h
    exact List.prefix_append us rest'

theorem drop_length (h : SameLines alone xs ys) (hu : OneLine us) (hp : us <+: xs) :
    SameLines alone (xs.drop us.length) (ys.drop us.length) := by
  obtain ⟨rest, rfl⟩ := hp
  obtain ⟨rest', rfl, hrest⟩ := exists_of_append hu h
  rw [List.drop_left, List.drop_left]
  exact hrest

theorem isPrefixOf_eq (h : SameLines alone xs ys) (hu : OneLine us) :
    us.isPrefixOf xs = us.isPrefixOf ys := by
  rw [Bool.eq_iff_iff, List.isPrefixOf_iff_prefix, List.isPrefixOf_iff_prefix]
  exact h.prefix_iff hu

section Runs

variable {p : UInt8 → Bool} (hp : p 0x0D = p 0x0A)
include hp

theorem takeWhile (h : SameLines alone xs ys) :
    SameLines alone (xs.takeWhile p) (ys.takeWhile p) := by
  induction h with
  | nil => exact .nil
  | byte plain _ ih =>
    simp only [List.takeWhile_cons]
    split
    · exact .byte plain ih
    · exact .nil
  | pair _ ih =>
    simp only [List.takeWhile_cons, hp]
    split
    · exact .pair ih
    · exact .nil
  | lone ends _ ih =>
    simp only [List.takeWhile_cons, hp]
    split
    · exact .lone ends ih
    · exact .nil

theorem dropWhile (h : SameLines alone xs ys) :
    SameLines alone (xs.dropWhile p) (ys.dropWhile p) := by
  induction h with
  | nil => exact .nil
  | byte plain rest ih =>
    simp only [List.dropWhile_cons]
    split
    · exact ih
    · exact .byte plain rest
  | pair rest ih =>
    simp only [List.dropWhile_cons, hp]
    split
    · exact ih
    · exact .pair rest
  | lone ends rest ih =>
    simp only [List.dropWhile_cons, hp]
    split
    · exact ih
    · exact .lone ends rest

theorem all_eq (h : SameLines alone xs ys) : xs.all p = ys.all p := by
  induction h with
  | nil => rfl
  | byte _ _ ih => rw [List.all_cons, List.all_cons, ih]
  | pair _ ih => simp only [List.all_cons, hp, ih, Bool.and_self_left]
  | lone _ _ ih => rw [List.all_cons, List.all_cons, hp, ih]

end Runs

theorem dropWhile_nil (h : SameLines alone xs ys) {p : UInt8 → Bool} (hp : p 0x0D = p 0x0A)
    (hx : xs.dropWhile p = []) : ys.dropWhile p = [] :=
  (h.dropWhile hp).nil_iff.1 hx

/-- A run with line ends in it stops at the same byte of both. -/
theorem dropWhile_cons (h : SameLines alone xs ys) {p : UInt8 → Bool} (hreturn : p 0x0D = true)
    (hfeed : p 0x0A = true) (hx : xs.dropWhile p = b :: us) :
    isVisible b = true ∧ ∃ vs, ys.dropWhile p = b :: vs ∧ SameLines alone us vs := by
  have hrest := h.dropWhile (hreturn.trans hfeed.symm)
  have hends := Text.ends_dropWhile p xs
  rw [hx] at hrest hends
  have hb : p b = false := hends
  have hvisible : isVisible b = true := by
    rw [isVisible_iff]
    constructor <;> rintro rfl <;> simp_all
  exact ⟨hvisible, hrest.exists_of_cons hvisible⟩

/-- What stands before and behind a byte that ends no line has the same lines. -/
theorem exists_of_append_cons (h : SameLines alone (us ++ b :: xs) ys) (hb : isVisible b = true) :
    ∃ vs ys', ys = vs ++ b :: ys' ∧ SameLines alone us vs ∧ SameLines alone xs ys' := by
  obtain ⟨hreturn, hfeed⟩ := isVisible_iff.1 hb
  generalize hbytes : us ++ b :: xs = bytes at h
  induction h generalizing us with
  | nil => simp at hbytes
  | @byte c cs ds plain rest ih =>
    cases us with
    | nil =>
      obtain ⟨rfl, rfl⟩ := List.cons.inj hbytes
      exact ⟨[], ds, rfl, .nil, rest⟩
    | cons u us =>
      obtain ⟨rfl, hrest⟩ := List.cons.inj hbytes
      obtain ⟨vs, ys', rfl, hfront, hbehind⟩ := ih hrest
      exact ⟨u :: vs, ys', rfl, .byte plain hfront, hbehind⟩
  | pair _ ih =>
    cases us with
    | nil => exact absurd (List.cons.inj hbytes).1 hreturn
    | cons u us =>
      obtain ⟨rfl, hnext⟩ := List.cons.inj hbytes
      cases us with
      | nil => exact absurd (List.cons.inj hnext).1 hfeed
      | cons u us =>
        obtain ⟨rfl, hrest⟩ := List.cons.inj hnext
        obtain ⟨vs, ys', rfl, hfront, hbehind⟩ := ih hrest
        exact ⟨0x0A :: vs, ys', rfl, .pair hfront, hbehind⟩
  | lone ends _ ih =>
    cases us with
    | nil => exact absurd (List.cons.inj hbytes).1 hreturn
    | cons u us =>
      obtain ⟨rfl, hrest⟩ := List.cons.inj hbytes
      obtain ⟨vs, ys', rfl, hfront, hbehind⟩ := ih hrest
      exact ⟨0x0A :: vs, ys', rfl, .lone ends hfront, hbehind⟩

theorem exists_of_append_cons_right (h : SameLines alone xs (vs ++ b :: ys))
    (hb : isVisible b = true) :
    ∃ us xs', xs = us ++ b :: xs' ∧ SameLines alone us vs ∧ SameLines alone xs' ys := by
  obtain ⟨hreturn, hfeed⟩ := isVisible_iff.1 hb
  generalize hbytes : vs ++ b :: ys = bytes at h
  induction h generalizing vs with
  | nil => simp at hbytes
  | @byte c cs ds plain rest ih =>
    cases vs with
    | nil =>
      obtain ⟨rfl, rfl⟩ := List.cons.inj hbytes
      exact ⟨[], cs, rfl, .nil, rest⟩
    | cons v vs =>
      obtain ⟨rfl, hrest⟩ := List.cons.inj hbytes
      obtain ⟨us, xs', rfl, hfront, hbehind⟩ := ih hrest
      exact ⟨v :: us, xs', rfl, .byte plain hfront, hbehind⟩
  | pair _ ih =>
    cases vs with
    | nil => exact absurd (List.cons.inj hbytes).1 hfeed
    | cons v vs =>
      obtain ⟨rfl, hrest⟩ := List.cons.inj hbytes
      obtain ⟨us, xs', rfl, hfront, hbehind⟩ := ih hrest
      exact ⟨0x0D :: 0x0A :: us, xs', rfl, .pair hfront, hbehind⟩
  | lone ends _ ih =>
    cases vs with
    | nil => exact absurd (List.cons.inj hbytes).1 hfeed
    | cons v vs =>
      obtain ⟨rfl, hrest⟩ := List.cons.inj hbytes
      obtain ⟨us, xs', rfl, hfront, hbehind⟩ := ih hrest
      exact ⟨0x0D :: us, xs', rfl, .lone ends hfront, hbehind⟩

/-- Both halves of two splits have the same lines. -/
def Halves (alone : Prop) (x y : Bytes × Bytes) : Prop :=
  SameLines alone x.1 y.1 ∧ SameLines alone x.2 y.2

section Seen

variable {seen seen' : Bytes} (h : SameLines alone seen.reverse seen'.reverse)
include h

private theorem seen_byte (plain : b ≠ 0x0D) :
    SameLines alone (b :: seen).reverse (b :: seen').reverse := by
  rw [List.reverse_cons, List.reverse_cons]
  exact h.append (.byte plain .nil)

private theorem seen_pair :
    SameLines alone (0x0A :: 0x0D :: seen).reverse (0x0A :: seen').reverse := by
  rw [List.reverse_cons, List.reverse_cons, List.reverse_cons, List.append_assoc]
  exact h.append (.pair .nil)

private theorem seen_lone (ends : alone) :
    SameLines alone (0x0D :: seen).reverse (0x0A :: seen').reverse := by
  rw [List.reverse_cons, List.reverse_cons]
  exact h.append (.lone ends .nil)

end Seen

/-- No marker begins with a line end. -/
theorem splitFirstFrom_lineEnd {marker : Bytes} (hm : OneLine marker) (hne : marker ≠ [])
    (hb : isVisible b = false) (seen bytes : Bytes) :
    Text.splitFirstFrom marker seen (b :: bytes)
      = Text.splitFirstFrom marker (b :: seen) bytes := by
  rw [Text.splitFirstFrom, if_neg]
  intro hp
  obtain ⟨c, marker, rfl⟩ := List.exists_cons_of_ne_nil hne
  have hc : c = b := (List.cons_prefix_cons.1 (List.isPrefixOf_iff_prefix.1 hp)).1
  have hvisible := hm c List.mem_cons_self
  rw [hc, hb] at hvisible
  cases hvisible

theorem splitFirst? {marker : Bytes} (hm : OneLine marker) (hne : marker ≠ [])
    (h : SameLines alone xs ys) :
    Option.Rel (Halves alone) (Text.splitFirst? marker xs) (Text.splitFirst? marker ys) := by
  suffices hs : ∀ seen seen' : Bytes, SameLines alone seen.reverse seen'.reverse →
      Option.Rel (Halves alone) (Text.splitFirstFrom marker seen xs)
        (Text.splitFirstFrom marker seen' ys) from hs [] [] .nil
  induction h with
  | nil =>
    intro seen seen' _
    rw [Text.splitFirstFrom, Text.splitFirstFrom, if_neg (by simpa using hne),
      if_neg (by simpa using hne)]
    exact .none
  | @byte c cs ds plain rest ih =>
    intro seen seen' hseen
    have hall : SameLines alone (c :: cs) (c :: ds) := .byte plain rest
    rw [Text.splitFirstFrom, Text.splitFirstFrom, ← hall.isPrefixOf_eq hm]
    split
    · next hp =>
      exact .some ⟨hseen, hall.drop_length hm (List.isPrefixOf_iff_prefix.1 hp)⟩
    · exact ih _ _ (seen_byte hseen plain)
  | pair _ ih =>
    intro seen seen' hseen
    rw [splitFirstFrom_lineEnd hm hne rfl, splitFirstFrom_lineEnd hm hne rfl,
      splitFirstFrom_lineEnd hm hne rfl]
    exact ih _ _ (seen_pair hseen)
  | lone ends _ ih =>
    intro seen seen' hseen
    rw [splitFirstFrom_lineEnd hm hne rfl, splitFirstFrom_lineEnd hm hne rfl]
    exact ih _ _ (seen_lone hseen ends)

private theorem splitTag_lineEnd {quote : Option UInt8} (hq : ∀ q ∈ quote, isVisible q = true)
    (hb : isVisible b = false) (seen bytes : Bytes) :
    Piece.splitTag quote seen (b :: bytes) = Piece.splitTag quote (b :: seen) bytes := by
  cases quote with
  | none =>
    have hclose : b ≠ 0x3E := by rintro rfl; cases hb
    have hquote : ¬ (b = 0x22 ∨ b = 0x27) := by rintro (rfl | rfl) <;> cases hb
    rw [Piece.splitTag]
    simp only [hclose, hquote, if_false]
  | some q =>
    have hne : b ≠ q := by
      rintro rfl
      have hvisible := hq b rfl
      rw [hb] at hvisible
      cases hvisible
    rw [Piece.splitTag]
    simp only [hne, if_false]

theorem splitTag (h : SameLines alone xs ys) {quote : Option UInt8}
    (hq : ∀ q ∈ quote, isVisible q = true) {seen seen' : Bytes}
    (hseen : SameLines alone seen.reverse seen'.reverse) :
    Option.Rel (Halves alone) (Piece.splitTag quote seen xs) (Piece.splitTag quote seen' ys) := by
  induction h generalizing quote seen seen' with
  | nil => exact .none
  | @byte c cs ds plain rest ih =>
    have hbehind := seen_byte hseen plain
    cases quote with
    | none =>
      by_cases hclose : c = 0x3E
      · subst hclose
        exact .some ⟨hseen, rest⟩
      · rw [Piece.splitTag, Piece.splitTag]
        simp only [hclose, if_false]
        apply ih _ hbehind
        intro q hq
        split at hq
        · next hquote =>
          cases hq
          rcases hquote with rfl | rfl <;> rfl
        · cases hq
    | some q =>
      rw [Piece.splitTag, Piece.splitTag]
      apply ih _ hbehind
      intro q' hq'
      split at hq'
      · cases hq'
      · exact hq q' hq'
  | pair _ ih =>
    rw [splitTag_lineEnd hq rfl, splitTag_lineEnd hq rfl, splitTag_lineEnd hq rfl]
    exact ih hq (seen_pair hseen)
  | lone ends _ ih =>
    rw [splitTag_lineEnd hq rfl, splitTag_lineEnd hq rfl]
    exact ih hq (seen_lone hseen ends)

theorem splitBalanced_of_ne (hb : b ≠ 0x3E) (depth : Nat) (seen bytes : Bytes) :
    Piece.splitBalanced depth seen (b :: bytes)
      = Piece.splitBalanced (if b = 0x3C then depth + 1 else depth) (b :: seen) bytes :=
  if_neg hb

private theorem splitBalanced_lineEnd (depth : Nat) (hb : isVisible b = false)
    (seen bytes : Bytes) :
    Piece.splitBalanced depth seen (b :: bytes) = Piece.splitBalanced depth (b :: seen) bytes := by
  have hclose : b ≠ 0x3E := by rintro rfl; cases hb
  have hopen : b ≠ 0x3C := by rintro rfl; cases hb
  rw [splitBalanced_of_ne hclose, if_neg hopen]

theorem splitBalanced (h : SameLines alone xs ys) (depth : Nat) {seen seen' : Bytes}
    (hseen : SameLines alone seen.reverse seen'.reverse) :
    Option.Rel (Halves alone) (Piece.splitBalanced depth seen xs)
      (Piece.splitBalanced depth seen' ys) := by
  induction h generalizing depth seen seen' with
  | nil => exact .none
  | @byte c cs ds plain rest ih =>
    have hbehind := seen_byte hseen plain
    by_cases hclose : c = 0x3E
    · subst hclose
      cases depth with
      | zero => exact .some ⟨hseen, rest⟩
      | succ outer => exact ih outer hbehind
    · rw [splitBalanced_of_ne hclose, splitBalanced_of_ne hclose]
      exact ih _ hbehind
  | pair _ ih =>
    rw [splitBalanced_lineEnd depth rfl, splitBalanced_lineEnd depth rfl,
      splitBalanced_lineEnd depth rfl]
    exact ih depth (seen_pair hseen)
  | lone ends _ ih =>
    rw [splitBalanced_lineEnd depth rfl, splitBalanced_lineEnd depth rfl]
    exact ih depth (seen_lone hseen ends)

private theorem oneLine_encode {d : Char} (hreturn : d ≠ '\r') (hfeed : d ≠ '\n') :
    OneLine (Text.encode [d]) := by
  intro b hb
  rw [isVisible_iff]
  constructor
  · rintro rfl
    exact Text.not_mem_encode (by decide : ('\r').toNat < 128) (by simpa using hreturn.symm) hb
  · rintro rfl
    exact Text.not_mem_encode (by decide : ('\n').toNat < 128) (by simpa using hfeed.symm) hb

private theorem encode_cons_append (d : Char) (ds : List Char) :
    Text.encode (d :: ds) = Text.encode [d] ++ Text.encode ds :=
  Text.encode_append [d] ds

private theorem exists_feed_cons {cs : List Char} (h : Text.encode cs = 0x0A :: xs) :
    ∃ ds, cs = '\n' :: ds := by
  cases cs with
  | nil => cases h
  | cons d ds =>
    obtain ⟨b, bytes, hb, hfirst⟩ := Text.exists_encode_cons d ds
    rw [hb] at h
    by_cases hd : d = '\n'
    · exact ⟨ds, by rw [hd]⟩
    · exact absurd (List.cons.inj h).1 (hfirst (by decide : ('\n').toNat < 128) hd)

private theorem not_mem_return (h : SameLines alone xs ys) : 0x0D ∉ ys := by
  induction h with
  | nil => exact List.not_mem_nil
  | byte plain _ ih => exact List.not_mem_cons_of_ne_of_not_mem plain.symm ih
  | pair _ ih => exact List.not_mem_cons_of_ne_of_not_mem (by decide) ih
  | lone _ _ ih => exact List.not_mem_cons_of_ne_of_not_mem (by decide) ih

/-- The bytes of a text have the lines of its normalised form. -/
theorem encode_unixLines (cs : List Char) :
    SameLines True (Text.encode cs) (Text.encode (Text.unixLines cs)) := by
  fun_induction Text.unixLines cs with
  | case1 => exact .nil
  | case2 cs ih => exact .pair ih
  | case3 d cs _ ih =>
    by_cases hreturn : d = '\r'
    · rw [hreturn, if_pos rfl]
      exact .lone trivial ih
    · rw [if_neg hreturn, encode_cons_append d cs, encode_cons_append d (Text.unixLines cs)]
      apply SameLines.append _ ih
      by_cases hfeed : d = '\n'
      · subst hfeed
        exact .byte (by decide) .nil
      · exact .of_oneLine _ (oneLine_encode hreturn hfeed)

/-- Where returns end lines only in front of line feeds, the normalised form is the only one. -/
theorem eq_encode_unixLines {cs : List Char} (h : SameLines False (Text.encode cs) ys) :
    ys = Text.encode (Text.unixLines cs) := by
  fun_induction Text.unixLines cs generalizing ys with
  | case1 => exact h.nil_iff.1 rfl
  | case2 cs ih =>
    cases h with
    | byte plain _ => exact absurd rfl plain
    | pair rest =>
      rw [ih rest]
      rfl
    | lone ends _ => cases ends
  | case3 d cs hpair ih =>
    by_cases hreturn : d = '\r'
    · subst hreturn
      have hbytes : Text.encode ('\r' :: cs) = 0x0D :: Text.encode cs := rfl
      rw [hbytes] at h
      generalize hrest : Text.encode cs = rest at h
      cases h with
      | byte plain _ => exact absurd rfl plain
      | pair _ =>
        obtain ⟨ds, rfl⟩ := exists_feed_cons hrest
        exact absurd rfl (hpair ds rfl)
      | lone ends _ => cases ends
    · rw [if_neg hreturn, encode_cons_append]
      rw [encode_cons_append] at h
      by_cases hfeed : d = '\n'
      · subst hfeed
        cases h with
        | byte _ rest =>
          rw [ih rest]
          rfl
      · obtain ⟨ys', rfl, hrest⟩ := exists_of_append (oneLine_encode hreturn hfeed) h
        rw [ih hrest]

/-- Bytes that have the lines of a text are a text. -/
theorem exists_encode {ds : List Char} (h : SameLines False xs (Text.encode ds)) :
    ∃ cs, xs = Text.encode cs := by
  induction ds generalizing xs with
  | nil => exact ⟨[], h.nil_iff.2 rfl⟩
  | cons d ds ih =>
    have hplain := h.not_mem_return
    rw [encode_cons_append] at h hplain
    by_cases hfeed : d = '\n'
    · subst hfeed
      cases h with
      | byte _ rest =>
        obtain ⟨cs, rfl⟩ := ih rest
        exact ⟨'\n' :: cs, rfl⟩
      | pair rest =>
        obtain ⟨cs, rfl⟩ := ih rest
        exact ⟨'\r' :: '\n' :: cs, rfl⟩
      | lone ends _ => cases ends
    · have hreturn : d ≠ '\r' := by
        rintro rfl
        exact hplain List.mem_cons_self
      obtain ⟨xs', rfl, hrest⟩ := exists_of_append_right (oneLine_encode hreturn hfeed) h
      obtain ⟨cs, rfl⟩ := ih hrest
      exact ⟨d :: cs, (encode_cons_append d cs).symm⟩

end SameLines
end XsdCatalog.Fragment
