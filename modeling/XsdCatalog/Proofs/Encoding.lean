import Mathlib.Data.List.Basic
import XsdCatalog.Fragment.Piece
import XsdCatalog.Fragment.Tracker
import XsdCatalog.Markup.Character
import XsdCatalog.Proofs.Splitting
import XsdCatalog.Text.Utf8

/-!
# Bytes of characters

An ASCII character is one byte, and every byte of any other character is outside ASCII; its first
byte is the only one that does not continue a character. So tests for ASCII bytes see what tests for
ASCII characters see, and bytes are counted like characters.
-/

namespace XsdCatalog.Text

open Fragment (Bytes ascii)
open Fragment.Tracker (isContinuation)

/-- The bytes of characters. -/
def encode (cs : List Char) : Bytes :=
  cs.flatMap String.utf8EncodeChar

theorem encode_nil : encode [] = [] := rfl

theorem encode_cons (c : Char) (cs : List Char) :
    encode (c :: cs) = String.utf8EncodeChar c ++ encode cs := rfl

theorem encode_append (cs ds : List Char) : encode (cs ++ ds) = encode cs ++ encode ds :=
  List.flatMap_append

theorem encode_flatMap {α : Type} (f : α → List Char) (as : List α) :
    encode (as.flatMap f) = as.flatMap fun a => encode (f a) :=
  List.flatMap_assoc

theorem toBytes_eq (s : String) : toBytes s = encode s.toList := by
  have h : s.toByteArray = (encode s.toList).toByteArray := s.utf8Encode_toList.symm
  rw [toBytes, String.toUTF8_eq_toByteArray, h, List.toList_data_toByteArray]

theorem ofBytes?_eq_some_iff {bytes : Bytes} {s : String} :
    ofBytes? bytes = some s ↔ bytes = encode s.toList := by
  have hdata : (⟨bytes.toArray⟩ : ByteArray) = bytes.toByteArray :=
    congrArg ByteArray.mk List.data_toByteArray.symm
  have hs : s.toByteArray = (encode s.toList).toByteArray := s.utf8Encode_toList.symm
  rw [ofBytes?, hdata, String.fromUTF8?]
  constructor
  · intro h
    split at h
    · next hv =>
      have hb : bytes.toByteArray = (encode s.toList).toByteArray :=
        hs ▸ congrArg String.toByteArray (Option.some.inj h)
      have hb := congrArg (·.data.toList) hb
      simpa only [List.toList_data_toByteArray] using hb
    · cases h
  · rintro rfl
    have hv : (encode s.toList).toByteArray.IsValidUTF8 := hs ▸ s.isValidUTF8
    rw [dif_pos hv]
    exact congrArg some (String.toByteArray_inj.1 hs.symm)

theorem encode_injective : Function.Injective encode := by
  intro cs ds h
  have hcs : ofBytes? (encode cs) = some (String.ofList cs) := by
    rw [ofBytes?_eq_some_iff, String.toList_ofList]
  have hds : ofBytes? (encode cs) = some (String.ofList ds) := by
    rw [ofBytes?_eq_some_iff, String.toList_ofList, h]
  rw [hcs, Option.some.injEq] at hds
  exact String.ofList_injective hds

private theorem utf8EncodeChar_of_lt {c : Char} (h : c.toNat < 128) :
    String.utf8EncodeChar c = [c.toUInt8] := by
  have hle : c.val.toNat ≤ 0x7f := Nat.le_of_lt_succ h
  rw [String.utf8EncodeChar, if_pos hle]
  rfl

private theorem toNat_toUInt8 {c : Char} (h : c.toNat < 128) : c.toUInt8.toNat = c.toNat := by
  rw [Char.toUInt8, UInt32.toNat_toUInt8]
  exact Nat.mod_eq_of_lt (Nat.lt_trans h (by decide))

theorem toUInt8_inj {c d : Char} (hc : c.toNat < 128) (hd : d.toNat < 128) :
    c.toUInt8 = d.toUInt8 ↔ c = d := by
  rw [← UInt8.toNat_inj, toNat_toUInt8 hc, toNat_toUInt8 hd, Char.toNat_inj]

private theorem isContinuation_ofNat :
    ∀ n < 64, isContinuation (UInt8.ofNat (n + 0x80)) = true := by
  decide

private theorem continues (n : Nat) :
    0x80 ≤ UInt8.ofNat (n % 0x40 + 0x80) ∧
      isContinuation (UInt8.ofNat (n % 0x40 + 0x80)) = true := by
  have hn : n % 0x40 < 0x40 := Nat.mod_lt n (by decide)
  refine ⟨?_, isContinuation_ofNat _ hn⟩
  rw [UInt8.le_iff_toNat_le, UInt8.toNat_ofNat']
  change 0x80 ≤ (n % 0x40 + 0x80) % 256
  omega

/-- The bytes of a character outside ASCII. -/
theorem utf8EncodeChar_of_le {c : Char} (h : 128 ≤ c.toNat) :
    ∃ b bs, String.utf8EncodeChar c = b :: bs ∧ 0xC0 ≤ b ∧
      ∀ x ∈ bs, 0x80 ≤ x ∧ isContinuation x = true := by
  have hfirst (n m : Nat) (hn : n < 0x40) (hm : 0xC0 ≤ m) (hmn : n + m < 256) :
      0xC0 ≤ UInt8.ofNat (n + m) := by
    rw [UInt8.le_iff_toNat_le, UInt8.toNat_ofNat']
    change 0xC0 ≤ (n + m) % 256
    omega
  have h7 : ¬ c.val.toNat ≤ 0x7f := by
    change ¬ c.toNat ≤ 0x7f
    omega
  rw [String.utf8EncodeChar, if_neg h7]
  split
  · refine ⟨_, _, rfl, hfirst _ _ ?_ ?_ ?_, ?_⟩
    · omega
    · decide
    · omega
    · exact List.forall_mem_singleton.2 (continues _)
  · split
    · refine ⟨_, _, rfl, hfirst _ _ ?_ ?_ ?_, ?_⟩
      · omega
      · decide
      · omega
      · exact List.forall_mem_cons.2 ⟨continues _, List.forall_mem_singleton.2 (continues _)⟩
    · refine ⟨_, _, rfl, hfirst _ _ ?_ ?_ ?_, ?_⟩
      · omega
      · decide
      · omega
      · exact List.forall_mem_cons.2 ⟨continues _, List.forall_mem_cons.2
          ⟨continues _, List.forall_mem_singleton.2 (continues _)⟩⟩

theorem encode_cons_of_lt {c : Char} (h : c.toNat < 128) (cs : List Char) :
    encode (c :: cs) = c.toUInt8 :: encode cs := by
  rw [encode_cons, utf8EncodeChar_of_lt h, List.singleton_append]

private theorem forall_mem_encode {p : UInt8 → Prop} (hp : ∀ b, 0x80 ≤ b → p b) {cs : List Char}
    (h : ∀ c ∈ cs, c.toNat < 128 → p c.toUInt8) : ∀ b ∈ encode cs, p b := by
  intro b hb
  obtain ⟨c, hc, hb⟩ := List.mem_flatMap.1 hb
  by_cases hlt : c.toNat < 128
  · rw [utf8EncodeChar_of_lt hlt, List.mem_singleton] at hb
    exact hb ▸ h c hc hlt
  · obtain ⟨b', bs, he, hb', hbs⟩ := utf8EncodeChar_of_le (Nat.le_of_not_lt hlt)
    rw [he, List.mem_cons] at hb
    rcases hb with rfl | hb
    · exact hp b (UInt8.le_trans (by decide) hb')
    · exact hp b (hbs b hb).1

theorem not_mem_encode {a : Char} {cs : List Char} (ha : a.toNat < 128) (h : a ∉ cs) :
    a.toUInt8 ∉ encode cs := by
  intro hm
  refine forall_mem_encode (p := fun b => b ≠ a.toUInt8) ?_ ?_ _ hm rfl
  · rintro b hb rfl
    have hle := UInt8.le_iff_toNat_le.1 hb
    rw [toNat_toUInt8 ha] at hle
    exact absurd ha (Nat.not_lt.2 hle)
  · intro c hc hlt he
    exact h ((toUInt8_inj hlt ha).1 he ▸ hc)

theorem exists_encode_cons (c : Char) (cs : List Char) :
    ∃ b bs, encode (c :: cs) = b :: bs ∧ ∀ {a : Char}, a.toNat < 128 → c ≠ a → b ≠ a.toUInt8 := by
  by_cases hlt : c.toNat < 128
  · exact ⟨_, _, encode_cons_of_lt hlt cs, fun ha hne he => hne ((toUInt8_inj hlt ha).1 he)⟩
  · obtain ⟨b, bs, he, hb, -⟩ := utf8EncodeChar_of_le (Nat.le_of_not_lt hlt)
    refine ⟨b, bs ++ encode cs, by rw [encode_cons, he]; rfl, ?_⟩
    rintro a ha - rfl
    have hle := UInt8.le_iff_toNat_le.1 hb
    rw [toNat_toUInt8 ha] at hle
    have hbig : 192 ≤ a.toNat := hle
    omega

theorem getLast?_encode_ne {a : Char} {cs : List Char} (ha : a.toNat < 128)
    (h : cs.getLast? ≠ some a) : (encode cs).getLast? ≠ some a.toUInt8 := by
  rcases List.eq_nil_or_concat cs with rfl | ⟨front, c, rfl⟩
  · exact nofun
  · rw [List.concat_eq_append, List.getLast?_concat] at h
    have hc : a ∉ [c] := fun hm => h (congrArg some (List.mem_singleton.1 hm).symm)
    have hne : encode [c] ≠ [] := by
      obtain ⟨b, bs, hb, -⟩ := exists_encode_cons c []
      rw [hb]
      exact List.cons_ne_nil b bs
    rw [List.concat_eq_append, encode_append, List.getLast?_append_of_ne_nil _ hne]
    exact fun hl => not_mem_encode ha hc (List.mem_of_getLast? hl)

theorem encode_ascii {s : String} (h : ∀ c ∈ s.toList, c.toNat < 128) :
    encode s.toList = ascii s := by
  rw [ascii]
  generalize s.toList = cs at h
  induction cs with
  | nil => rfl
  | cons c cs ih =>
    rw [encode_cons, utf8EncodeChar_of_lt (h c List.mem_cons_self), List.map_cons,
      ih fun d hd => h d (List.mem_cons_of_mem c hd)]
    rfl

/-- The test says of every byte of a character what the other one says of the character. -/
def Mirrors (p : UInt8 → Bool) (q : Char → Bool) : Prop :=
  ∀ c, ∀ b ∈ String.utf8EncodeChar c, p b = q c

theorem mirrors_beq {a : Char} (ha : a.toNat < 128) : Mirrors (· == a.toUInt8) (· == a) := by
  intro c b hb
  show (b == a.toUInt8) = (c == a)
  by_cases hc : c = a
  · subst hc
    rw [utf8EncodeChar_of_lt ha, List.mem_singleton] at hb
    rw [hb, beq_self_eq_true, beq_self_eq_true]
  · have hmem : a.toUInt8 ∉ encode [c] :=
      not_mem_encode ha fun hm => hc (List.mem_singleton.1 hm).symm
    have hb : b ≠ a.toUInt8 := fun he => hmem (List.mem_flatMap.2 ⟨c, List.mem_singleton_self c, he ▸ hb⟩)
    rw [beq_false_of_ne hb, beq_false_of_ne hc]

variable {p p' : UInt8 → Bool} {q q' : Char → Bool}

theorem Mirrors.not (h : Mirrors p q) : Mirrors (!p ·) (!q ·) :=
  fun c b hb => congrArg Bool.not (h c b hb)

private theorem Mirrors.or (h : Mirrors p q) (h' : Mirrors p' q') :
    Mirrors (fun b => p b || p' b) (fun c => q c || q' c) :=
  fun c b hb => congrArg₂ Bool.or (h c b hb) (h' c b hb)

theorem Mirrors.and (h : Mirrors p q) (h' : Mirrors p' q') :
    Mirrors (fun b => p b && p' b) (fun c => q c && q' c) :=
  fun c b hb => congrArg₂ Bool.and (h c b hb) (h' c b hb)

theorem Mirrors.forall_mem (h : Mirrors p q) {cs : List Char} {v : Bool}
    (hcs : ∀ c ∈ cs, q c = v) : ∀ b ∈ encode cs, p b = v := by
  intro b hb
  obtain ⟨c, hc, hb⟩ := List.mem_flatMap.1 hb
  rw [h c b hb, hcs c hc]

theorem Mirrors.span (h : Mirrors p q) (cs : List Char) :
    (encode cs).takeWhile p = encode (cs.takeWhile q) ∧
      (encode cs).dropWhile p = encode (cs.dropWhile q) := by
  induction cs with
  | nil => exact ⟨rfl, rfl⟩
  | cons c cs ih =>
    obtain ⟨b, bs, hb, -⟩ := exists_encode_cons c []
    rw [encode_cons, encode_nil, List.append_nil] at hb
    by_cases hq : q c = true
    · have hall : ∀ b ∈ String.utf8EncodeChar c, p b = true := fun b hb => (h c b hb).trans hq
      rw [encode_cons, List.takeWhile_append_of_pos hall, List.dropWhile_append_of_pos hall,
        List.takeWhile_cons_of_pos hq, List.dropWhile_cons_of_pos hq, encode_cons, ih.1, ih.2]
      exact ⟨rfl, rfl⟩
    · have hp : ¬ p b = true := by
        rw [h c b (hb ▸ List.mem_cons_self)]
        exact hq
      rw [List.takeWhile_cons_of_neg hq, List.dropWhile_cons_of_neg hq, encode_cons, hb]
      exact ⟨List.takeWhile_cons_of_neg hp, List.dropWhile_cons_of_neg hp⟩

theorem mirrors_isSpace : Mirrors Fragment.isSpace Markup.isSpace :=
  (((mirrors_beq (by decide : (' ').toNat < 128)).or (mirrors_beq (by decide : ('\t').toNat < 128))).or
    (mirrors_beq (by decide : ('\r').toNat < 128))).or (mirrors_beq (by decide : ('\n').toNat < 128))

theorem prefix_encode_iff {m cs : List Char} : encode m <+: encode cs ↔ m <+: cs := by
  constructor
  · rintro ⟨r, hr⟩
    have h : m.utf8Encode ++ r.toByteArray = cs.utf8Encode :=
      List.toByteArray_append.symm.trans (congrArg List.toByteArray hr)
    exact List.isPrefix_of_utf8Encode_append_eq_utf8Encode _ h
  · rintro ⟨ds, rfl⟩
    exact ⟨encode ds, (encode_append m ds).symm⟩

/-- No marker begins inside a character. -/
theorem Closes.encode {a : Char} {m cs : List Char} (ha : a.toNat < 128)
    (h : Closes (a :: m) cs) : Closes (Text.encode (a :: m)) (Text.encode cs) := by
  have hinside {b : UInt8} (hb : 0x80 ≤ b) (bs : Bytes) : ¬ Text.encode (a :: m) <+: b :: bs := by
    intro hp
    rw [encode_cons, utf8EncodeChar_of_lt ha, List.singleton_append, List.cons_prefix_cons] at hp
    have hle := UInt8.le_iff_toNat_le.1 (hp.1 ▸ hb)
    rw [toNat_toUInt8 ha] at hle
    exact absurd ha (Nat.not_lt.2 hle)
  have hskip {bs : Bytes} (hbs : ∀ b ∈ bs, 0x80 ≤ b) {rest : Bytes}
      (hr : Closes (Text.encode (a :: m)) rest) : Closes (Text.encode (a :: m)) (bs ++ rest) := by
    induction bs with
    | nil => exact hr
    | cons b bs ih =>
      exact ⟨hinside (hbs b List.mem_cons_self) _,
        ih fun x hx => hbs x (List.mem_cons_of_mem b hx)⟩
  induction cs with
  | nil => trivial
  | cons c cs ih =>
    by_cases hc : c.toNat < 128
    · rw [encode_cons c, utf8EncodeChar_of_lt hc]
      refine ⟨fun hp => h.1 (prefix_encode_iff.1 ?_), ih h.2⟩
      rw [encode_append, encode_cons c, utf8EncodeChar_of_lt hc]
      exact hp
    · obtain ⟨b, bs, he, hb, hbs⟩ := utf8EncodeChar_of_le (Nat.le_of_not_lt hc)
      rw [encode_cons c, he]
      refine hskip ?_ (ih h.2)
      intro x hx
      rcases List.mem_cons.1 hx with rfl | hx
      · exact UInt8.le_trans (by decide) hb
      · exact (hbs x hx).1

theorem encode_byteOrderMark : encode [byteOrderMark] = Fragment.Tracker.byteOrderMark := by
  decide

theorem isPrefixOf_encode_iff {cs : List Char} :
    Fragment.Tracker.byteOrderMark.isPrefixOf (encode cs) = true ↔ [byteOrderMark] <+: cs := by
  rw [List.isPrefixOf_iff_prefix, ← encode_byteOrderMark, prefix_encode_iff]

end XsdCatalog.Text

namespace XsdCatalog

namespace Position

/-- Behind at least one character another position is reached. -/
theorem after_ne {p : Position} {cs : List Char} (h : cs ≠ []) : p.after cs ≠ p := by
  have hlt : ∀ (cs : List Char) (p q : Position),
      (p.line < q.line ∨ p.line = q.line ∧ p.column < q.column) →
      p.line < (q.after cs).line ∨ p.line = (q.after cs).line ∧ p.column < (q.after cs).column := by
    intro cs
    induction cs with
    | nil => exact fun _ _ h => h
    | cons c cs ih =>
      intro p q hpq
      refine ih p (q.next c) ?_
      rw [next]
      split <;> simp only <;> omega
  obtain ⟨c, cs, rfl⟩ := List.exists_cons_of_ne_nil h
  have hnext : p.line < (p.next c).line ∨
      p.line = (p.next c).line ∧ p.column < (p.next c).column := by
    rw [next]
    split <;> simp
  intro heq
  have hself := hlt cs p (p.next c) hnext
  rw [← after_cons, heq] at hself
  omega

/-- Lines and columns are counted from 1. -/
theorem after_valid (cs : List Char) :
    (start.after cs).line ≠ 0 ∧ (start.after cs).column ≠ 0 := by
  have hstep : ∀ (cs : List Char) (p : Position), p.line ≠ 0 ∧ p.column ≠ 0 →
      (p.after cs).line ≠ 0 ∧ (p.after cs).column ≠ 0 := by
    intro cs
    induction cs with
    | nil => exact fun _ h => h
    | cons c cs ih =>
      intro p hp
      refine ih (p.next c) ?_
      rw [next]
      split
      · exact ⟨Nat.succ_ne_zero _, Nat.one_ne_zero⟩
      · exact ⟨hp.1, Nat.succ_ne_zero _⟩
  exact hstep cs start (by decide)

end Position

namespace Fragment.Tracker

open Text (encode)

private theorem foldl_step_continuation {bs : List UInt8}
    (h : ∀ b ∈ bs, 0x80 ≤ b ∧ isContinuation b = true) (t : Tracker) : bs.foldl step t = t := by
  induction bs with
  | nil => rfl
  | cons b bs ih =>
    obtain ⟨hb, hc⟩ := h b List.mem_cons_self
    have hn : b ≠ 0x0A ∧ b ≠ 0x3C := by
      constructor <;> rintro rfl <;> exact absurd hb (by decide)
    rw [List.foldl_cons, step, if_neg hn.1, if_neg hn.2, if_pos hc]
    exact ih fun x hx => h x (List.mem_cons_of_mem b hx)

private theorem isContinuation_of_lt :
    ∀ n < 256, n < 128 ∨ 0xC0 ≤ n → isContinuation (UInt8.ofNat n) = false := by
  decide +kernel

/-- The bytes of a character count as the character. -/
theorem foldl_step_utf8EncodeChar (c : Char) (t : Tracker) :
    (String.utf8EncodeChar c).foldl step t
      = { t with
          position := t.position.next c
          lastTag := if c = '<' then t.position else t.lastTag } := by
  have hcont (b : UInt8) (h : b.toNat < 128 ∨ 0xC0 ≤ b.toNat) : isContinuation b = false := by
    have hb := isContinuation_of_lt b.toNat b.toNat_lt h
    rwa [UInt8.ofNat_toNat] at hb
  by_cases hlt : c.toNat < 128
  · have h1 : c.toUInt8 = 0x0A ↔ c = '\n' := Text.toUInt8_inj (d := '\n') hlt (by decide)
    have h2 : c.toUInt8 = 0x3C ↔ c = '<' := Text.toUInt8_inj (d := '<') hlt (by decide)
    rw [Text.utf8EncodeChar_of_lt hlt, List.foldl_cons, List.foldl_nil, step, Position.next,
      hcont _ (.inl (Text.toNat_toUInt8 hlt ▸ hlt))]
    simp only [h1, h2]
    by_cases h1 : c = '\n'
    · simp [h1]
    · by_cases h2 : c = '<' <;> simp [h1, h2]
  · obtain ⟨b, bs, he, hb, hbs⟩ := Text.utf8EncodeChar_of_le (Nat.le_of_not_lt hlt)
    have hn : b ≠ 0x0A ∧ b ≠ 0x3C := by
      constructor <;> rintro rfl <;> exact absurd hb (by decide)
    have hc : c ≠ '\n' ∧ c ≠ '<' := by
      constructor <;> rintro rfl <;> exact hlt (by decide)
    rw [he, List.foldl_cons, foldl_step_continuation hbs, step, if_neg hn.1, if_neg hn.2,
      hcont b (.inr (UInt8.le_iff_toNat_le.1 hb)), if_neg hc.2, Position.next, if_neg hc.1]
    rfl

theorem foldl_step_encode (cs : List Char) (t : Tracker) :
    ((encode cs).foldl step t).position = t.position.after cs ∧
      ((encode cs).foldl step t).atStart = t.atStart := by
  induction cs generalizing t with
  | nil => exact ⟨rfl, rfl⟩
  | cons c cs ih =>
    rw [Text.encode_cons, List.foldl_append, foldl_step_utf8EncodeChar, Position.after_cons]
    exact ih _

theorem lastTag_foldl_step (cs : List Char) (h : '<' ∉ cs) (t : Tracker) :
    ((encode cs).foldl step t).lastTag = t.lastTag := by
  induction cs generalizing t with
  | nil => rfl
  | cons c cs ih =>
    have hc : c ≠ '<' := fun hc => h (hc ▸ List.mem_cons_self)
    rw [Text.encode_cons, List.foldl_append, foldl_step_utf8EncodeChar,
      ih fun hcs => h (List.mem_cons_of_mem c hcs)]
    exact if_neg hc

end Fragment.Tracker

end XsdCatalog
