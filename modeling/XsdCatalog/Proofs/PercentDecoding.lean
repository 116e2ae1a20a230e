import XsdCatalog.Proofs.EscapedPaths

/-!
# What percent decoding replaces

A percent sign and a pair of bytes behind it are replaced by the byte that the pair denotes, from
left to right, and every other byte is kept. Two digits denote a byte, and so do a plus sign and one
digit. The decoded bytes are those that two digits alone stand for exactly where no percent sign
comes before a plus sign and a digit.
-/

namespace XsdCatalog.Text

/-- Two digits of either case denote the byte. -/
def IsHexPair (a b byte : UInt8) : Prop :=
  ∃ high low, IsHexDigit high (byte.toNat / 16) ∧ IsHexDigit low (byte.toNat % 16) ∧
    a = high.toUInt8 ∧ b = low.toUInt8

/-- A plus sign and one digit denote the byte. -/
def IsSignedDigit (a b byte : UInt8) : Prop :=
  a = 0x2B ∧ byte.toNat < 16 ∧ ∃ low, IsHexDigit low byte.toNat ∧ b = low.toUInt8

def Denotes (a b byte : UInt8) : Prop :=
  IsHexPair a b byte ∨ IsSignedDigit a b byte

/-- Every percent sign with a pair behind it is replaced, from left to right, by the byte that the
pair denotes; every other byte is kept. -/
inductive Unescaped (pair : UInt8 → UInt8 → UInt8 → Prop) : List UInt8 → List UInt8 → Prop
  | nil : Unescaped pair [] []
  | replaced {a b byte : UInt8} {rest out : List UInt8} (hpair : pair a b byte)
      (h : Unescaped pair rest out) : Unescaped pair (0x25 :: a :: b :: rest) (byte :: out)
  | kept {c : UInt8} {rest out : List UInt8}
      (hpair : c = 0x25 → ∀ a b byte, [a, b] <+: rest → ¬ pair a b byte)
      (h : Unescaped pair rest out) : Unescaped pair (c :: rest) (c :: out)

/-- No percent sign comes before a plus sign and a digit. -/
def Unsigned (bytes : List UInt8) : Prop :=
  ∀ a b byte, IsSignedDigit a b byte → ¬ [0x25, a, b] <:+: bytes

private theorem hexDigit_digitChar : ∀ n < 256, ∀ d ∈ hexDigit? (UInt8.ofNat n),
    d.toNat < 16 ∧ (UInt8.ofNat n = (Nat.digitChar d.toNat).toUInt8 ∨
      UInt8.ofNat n = (Nat.digitChar d.toNat).toUpper.toUInt8) := by
  decide +kernel

private theorem hexDigit?_eq_some_iff {b d : UInt8} :
    hexDigit? b = some d ↔ d.toNat < 16 ∧ ∃ c, IsHexDigit c d.toNat ∧ b = c.toUInt8 := by
  constructor
  · intro h
    rw [← UInt8.ofNat_toNat (x := b)] at h ⊢
    obtain ⟨hd, hb | hb⟩ := hexDigit_digitChar b.toNat b.toNat_lt d h
    · exact ⟨hd, _, .inl rfl, hb⟩
    · exact ⟨hd, _, .inr rfl, hb⟩
  · rintro ⟨hd, c, hc, rfl⟩
    rw [(hc.digit hd).2.2.2, UInt8.ofNat_toNat]

/-- The halves of a byte that is made of two numbers below sixteen. -/
theorem halves_of_sum {high low : UInt8} (hhigh : high.toNat < 16) (hlow : low.toNat < 16) :
    (high * 16 + low).toNat / 16 = high.toNat ∧ (high * 16 + low).toNat % 16 = low.toNat := by
  have hsum : (high * 16 + low).toNat = (high.toNat * 16 % 256 + low.toNat) % 256 := by
    rw [UInt8.toNat_add, UInt8.toNat_mul]
    rfl
  omega

private theorem denotes_iff {a b byte : UInt8} : Denotes a b byte ↔ hexPair? a b = some byte := by
  constructor
  · rintro (⟨high, low, hhigh, hlow, rfl, rfl⟩ | ⟨rfl, hbyte, hlow⟩)
    · exact hexPair?_of_isHexDigit hhigh hlow
    · rw [hexPair?, if_pos rfl]
      exact hexDigit?_eq_some_iff.2 ⟨hbyte, hlow⟩
  · intro h
    by_cases hplus : a = 0x2B
    · rw [hexPair?, if_pos hplus] at h
      exact .inr ⟨hplus, hexDigit?_eq_some_iff.1 h⟩
    · simp only [hexPair?, if_neg hplus, Option.bind_eq_bind, Option.bind_eq_some_iff,
        Option.pure_def, Option.some.injEq] at h
      obtain ⟨m, hm, n, hn, rfl⟩ := h
      obtain ⟨hmlt, high, hhigh, rfl⟩ := hexDigit?_eq_some_iff.1 hm
      obtain ⟨hnlt, low, hlow, rfl⟩ := hexDigit?_eq_some_iff.1 hn
      obtain ⟨hdiv, hmod⟩ := halves_of_sum hmlt hnlt
      exact .inl ⟨high, low, by rwa [hdiv], by rwa [hmod], rfl, rfl⟩

/-- A digit is neither a percent sign nor a plus sign. -/
theorem IsHexPair.ne {a b byte : UInt8} (h : IsHexPair a b byte) :
    a ≠ 0x25 ∧ a ≠ 0x2B ∧ b ≠ 0x25 := by
  have hbyte : byte.toNat < 256 := byte.toNat_lt
  have hpercent {c : Char} {n : Nat} (hc : IsHexDigit c n) (hn : n < 16) : c.toUInt8 ≠ 0x25 := by
    intro he
    have hdigit := (hc.digit hn).2.2.2
    rw [he] at hdigit
    cases hdigit
  obtain ⟨high, low, hhigh, hlow, rfl, rfl⟩ := h
  exact ⟨hpercent hhigh (by omega), (hhigh.digit (by omega)).2.2.1, hpercent hlow (by omega)⟩

private theorem IsSignedDigit.ne {a b byte : UInt8} (h : IsSignedDigit a b byte) : byte ≠ 0x25 := by
  rintro rfl
  exact absurd h.2.1 (by decide)

private theorem percentDecode_escape {a b byte : UInt8} (h : Denotes a b byte) (rest : List UInt8) :
    percentDecode (0x25 :: a :: b :: rest) = byte :: percentDecode rest := by
  rw [percentDecode, if_pos rfl, denotes_iff.1 h]

private theorem percentDecode_cons {c : UInt8} {rest : List UInt8}
    (h : c = 0x25 → ∀ a b byte, [a, b] <+: rest → ¬ Denotes a b byte) :
    percentDecode (c :: rest) = c :: percentDecode rest := by
  by_cases hc : c = 0x25
  · match rest with
    | [] => rfl
    | [_] => rfl
    | a :: b :: rest =>
      have hnone : hexPair? a b = none := by
        rw [Option.eq_none_iff_forall_ne_some]
        exact fun byte hbyte => h hc a b byte ⟨rest, rfl⟩ (denotes_iff.2 hbyte)
      rw [percentDecode, if_pos hc, hnone]
  · exact percentDecode_cons_of_ne hc rest

private theorem unescaped_percentDecode (bytes : List UInt8) :
    Unescaped Denotes bytes (percentDecode bytes) := by
  have hshort {c : UInt8} {rest : List UInt8} (hrest : rest.length < 2) :
      c = 0x25 → ∀ a b byte, [a, b] <+: rest → ¬ Denotes a b byte :=
    fun _ _ _ _ hfront => absurd hfront.length_le (by simpa using hrest)
  fun_induction percentDecode bytes with
  | case1 => exact .nil
  | case2 a => exact .kept (hshort Nat.zero_lt_two) .nil
  | case3 a b => exact .kept (hshort Nat.one_lt_two) (.kept (hshort Nat.zero_lt_two) .nil)
  | case4 a b rest byte hbyte ih => exact .replaced (denotes_iff.2 hbyte) ih
  | case5 a b rest hnone ih =>
    refine .kept (fun _ a' b' byte hfront hbyte => ?_) ih
    obtain ⟨rfl, hbehind⟩ := List.cons_prefix_cons.1 hfront
    obtain ⟨rfl, -⟩ := List.cons_prefix_cons.1 hbehind
    rw [denotes_iff, hnone] at hbyte
    cases hbyte
  | case6 c a b rest hc ih => exact .kept (fun he => absurd he hc) ih

/-- What is decoded is determined by what the pairs denote. -/
theorem unescaped_iff {bytes out : List UInt8} :
    Unescaped Denotes bytes out ↔ out = percentDecode bytes := by
  constructor
  · intro h
    induction h with
    | nil => rfl
    | replaced hpair _ ih => rw [percentDecode_escape hpair, ih]
    | kept hpair _ ih => rw [percentDecode_cons hpair, ih]
  · rintro rfl
    exact unescaped_percentDecode bytes

private theorem Unsigned.of_suffix {bytes rest : List UInt8} (h : Unsigned bytes)
    (hrest : rest <:+ bytes) : Unsigned rest :=
  fun a b byte hpair hwithin => h a b byte hpair (hwithin.trans hrest.isInfix)

private theorem Unescaped.of_unsigned {bytes out : List UInt8} (h : Unescaped Denotes bytes out)
    (hunsigned : Unsigned bytes) : Unescaped IsHexPair bytes out := by
  induction h with
  | nil => exact .nil
  | @replaced a b byte rest out hpair _ ih =>
    have hrest : rest <:+ 0x25 :: a :: b :: rest := ⟨[0x25, a, b], rfl⟩
    refine .replaced (hpair.resolve_right fun hsigned => ?_) (ih (hunsigned.of_suffix hrest))
    exact hunsigned a b byte hsigned ⟨[], rest, rfl⟩
  | kept hpair _ ih =>
    exact .kept (fun hc a b byte hfront hhex => hpair hc a b byte hfront (.inl hhex))
      (ih (hunsigned.of_suffix (List.suffix_cons _ _)))

/-- A percent sign, a plus sign and a digit begin with the first byte or come behind it. -/
theorem unsigned_cons_iff {c : UInt8} {rest : List UInt8} :
    Unsigned (c :: rest) ↔
      (c = 0x25 → ∀ a b byte, [a, b] <+: rest → ¬ IsSignedDigit a b byte) ∧ Unsigned rest := by
  constructor
  · intro h
    refine ⟨?_, h.of_suffix (List.suffix_cons _ _)⟩
    rintro rfl a b byte hfront hsigned
    exact h a b byte hsigned ((List.prefix_cons_inj 0x25).2 hfront).isInfix
  · rintro ⟨hfirst, hrest⟩ a b byte hsigned hwithin
    rcases List.infix_cons_iff.1 hwithin with hfront | hwithin
    · obtain ⟨hc, hfront⟩ := List.cons_prefix_cons.1 hfront
      exact hfirst hc.symm a b byte hfront hsigned
    · exact hrest a b byte hsigned hwithin

private theorem Unescaped.unsigned {bytes out : List UInt8} (h : Unescaped IsHexPair bytes out)
    (hout : out = percentDecode bytes) : Unsigned bytes := by
  induction h with
  | nil => exact fun _ _ _ _ hwithin => absurd hwithin.length_le (by simp)
  | @replaced a b byte rest out hpair _ ih =>
    rw [percentDecode_escape (.inl hpair)] at hout
    obtain ⟨ha, hplus, hb⟩ := hpair.ne
    refine unsigned_cons_iff.2 ⟨fun _ a' b' _ hfront hsigned => ?_, ?_⟩
    · exact hplus ((List.cons_prefix_cons.1 hfront).1 ▸ hsigned.1)
    · exact unsigned_cons_iff.2 ⟨fun he => absurd he ha,
        unsigned_cons_iff.2 ⟨fun he => absurd he hb, ih (List.cons.inj hout).2⟩⟩
  | @kept c rest out hpair _ ih =>
    -- a signed digit would have been replaced by a byte that is no percent sign
    have hsigned : c = 0x25 → ∀ a b byte, [a, b] <+: rest → ¬ IsSignedDigit a b byte := by
      rintro rfl a b byte ⟨behind, rfl⟩ hsigned
      have hescape := percentDecode_escape (.inr hsigned) behind
      exact hsigned.ne (List.cons.inj (hout.trans hescape)).1.symm
    have hcons : percentDecode (c :: rest) = c :: percentDecode rest :=
      percentDecode_cons fun hc a b byte hfront hdenotes =>
        hdenotes.elim (hpair hc a b byte hfront) (hsigned hc a b byte hfront)
    exact unsigned_cons_iff.2 ⟨hsigned, ih (List.cons.inj (hout.trans hcons)).2⟩

/-- Two digits alone account for what is decoded exactly where no digit is signed. -/
theorem unescaped_digits_iff (bytes : List UInt8) :
    Unescaped IsHexPair bytes (percentDecode bytes) ↔ Unsigned bytes :=
  ⟨fun h => h.unsigned rfl, (unescaped_percentDecode bytes).of_unsigned⟩

end XsdCatalog.Text

namespace XsdCatalog.Locator

open Text (Unescaped Denotes IsHexPair Unsigned toBytes)

/-- Decoding replaces the escapes with two digits and with a signed digit, and these only; it fails
exactly if what comes out is no text. It replaces no more than the escapes with two digits exactly
where no digit is signed. -/
theorem decode_of_escapes (text : String) :
    ∃ bytes, (∀ out, Unescaped Denotes (toBytes text) out ↔ out = bytes) ∧
      (Unescaped IsHexPair (toBytes text) bytes ↔ Unsigned (toBytes text)) ∧
      (∀ decoded, decode text = .ok decoded ↔ toBytes decoded = bytes) ∧
      ∀ e, decode text = .error e ↔
        e = .unsupportedLocator ("invalid UTF-8 in '" ++ text ++ "'") ∧
          ∀ decoded, toBytes decoded ≠ bytes := by
  have htext (decoded : String) :
      Text.ofBytes? (Text.percentDecode (toBytes text)) = some decoded ↔
        toBytes decoded = Text.percentDecode (toBytes text) := by
    rw [Text.ofBytes?_eq_some_iff, Text.toBytes_eq decoded, eq_comm]
  refine ⟨Text.percentDecode (toBytes text), fun _ => Text.unescaped_iff,
    Text.unescaped_digits_iff _, ?_⟩
  simp only [ne_eq, ← htext, decode]
  cases Text.ofBytes? (Text.percentDecode (toBytes text)) with
  | none => simp [eq_comm]
  | some decoded => simp

/-- The plus sign is read as the sign of a number, though two digits alone leave the text as it is. -/
theorem decode_signedDigit :
    decode "/a%+5b" = .ok "/a\x05b" ∧
      Unescaped IsHexPair (toBytes "/a%+5b") (toBytes "/a%+5b") ∧
      ¬ Unescaped IsHexPair (toBytes "/a%+5b") (toBytes "/a\x05b") := by
  have hbytes : toBytes "/a%+5b" = [0x2F, 0x61, 0x25, 0x2B, 0x35, 0x62] := by decide +kernel
  have hdecoded : Text.percentDecode (toBytes "/a%+5b") = toBytes "/a\x05b" := by decide +kernel
  have hsigned : Text.IsSignedDigit 0x2B 0x35 5 := ⟨rfl, by decide, '5', .inl rfl, rfl⟩
  refine ⟨by decide +kernel, ?_, fun h => ?_⟩
  · rw [hbytes]
    have hplain {c : UInt8} {rest out : List UInt8} (hc : c ≠ 0x25)
        (hrest : Unescaped IsHexPair rest out) : Unescaped IsHexPair (c :: rest) (c :: out) :=
      .kept (fun he => absurd he hc) hrest
    refine hplain (by decide) (hplain (by decide) (.kept (fun _ a b byte hfront hpair => ?_) ?_))
    · exact hpair.ne.2.1 (List.cons_prefix_cons.1 hfront).1
    · exact hplain (by decide) (hplain (by decide) (hplain (by decide) .nil))
  · rw [← hdecoded, Text.unescaped_digits_iff] at h
    exact h _ _ _ hsigned ⟨[0x2F, 0x61], [0x62], by rw [hbytes]; rfl⟩

end XsdCatalog.Locator
