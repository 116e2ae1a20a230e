import XsdCatalog.Proofs.Encoding
import XsdCatalog.Source.Locator

/-!
# Escaped paths

A path can be escaped in many ways. Every byte may be written as a percent sign and two digits of
either case, and it must be if it is a percent sign, a blank or no ASCII character. In whichever way
an absolute path is escaped, the `file:` locator with the escaped path leads to it.
-/

namespace XsdCatalog.Text

/-- The digit of either case for a number below sixteen. -/
def IsHexDigit (c : Char) (n : Nat) : Prop :=
  c = Nat.digitChar n ∨ c = (Nat.digitChar n).toUpper

/-- The characters escape the bytes. -/
inductive Escapes : List Char → List UInt8 → Prop
  | nil : Escapes [] []
  | plain {c : Char} {cs : List Char} {bytes : List UInt8} (hascii : c.toNat < 128)
      (hblank : isBlank c = false) (hpercent : c ≠ '%') (h : Escapes cs bytes) :
      Escapes (c :: cs) (c.toUInt8 :: bytes)
  | escaped {high low : Char} {cs : List Char} {byte : UInt8} {bytes : List UInt8}
      (hhigh : IsHexDigit high (byte.toNat / 16)) (hlow : IsHexDigit low (byte.toNat % 16))
      (h : Escapes cs bytes) : Escapes ('%' :: high :: low :: cs) (byte :: bytes)

private theorem digitChar_digit : ∀ n < 16, ∀ c ∈ [Nat.digitChar n, (Nat.digitChar n).toUpper],
    c.toNat < 128 ∧ isBlank c = false ∧ c.toUInt8 ≠ 0x2B ∧
      hexDigit? c.toUInt8 = some (UInt8.ofNat n) := by
  simp only [List.forall_mem_cons, List.not_mem_nil, false_imp_iff, implies_true, and_true]
  decide

theorem IsHexDigit.digit {c : Char} {n : Nat} (h : IsHexDigit c n) (hn : n < 16) :
    c.toNat < 128 ∧ isBlank c = false ∧ c.toUInt8 ≠ 0x2B ∧
      hexDigit? c.toUInt8 = some (UInt8.ofNat n) := by
  refine digitChar_digit n hn c ?_
  rw [List.mem_cons, List.mem_singleton]
  exact h

/-- Two digits denote the byte with these halves. -/
theorem hexPair?_of_isHexDigit {high low : Char} {byte : UInt8}
    (hhigh : IsHexDigit high (byte.toNat / 16)) (hlow : IsHexDigit low (byte.toNat % 16)) :
    hexPair? high.toUInt8 low.toUInt8 = some byte := by
  have hbyte : byte.toNat < 256 := byte.toNat_lt
  obtain ⟨-, -, hplus, hh⟩ := hhigh.digit (by omega)
  obtain ⟨-, -, -, hl⟩ := hlow.digit (by omega)
  have hsum : UInt8.ofNat (byte.toNat / 16) * 16 + UInt8.ofNat (byte.toNat % 16) = byte := by
    rw [← UInt8.toNat_inj, UInt8.toNat_add, UInt8.toNat_mul, UInt8.toNat_ofNat',
      UInt8.toNat_ofNat']
    change (byte.toNat / 16 % 256 * 16 % 256 + byte.toNat % 16 % 256) % 256 = byte.toNat
    omega
  rw [hexPair?, if_neg hplus, hh, hl]
  exact congrArg some hsum

theorem percentDecode_cons_of_ne {b : UInt8} (h : b ≠ 0x25) (rest : List UInt8) :
    percentDecode (b :: rest) = b :: percentDecode rest := by
  match rest with
  | [] => rfl
  | [_] => rfl
  | _ :: _ :: _ => exact if_neg h

namespace Escapes

variable {cs : List Char} {bytes : List UInt8}

private theorem percentDecode_encode (h : Escapes cs bytes) :
    percentDecode (encode cs) = bytes := by
  induction h with
  | nil => rfl
  | @plain c cs bytes hascii _ hpercent _ ih =>
    have hne : c.toUInt8 ≠ 0x25 := fun he =>
      hpercent ((toUInt8_inj hascii (by decide : '%'.toNat < 128)).1 he)
    rw [encode_cons_of_lt hascii, percentDecode_cons_of_ne hne, ih]
  | @escaped high low cs byte bytes hhigh hlow _ ih =>
    have hbyte : byte.toNat < 256 := byte.toNat_lt
    have hpair := hexPair?_of_isHexDigit hhigh hlow
    rw [encode_cons_of_lt (by decide : '%'.toNat < 128),
      encode_cons_of_lt (hhigh.digit (by omega)).1, encode_cons_of_lt (hlow.digit (by omega)).1]
    show percentDecode (0x25 :: high.toUInt8 :: low.toUInt8 :: encode cs) = byte :: bytes
    rw [percentDecode, if_pos rfl, hpair]
    exact congrArg (byte :: ·) ih

private theorem isBlank_of_mem (h : Escapes cs bytes) : ∀ c ∈ cs, isBlank c = false := by
  induction h with
  | nil => exact List.forall_mem_nil _
  | plain _ hblank _ _ ih => exact List.forall_mem_cons.2 ⟨hblank, ih⟩
  | @escaped high low cs byte bytes hhigh hlow _ ih =>
    have hbyte : byte.toNat < 256 := byte.toNat_lt
    exact List.forall_mem_cons.2 ⟨by decide, List.forall_mem_cons.2
      ⟨(hhigh.digit (by omega)).2.1, List.forall_mem_cons.2 ⟨(hlow.digit (by omega)).2.1, ih⟩⟩⟩

/-- What begins with a slash begins with it or with a percent sign when it is escaped. -/
theorem exists_cons (h : Escapes cs (0x2F :: bytes)) :
    ∃ c rest, cs = c :: rest ∧ (c = '/' ∨ c = '%') := by
  generalize hbytes : (0x2F : UInt8) :: bytes = all at h
  cases h with
  | nil => cases hbytes
  | @plain c cs _ hascii _ _ _ =>
    have hc : c.toUInt8 = '/'.toUInt8 := (List.cons.inj hbytes).1.symm
    exact ⟨c, cs, rfl, .inl ((toUInt8_inj hascii (by decide : '/'.toNat < 128)).1 hc)⟩
  | @escaped high low cs _ _ _ _ _ => exact ⟨'%', high :: low :: cs, rfl, .inr rfl⟩

end Escapes

end XsdCatalog.Text

namespace XsdCatalog.Locator

open Text (Escapes)

/-- The word is written with letters of either case. -/
def InAnyCase (word written : String) : Prop :=
  List.Forall₂ (fun c d => d = c ∨ d = c.toUpper) word.toList written.toList

private theorem InAnyCase.letters {scheme : String} (h : InAnyCase "file" scheme) :
    scheme.toList.map Char.toLower = "file".toList.map Char.toLower ∧
      ∀ d ∈ scheme.toList, d ≠ ':' ∧ Text.isBlank d = false := by
  have hletters : ∀ c ∈ "file".toList, ∀ d ∈ [c, c.toUpper],
      d.toLower = c.toLower ∧ d ≠ ':' ∧ Text.isBlank d = false := by
    rw [show "file".toList = ['f', 'i', 'l', 'e'] from rfl]
    simp only [List.forall_mem_cons, List.not_mem_nil, false_imp_iff, implies_true, and_true]
    decide
  rw [InAnyCase] at h
  generalize "file".toList = word at h hletters ⊢
  generalize scheme.toList = written at h ⊢
  induction h with
  | nil => exact ⟨rfl, List.forall_mem_nil _⟩
  | @cons c d word written hd _ ih =>
    obtain ⟨hc, hword⟩ := List.forall_mem_cons.1 hletters
    obtain ⟨hlower, hmarks⟩ := ih hword
    obtain ⟨hfirst, hmark⟩ := hc d (by rw [List.mem_cons, List.mem_singleton]; exact hd)
    exact ⟨by rw [List.map_cons, List.map_cons, hfirst, hlower],
      List.forall_mem_cons.2 ⟨hmark, hmarks⟩⟩

private theorem behind?_append (mark rest : String) : behind? mark (mark ++ rest) = some rest := by
  have hprefix : mark.toList.isPrefixOf (mark ++ rest).toList = true := by
    rw [String.toList_append]
    exact List.isPrefixOf_iff_prefix.2 (List.prefix_append _ _)
  rw [behind?, if_pos hprefix, String.toList_append, ← String.length_toList, List.drop_left,
    String.ofList_toList]

/-- What is escaped stands behind the authority. -/
theorem withoutAuthority_append {authority : String}
    (hauthority : authority = "//" ∨ authority = "//localhost") {written : String}
    {bytes : List UInt8} (h : Escapes written.toList (0x2F :: bytes)) :
    withoutAuthority (authority ++ written) = written := by
  rcases hauthority with rfl | rfl
  · obtain ⟨c, rest, hcs, hc⟩ := h.exists_cons
    have hnone : behind? "//localhost" ("//" ++ written) = none := by
      have hprefix : ¬ "//localhost".toList.isPrefixOf ("//" ++ written).toList = true := by
        rw [String.toList_append, hcs, List.isPrefixOf_iff_prefix]
        rintro ⟨tail, htail⟩
        have hl : 'l' = c := (List.cons.inj (List.cons.inj (List.cons.inj htail).2).2).1
        rcases hc with rfl | rfl <;> cases hl
      exact if_neg hprefix
    rw [withoutAuthority, hnone, behind?_append]
    rfl
  · rw [withoutAuthority, behind?_append]
    rfl

/-- The scheme `file` in any letter case is passed over. -/
theorem behindScheme?_append {scheme : String} (h : InAnyCase "file" scheme) (rest : String) :
    behindScheme? "file" (scheme ++ ":" ++ rest) = some rest := by
  obtain ⟨hlower, hmarks⟩ := h.letters
  have hcut : Text.cut? ':' (scheme ++ ":" ++ rest) = some (scheme, rest) := by
    have hlocator : scheme ++ ":" ++ rest
        = String.ofList (scheme.toList ++ ':' :: rest.toList) := by
      rw [← String.toList_inj, String.toList_ofList, String.toList_append, String.toList_append,
        List.append_assoc]
      rfl
    rw [hlocator, Text.cut?_append fun hmem => (hmarks ':' hmem).1 rfl, String.ofList_toList,
      String.ofList_toList]
  rw [behindScheme?, hcut]
  exact if_pos hlower

/-- The bytes of an absolute path. -/
theorem exists_toBytes_of_isAbsolute {path : String} (h : Path.isAbsolute path = true) :
    ∃ bytes, Text.toBytes path = 0x2F :: bytes := by
  rw [Path.isAbsolute, beq_iff_eq, List.head?_eq_some_iff] at h
  obtain ⟨rest, hrest⟩ := h
  refine ⟨Text.encode rest, ?_⟩
  rw [Text.toBytes_eq, hrest, Text.encode_cons_of_lt (by decide)]
  rfl

/-- A `file:` locator with an absolute path that is escaped in any way leads to this path, seen from
whatever directory. -/
theorem toPath_of_escapes {path scheme authority written : String} (directory : String)
    (habsolute : Path.isAbsolute path = true) (hscheme : InAnyCase "file" scheme)
    (hauthority : authority = "//" ∨ authority = "//localhost")
    (hwritten : Escapes written.toList (Text.toBytes path)) :
    toPath directory (scheme ++ ":" ++ (authority ++ written)) = .ok path := by
  obtain ⟨bytes, hbytes⟩ := exists_toBytes_of_isAbsolute habsolute
  have hblank : ∀ c ∈ (scheme ++ ":" ++ (authority ++ written)).toList, Text.isBlank c = false := by
    have hmarks : ∀ c ∈ ":".toList ++ authority.toList, Text.isBlank c = false := by
      have hany : (":".toList ++ authority.toList).any Text.isBlank = false := by
        rcases hauthority with rfl | rfl <;> rfl
      exact fun c hc => Bool.eq_false_iff.2 (List.any_eq_false.1 hany c hc)
    intro c hc
    simp only [String.toList_append, List.mem_append] at hc hmarks
    rcases hc with (hc | hc) | hc | hc
    · exact (hscheme.letters.2 c hc).2
    · exact hmarks c (.inl hc)
    · exact hmarks c (.inr hc)
    · exact hwritten.isBlank_of_mem c hc
  have hne : scheme ++ ":" ++ (authority ++ written) ≠ "" := by
    rw [ne_eq, ← String.toList_inj, String.toList_append, String.toList_append]
    simp
  have hdecode : decode written = .ok path := by
    have hpath : Text.ofBytes? (Text.toBytes path) = some path :=
      Text.ofBytes?_eq_some_iff.2 (Text.toBytes_eq path)
    rw [decode, Text.toBytes_eq written, hwritten.percentDecode_encode, hpath]
  have hjoin : Path.join directory path = path := if_pos habsolute
  rw [toPath, Text.trim_of_forall hblank, if_neg hne, behindScheme?_append hscheme]
  show (decode (withoutAuthority (authority ++ written))).map (Path.join directory) = .ok path
  rw [withoutAuthority_append hauthority (hbytes ▸ hwritten), hdecode]
  exact congrArg Except.ok hjoin

/-- The slash, both bytes of the umlaut, the blank and the percent sign are escaped, the plus sign
is not. -/
theorem toPath_of_escapedPath :
    Path.isAbsolute "/ü %+b" = true ∧ InAnyCase "file" "FiLE" ∧
      Escapes "%2f%c3%bC%20%25+b".toList (Text.toBytes "/ü %+b") ∧
      toPath "/home" ("FiLE" ++ ":" ++ ("//localhost" ++ "%2f%c3%bC%20%25+b")) = .ok "/ü %+b" := by
  have hscheme : InAnyCase "file" "FiLE" :=
    .cons (.inr rfl) (.cons (.inl rfl) (.cons (.inr rfl) (.cons (.inr rfl) .nil)))
  have hbytes : Text.toBytes "/ü %+b"
      = [0x2F, 0xC3, 0xBC, 0x20, 0x25, '+'.toUInt8, 'b'.toUInt8] := by
    decide +kernel
  have hwritten : Escapes "%2f%c3%bC%20%25+b".toList (Text.toBytes "/ü %+b") := by
    rw [hbytes]
    refine .escaped (.inl rfl) (.inl rfl) (.escaped (.inl rfl) (.inl rfl) (.escaped (.inl rfl)
      (.inr rfl) (.escaped (.inl rfl) (.inl rfl) (.escaped (.inl rfl) (.inl rfl) ?_))))
    exact .plain (by decide) rfl (by decide) (.plain (by decide) rfl (by decide) .nil)
  exact ⟨rfl, hscheme, hwritten,
    toPath_of_escapes "/home" rfl hscheme (.inr rfl) hwritten⟩

end XsdCatalog.Locator
