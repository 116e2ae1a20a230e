import Mathlib.Data.List.Forall2
import Mathlib.Data.List.Induction
import Mathlib.Data.Nat.Digits.Defs
import Mathlib.Tactic.IntervalCases
import XsdCatalog.Interpretation.Content

/-!
# Bounds of occurrence

A bound is a decimal numeral of a number that fits 32 bits, whatever its number of digits, and the
upper one may also be the word for no bound, in letters of either case. What is neither counts as 1
and is noted at the particle, the lower bound first; nothing else is noted.
-/

namespace XsdCatalog

namespace Text

/-- The decimal digits, each behind as many others as its value is. -/
def decimalDigits : List Char := ['0', '1', '2', '3', '4', '5', '6', '7', '8', '9']

/-- The number that digits are the decimal expansion of. -/
def decimalValue (digits : List Char) : Nat :=
  Nat.ofDigits 10 (digits.reverse.map decimalDigits.idxOf)

/-- A numeral is a row of one or more decimal digits, in front of which a plus sign may stand. -/
inductive IsNumeral : List Char → Nat → Prop
  | plain {digits : List Char} (hne : digits ≠ []) (h : ∀ c ∈ digits, c ∈ decimalDigits) :
      IsNumeral digits (decimalValue digits)
  | signed {digits : List Char} (hne : digits ≠ []) (h : ∀ c ∈ digits, c ∈ decimalDigits) :
      IsNumeral ('+' :: digits) (decimalValue digits)

private theorem mem_decimalDigits_iff {c : Char} : c ∈ decimalDigits ↔ c.isDigit = true := by
  constructor
  · have hdigits : decimalDigits.all Char.isDigit = true := by decide
    exact List.all_eq_true.1 hdigits c
  · intro hc
    obtain ⟨hlow, hhigh⟩ := Char.isDigit_iff_toNat.1 hc
    have hlow : 48 ≤ c.toNat := hlow
    have hhigh : c.toNat ≤ 57 := hhigh
    rw [← Char.ofNat_toNat c]
    interval_cases c.toNat <;> decide

private theorem idxOf_decimalDigits {c : Char} (h : c ∈ decimalDigits) :
    decimalDigits.idxOf c = c.toNat - '0'.toNat := by
  have hdigits : decimalDigits.all (fun c => decimalDigits.idxOf c == c.toNat - '0'.toNat) = true :=
    by decide
  exact eq_of_beq (List.all_eq_true.1 hdigits c h)

private theorem digitsValue_eq_decimalValue {digits : List Char}
    (h : ∀ c ∈ digits, c ∈ decimalDigits) : digitsValue digits = decimalValue digits := by
  induction digits using List.reverseRecOn with
  | nil => rfl
  | append_singleton digits c ih =>
    have hc : c ∈ decimalDigits := h c (by simp)
    have hdigits := ih fun d hd => h d (by simp [hd])
    have hread : digitsValue (digits ++ [c]) = 10 * digitsValue digits + (c.toNat - '0'.toNat) := by
      rw [digitsValue, List.foldl_append]
      rfl
    have hexpansion : decimalValue (digits ++ [c])
        = decimalDigits.idxOf c + 10 * decimalValue digits := by
      rw [decimalValue, List.reverse_append]
      rfl
    rw [hread, hexpansion, idxOf_decimalDigits hc, hdigits, Nat.add_comm]

private theorem digits?_eq_some_iff {cs : List Char} {n : Nat} :
    digits? cs = some n ↔
      cs ≠ [] ∧ (∀ c ∈ cs, c ∈ decimalDigits) ∧ decimalValue cs = n := by
  have hguard : (!cs.isEmpty && cs.all Char.isDigit) = true
      ↔ cs ≠ [] ∧ ∀ c ∈ cs, c ∈ decimalDigits := by
    simp [mem_decimalDigits_iff]
  rw [digits?]
  split
  · next h =>
    obtain ⟨hne, hdigits⟩ := hguard.1 h
    rw [Option.some.injEq, digitsValue_eq_decimalValue hdigits]
    exact ⟨fun hn => ⟨hne, hdigits, hn⟩, fun hn => hn.2.2⟩
  · next h =>
    constructor
    · exact nofun
    · intro hn
      exact absurd (hguard.2 ⟨hn.1, hn.2.1⟩) h

private theorem isNumeral_iff {cs : List Char} {n : Nat} :
    IsNumeral cs n ↔ digits? (if cs.head? = some '+' then cs.tail else cs) = some n := by
  rw [digits?_eq_some_iff]
  constructor
  · intro h
    cases h with
    | plain hne hdigits =>
      have hhead : cs.head? ≠ some '+' := by
        intro hhead
        exact absurd (hdigits '+' (List.mem_of_head? hhead)) (by decide)
      rw [if_neg hhead]
      exact ⟨hne, hdigits, rfl⟩
    | signed hne hdigits => exact ⟨hne, hdigits, rfl⟩
  · rintro ⟨hne, hdigits, rfl⟩
    split at hne
    · next hhead =>
      rw [if_pos hhead] at hdigits ⊢
      obtain ⟨digits, rfl⟩ := List.head?_eq_some_iff.1 hhead
      exact .signed hne hdigits
    · next hhead =>
      rw [if_neg hhead] at hdigits ⊢
      exact .plain hne hdigits

/-- Numerals are told by their value, so a long one cannot wrap around to a small number. -/
theorem numeralBelow?_eq_some_iff {bound : Nat} {s : String} {n : Nat} :
    numeralBelow? bound s = some n ↔ IsNumeral s.toList n ∧ n < bound := by
  rw [isNumeral_iff]
  simp [numeralBelow?, Option.filter_eq_some_iff]

/-- The character is a small letter or its capital. -/
def IsCaseOf (c letter : Char) : Prop :=
  c = letter ∨ c = letter.toUpper

/-- A word is written in letters of either case. -/
def InEitherCase (cs word : List Char) : Prop :=
  List.Forall₂ IsCaseOf cs word

private theorem toLower_of_not_isUpper {c : Char} (h : ¬ c.isUpper = true) : c.toLower = c :=
  dif_neg fun hrange => h (decide_eq_true hrange)

private theorem toUpper_toLower {c : Char} (h : c.isUpper = true) : c.toLower.toUpper = c := by
  obtain ⟨hlow, hhigh⟩ : 'A'.val ≤ c.val ∧ c.val ≤ 'Z'.val := of_decide_eq_true h
  have hlow : 65 ≤ c.toNat := UInt32.le_iff_toNat_le.1 hlow
  have hhigh : c.toNat ≤ 90 := UInt32.le_iff_toNat_le.1 hhigh
  rw [← Char.ofNat_toNat c]
  interval_cases c.toNat <;> decide

private theorem toLower_toUpper {c : Char} (h : c.isLower = true) :
    c.toLower = c ∧ c.toUpper.toLower = c := by
  obtain ⟨hlow, hhigh⟩ := Bool.and_eq_true_iff.1 h
  have hlow : 97 ≤ c.toNat := UInt32.le_iff_toNat_le.1 (of_decide_eq_true hlow)
  have hhigh : c.toNat ≤ 122 := UInt32.le_iff_toNat_le.1 (of_decide_eq_true hhigh)
  rw [← Char.ofNat_toNat c]
  interval_cases c.toNat <;> decide

private theorem toLower_eq_iff {c letter : Char} (h : letter.isLower = true) :
    c.toLower = letter ↔ IsCaseOf c letter := by
  constructor
  · rintro rfl
    by_cases hc : c.isUpper = true
    · exact .inr (toUpper_toLower hc).symm
    · exact .inl (toLower_of_not_isUpper hc).symm
  · rintro (rfl | rfl)
    · exact (toLower_toUpper h).1
    · exact (toLower_toUpper h).2

private theorem map_toLower_eq_iff {cs word : List Char}
    (h : ∀ letter ∈ word, letter.isLower = true) :
    cs.map Char.toLower = word ↔ InEitherCase cs word := by
  rw [InEitherCase]
  induction word generalizing cs with
  | nil => simp
  | cons letter word ih =>
    rw [List.forall_mem_cons] at h
    cases cs with
    | nil => simp
    | cons c cs =>
      rw [List.map_cons, List.cons.injEq, toLower_eq_iff h.1, ih h.2, List.forall₂_cons]

end Text

namespace Written.Particle

/-- The text is the numeral of a number that fits 32 bits. -/
def IsBound (text : String) (n : Nat) : Prop :=
  Text.IsNumeral text.toList n ∧ n < 2 ^ 32

/-- The text is the word for no upper bound. -/
def IsUnbounded (text : String) : Prop :=
  Text.InEitherCase text.toList "unbounded".toList

/-- What a text comes to as a bound, and what is noted. -/
inductive ReadsBound (bound text : String) (source : Option Location) :
    Nat → List Diagnostic → Prop
  | number {n : Nat} (h : IsBound text n) : ReadsBound bound text source n []
  | fault (h : ∀ n, ¬ IsBound text n) :
      ReadsBound bound text source 1
        [.warning ("invalid " ++ bound ++ " '" ++ text ++ "', using 1") source]

/-- What the lower bound is, and what is noted. -/
inductive ReadsMin (source : Option Location) : Option String → Nat → List Diagnostic → Prop
  | absent : ReadsMin source none 1 []
  | written {text : String} {n : Nat} {notes : List Diagnostic}
      (h : ReadsBound "minOccurs" (Text.trim text) source n notes) :
      ReadsMin source (some text) n notes

/-- What the upper bound is, if there is one, and what is noted. -/
inductive ReadsMax (source : Option Location) :
    Option String → Option Nat → List Diagnostic → Prop
  | absent : ReadsMax source none (some 1) []
  | unbounded {text : String} (h : IsUnbounded (Text.trim text)) :
      ReadsMax source (some text) none []
  | written {text : String} {n : Nat} {notes : List Diagnostic}
      (hword : ¬ IsUnbounded (Text.trim text))
      (h : ReadsBound "maxOccurs" (Text.trim text) source n notes) :
      ReadsMax source (some text) (some n) notes

private theorem numeral32?_eq_some_iff {text : String} {n : Nat} :
    Text.numeral32? text = some n ↔ IsBound text n := by
  have hbound : (2 : Nat) ^ 32 = 4294967296 := by norm_num
  rw [IsBound, hbound, Text.numeral32?, Text.numeralBelow?_eq_some_iff]

private theorem isUnbounded_iff {text : String} :
    text.toList.map Char.toLower = "unbounded".toList ↔ IsUnbounded text := by
  have hletters : "unbounded".toList.all Char.isLower = true := rfl
  exact Text.map_toLower_eq_iff (List.all_eq_true.1 hletters)

section

variable {bound text : String} {source : Option Location} {notes : List Diagnostic}

private theorem readsBound_interpretBound (bound text : String) (source : Option Location) :
    let x := interpretBound bound text source
    ReadsBound bound text source x.value x.notes := by
  dsimp only [interpretBound]
  cases hnumber : Text.numeral32? text with
  | some n => exact .number (numeral32?_eq_some_iff.1 hnumber)
  | none =>
    refine .fault fun n h => ?_
    rw [numeral32?_eq_some_iff.2 h] at hnumber
    cases hnumber

private theorem ReadsBound.eq {n : Nat} (h : ReadsBound bound text source n notes) :
    interpretBound bound text source = ⟨n, notes⟩ := by
  cases h with
  | number h =>
    rw [interpretBound, numeral32?_eq_some_iff.2 h]
    rfl
  | fault h =>
    have hnone : Text.numeral32? text = none := by
      rw [Option.eq_none_iff_forall_ne_some]
      exact fun n hn => h n (numeral32?_eq_some_iff.1 hn)
    rw [interpretBound, hnone]
    rfl

private theorem readsMin_interpretMin (source : Option Location) (min : Option String) :
    ReadsMin source min (interpretMin source min).value (interpretMin source min).notes := by
  cases min with
  | none => exact .absent
  | some text => exact .written (readsBound_interpretBound _ _ _)

private theorem ReadsMin.eq {min : Option String} {n : Nat} (h : ReadsMin source min n notes) :
    interpretMin source min = ⟨n, notes⟩ := by
  cases h with
  | absent => rfl
  | written h => exact h.eq

private theorem readsMax_interpretMax (source : Option Location) (max : Option String) :
    ReadsMax source max (interpretMax source max).value (interpretMax source max).notes := by
  cases max with
  | none => exact .absent
  | some text =>
    dsimp only [interpretMax]
    split
    · next hword => exact .unbounded (isUnbounded_iff.1 hword)
    · next hword =>
      rw [Noted.value_map, Noted.notes_map]
      exact .written (fun h => hword (isUnbounded_iff.2 h)) (readsBound_interpretBound _ _ _)

private theorem ReadsMax.eq {max : Option String} {n : Option Nat}
    (h : ReadsMax source max n notes) : interpretMax source max = ⟨n, notes⟩ := by
  cases h with
  | absent => rfl
  | unbounded hword =>
    rw [interpretMax, if_pos (isUnbounded_iff.2 hword)]
    rfl
  | written hword h =>
    rw [interpretMax, if_neg fun hw => hword (isUnbounded_iff.1 hw), h.eq]
    rfl

end

/-- How often a particle may occur, and what is noted of its bounds: the two bounds are read apart
from each other, and what is noted of the lower one comes first. -/
theorem occurs_of_words (min max : Option String) (source : Option Location) (occurs : Occurs)
    (notes : List Diagnostic) :
    interpretOccurs min max source = ⟨occurs, notes⟩ ↔
      ∃ low high, ReadsMin source min occurs.min low ∧ ReadsMax source max occurs.max high ∧
        notes = low ++ high := by
  constructor
  · intro h
    have hvalue := congrArg Noted.value h
    have hnotes := congrArg Noted.notes h
    simp only [interpretOccurs, Noted.notes_bind, Noted.notes_pure, List.append_nil] at hnotes
    subst hvalue
    exact ⟨_, _, readsMin_interpretMin source min, readsMax_interpretMax source max, hnotes.symm⟩
  · rintro ⟨low, high, hmin, hmax, rfl⟩
    apply Noted.eq_of_value_of_notes
    · simp [interpretOccurs, hmin.eq, hmax.eq]
    · simp [interpretOccurs, hmin.eq, hmax.eq]

end Written.Particle

end XsdCatalog
