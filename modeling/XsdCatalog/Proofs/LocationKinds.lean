import XsdCatalog.Collection.Target
import XsdCatalog.Proofs.Splitting

/-!
# Kinds of locations

A location is a URI if it has a scheme in front of its first colon; a letter alone is the name of a
drive. It is relative if it is neither this nor absolute nor blank. A relative location without a
colon is seen from the directory of the document that it stands in, and one with a colon from the
working directory.
-/

namespace XsdCatalog

namespace Locator

/-- A letter, and then letters, digits, plus signs, hyphens and dots. -/
def IsScheme : List Char → Prop
  | [] => False
  | c :: cs => c.isAlpha = true ∧ ∀ d ∈ cs, d.isAlphanum = true ∨ d = '+' ∨ d = '-' ∨ d = '.'

instance : DecidablePred IsScheme
  | [] => inferInstanceAs (Decidable False)
  -- not by an instance for finite types, which would try all characters
  | _ :: cs => @instDecidableAnd _ _ _
      (cs.decidableBAll fun d => d.isAlphanum = true ∨ d = '+' ∨ d = '-' ∨ d = '.')

/-- A scheme stands in front of the first colon. -/
def BeginsWithScheme (text : String) : Prop :=
  ':' ∈ text.toList ∧ IsScheme (text.toList.takeWhile (· != ':'))
deriving Decidable

private theorem isAlpha_of_toLower {c : Char} (h : c.toLower.isAlpha = true) :
    c.isAlpha = true := by
  by_cases hupper : c.isUpper = true
  · show (c.isUpper || c.isLower) = true
    rw [hupper, Bool.true_or]
  · have hlower : c.toLower = c := dif_neg fun hrange => hupper (decide_eq_true hrange)
    rwa [hlower] at h

private theorem isScheme_of_letters {cs : List Char} (hne : cs ≠ [])
    (h : ∀ c ∈ cs, c.isAlpha = true) : IsScheme cs := by
  cases cs with
  | nil => exact absurd rfl hne
  | cons c cs =>
    rw [List.forall_mem_cons] at h
    exact ⟨h.1, fun d hd => .inl (by simp [Char.isAlphanum, h.2 d hd])⟩

private theorem beginsWithScheme_of_file {text rest : String}
    (h : behindScheme? "file" text = some rest) : BeginsWithScheme text := by
  rw [behindScheme?] at h
  split at h
  · next head behind hcut =>
    split at h
    · next hlower =>
      obtain ⟨hmark, hhead⟩ := Text.front_of_cut? hcut
      refine ⟨hmark, hhead ▸ isScheme_of_letters ?_ fun c hc => isAlpha_of_toLower ?_⟩
      · intro hnil
        rw [hnil] at hlower
        exact absurd hlower (by decide)
      · have hmem : c.toLower ∈ "file".toList.map Char.toLower :=
          hlower ▸ List.mem_map_of_mem hc
        have hletters : ("file".toList.map Char.toLower).all Char.isAlpha = true := rfl
        exact List.all_eq_true.1 hletters _ hmem
    · cases h
  · cases h

private theorem beginsWithScheme_of_hasScheme {text : String} (h : hasScheme text = true) :
    BeginsWithScheme text := by
  rw [hasScheme] at h
  split at h
  · next head behind hcut =>
    obtain ⟨hmark, hhead⟩ := Text.front_of_cut? hcut
    refine ⟨hmark, ?_⟩
    rw [← hhead]
    split at h
    · next c d cs hcs =>
      rw [hcs]
      simp only [Bool.and_eq_true, List.all_eq_true, Bool.or_eq_true, beq_iff_eq, or_assoc] at h
      exact h
    · cases h
  · cases h

end Locator

namespace Collection

open Locator (BeginsWithScheme)

/-- A location that is not blank, does not begin with a slash and has no scheme. -/
structure IsRelative (location : String) : Prop where
  not_blank : Text.trim location ≠ ""
  not_absolute : Path.isAbsolute (Text.trim location) = false
  no_scheme : ¬ BeginsWithScheme (Text.trim location)

private theorem toPath_of_isRelative (directory : String) {location : String}
    (h : IsRelative location) : Locator.toPath directory (Text.trim location)
      = .ok (Path.join directory (Text.trim location)) := by
  have hfile : Locator.behindScheme? "file" (Text.trim location) = none := by
    rw [Option.eq_none_iff_forall_ne_some]
    exact fun rest hrest => h.no_scheme (Locator.beginsWithScheme_of_file hrest)
  have hscheme : ¬ Locator.hasScheme (Text.trim location) = true := fun hscheme =>
    h.no_scheme (Locator.beginsWithScheme_of_hasScheme hscheme)
  simp only [Locator.toPath, Text.trim_trim, if_neg h.not_blank, hfile, if_neg hscheme]

/-- The directory that a relative location is seen from depends on the colon only. -/
theorem resolve_eq_join (working base : String) {location : String} (h : IsRelative location) :
    resolve working base location
      = .ok (Path.join (if ':' ∈ (Text.trim location).toList then working else base)
          (Text.trim location)) := by
  simp only [resolve, List.contains_eq_mem, decide_eq_true_eq]
  split
  · exact toPath_of_isRelative working h
  · rw [if_neg h.not_blank]

/-- A relative path is spelled differently behind no directory and behind the root. -/
theorem join_root_ne {path : String} (h : Path.isAbsolute path = false) :
    Path.join "" path ≠ Path.join "/" path := by
  intro he
  have hlength := congrArg String.length he
  simp [Path.join, h] at hlength

/-- A relative location is seen from the directory of the document that it stands in, whatever the
working directory, exactly if it has no colon. With a colon it is seen from the working directory.
Every reference with this location leads there. -/
theorem resolve_of_relative (base : String) {location : String} (h : IsRelative location) :
    ((∀ working, resolve working base location = .ok (Path.join base (Text.trim location))) ↔
      ':' ∉ (Text.trim location).toList) ∧
    (':' ∈ (Text.trim location).toList → ∀ working,
      resolve working base location = .ok (Path.join working (Text.trim location))) ∧
    ∀ working, ∀ r : Written.Reference, r.location? = some location →
      ∃ path, resolve working base location = .ok path ∧
        targetOf working base r = some (.ok { path, redefines := r.isRedefinition }) := by
  refine ⟨⟨fun hall hcolon => ?_, fun hcolon working => ?_⟩, fun hcolon working => ?_,
    fun working r hr => ⟨_, resolve_eq_join working base h, ?_⟩⟩
  · have hjoin (working : String) :
        Path.join working (Text.trim location) = Path.join base (Text.trim location) := by
      have hworking := resolve_eq_join working base h
      rw [hall, if_pos hcolon] at hworking
      exact (Except.ok.inj hworking).symm
    exact join_root_ne h.not_absolute ((hjoin "").trans (hjoin "/").symm)
  · rw [resolve_eq_join working base h, if_neg hcolon]
  · rw [resolve_eq_join working base h, if_pos hcolon]
  · rw [targetOf, hr, Option.map_some, resolve_eq_join working base h]

private theorem isRelative_of_inner_colon : IsRelative "e/f:g.xsd" :=
  ⟨by decide, by decide, by decide⟩

/-- A location with blanks and an umlaut, and one with a colon behind a slash. -/
theorem resolve_of_relative_locations :
    (IsRelative " ü b.xsd" ∧ resolve "/w" "d" " ü b.xsd" = .ok "d/ü b.xsd") ∧
      IsRelative "e/f:g.xsd" ∧ resolve "/w" "d" "e/f:g.xsd" = .ok "/w/e/f:g.xsd" := by
  have hplain : IsRelative " ü b.xsd" := ⟨by decide, by decide, by decide⟩
  have hresolve := (resolve_of_relative "d" hplain).1.2 (by decide) "/w"
  exact ⟨⟨hplain, hresolve⟩, isRelative_of_inner_colon,
    (resolve_of_relative "d" isRelative_of_inner_colon).2.1 (by decide) "/w"⟩

/-- The file `f:g.xsd` in a directory `e` is not looked for behind the directory of the document. -/
theorem resolve_ne_join :
    IsRelative "e/f:g.xsd" ∧
      resolve "/w" "d" "e/f:g.xsd" ≠ .ok (Path.join "d" (Text.trim "e/f:g.xsd")) :=
  ⟨isRelative_of_inner_colon, by decide⟩

end Collection

end XsdCatalog
