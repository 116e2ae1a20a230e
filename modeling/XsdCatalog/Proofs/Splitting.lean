import Mathlib.Data.List.TakeWhile
import XsdCatalog.Text.Blank
import XsdCatalog.Text.Split

/-!
# Where runs end

A run of what has a property ends where something without it follows. A body closes at a marker if
the marker put behind it stands nowhere earlier. Splitting at the first marker gives such a body,
and any text that begins with such a body and the marker is split there. A trimmed text has no blanks
at its ends, and a text is cut where the run without the mark ends.
-/

namespace XsdCatalog.Text

variable {α : Type}

/-- Nothing more of a run follows. -/
def Ends (p : α → Bool) (rest : List α) : Prop :=
  rest.head?.any p = false

theorem ends_nil (p : α → Bool) : Ends p [] := rfl

theorem Ends.append {p : α → Bool} {s : List α} (h : Ends p s) (hs : s ≠ []) (rest : List α) :
    Ends p (s ++ rest) := by
  cases s with
  | nil => exact absurd rfl hs
  | cons c s => exact h

theorem Ends.of_append {p : α → Bool} {s rest : List α} (h : Ends p (s ++ rest)) (hs : s ≠ []) :
    Ends p s := by
  cases s with
  | nil => exact absurd rfl hs
  | cons c s => exact h

theorem ends_of_forall {p : α → Bool} {rest : List α} (h : ∀ x ∈ rest, p x = false) :
    Ends p rest := by
  cases rest with
  | nil => rfl
  | cons c rest => exact h c List.mem_cons_self

theorem ends_dropWhile (p : α → Bool) (cs : List α) : Ends p (cs.dropWhile p) := by
  induction cs with
  | nil => rfl
  | cons c cs ih =>
    rw [List.dropWhile_cons]
    split
    · exact ih
    · next h => exact Bool.eq_false_iff.2 h

theorem Ends.takeWhile {p : α → Bool} {rest : List α} (h : Ends p rest) :
    rest.takeWhile p = [] := by
  cases rest with
  | nil => rfl
  | cons c rest => exact List.takeWhile_cons_of_neg (Bool.eq_false_iff.1 h)

theorem Ends.dropWhile {p : α → Bool} {rest : List α} (h : Ends p rest) :
    rest.dropWhile p = rest := by
  cases rest with
  | nil => rfl
  | cons c rest => exact List.dropWhile_cons_of_neg (Bool.eq_false_iff.1 h)

theorem takeWhile_append {p : α → Bool} {s rest : List α} (hs : ∀ x ∈ s, p x = true)
    (hr : Ends p rest) : (s ++ rest).takeWhile p = s := by
  rw [List.takeWhile_append_of_pos hs, hr.takeWhile, List.append_nil]

theorem dropWhile_append {p : α → Bool} {s rest : List α} (hs : ∀ x ∈ s, p x = true)
    (hr : Ends p rest) : (s ++ rest).dropWhile p = rest := by
  rw [List.dropWhile_append_of_pos hs, hr.dropWhile]

/-- The marker begins nowhere inside the body, not even where it runs on into the marker behind. -/
def Closes (marker : List α) : List α → Prop
  | [] => True
  | c :: cs => ¬ marker <+: c :: cs ++ marker ∧ Closes marker cs

theorem Closes.append_of_not_mem {a : α} {m s body : List α} (hs : a ∉ s)
    (h : Closes (a :: m) body) : Closes (a :: m) (s ++ body) := by
  induction s with
  | nil => exact h
  | cons c s ih =>
    rw [List.mem_cons, not_or] at hs
    exact ⟨fun hp => hs.1 (List.cons_prefix_cons.1 hp).1, ih hs.2⟩

/-- A text that holds the marker splits at the first one. -/
theorem exists_closes {m cs : List α} (h : m <:+: cs) :
    ∃ body rest, cs = body ++ (m ++ rest) ∧ Closes m body := by
  induction cs with
  | nil =>
    obtain rfl := List.infix_nil.1 h
    exact ⟨[], [], rfl, trivial⟩
  | cons c cs ih =>
    by_cases hm : m <+: c :: cs
    · obtain ⟨rest, hr⟩ := hm
      exact ⟨[], rest, hr.symm, trivial⟩
    · obtain ⟨body, rest, rfl, hc⟩ := ih ((List.infix_cons_iff.1 h).resolve_left hm)
      refine ⟨c :: body, rest, rfl, fun hp => hm ?_, hc⟩
      have happ : c :: (body ++ (m ++ rest)) = c :: body ++ m ++ rest := by simp
      exact happ ▸ hp.trans (List.prefix_append _ rest)

theorem prefix_append_iff {m l : List α} (h : m.length ≤ l.length) (r : List α) :
    m <+: l ++ r ↔ m <+: l :=
  ⟨fun hm => List.prefix_of_prefix_length_le hm (List.prefix_append l r) h,
    fun hm => hm.trans (List.prefix_append l r)⟩

variable [BEq α] [LawfulBEq α] {marker body rest : List α}

theorem splitFirst?_of_closes (hm : marker ≠ []) (h : Closes marker body) (rest : List α) :
    splitFirst? marker (body ++ marker ++ rest) = some (body, rest) := by
  suffices hs : ∀ seen : List α, splitFirstFrom marker seen (body ++ marker ++ rest)
      = some (seen.reverse ++ body, rest) from hs []
  induction body with
  | nil =>
    intro seen
    obtain ⟨m, ms, rfl⟩ := List.exists_cons_of_ne_nil hm
    have hp : (m :: ms).isPrefixOf (m :: (ms ++ rest)) = true :=
      List.isPrefixOf_iff_prefix.2 (List.prefix_append (m :: ms) rest)
    rw [List.nil_append, List.cons_append, splitFirstFrom, if_pos hp]
    simp
  | cons c cs ih =>
    intro seen
    have hp : ¬ marker.isPrefixOf (c :: (cs ++ marker ++ rest)) = true := by
      rw [List.isPrefixOf_iff_prefix]
      have hlen : marker.length ≤ (c :: cs ++ marker).length := by
        rw [List.length_append]
        exact Nat.le_add_left _ _
      exact fun hp => h.1 ((prefix_append_iff hlen rest).1 (by simpa using hp))
    rw [List.cons_append, List.cons_append, splitFirstFrom, if_neg hp, ih h.2]
    simp

theorem closes_of_splitFirst? {cs : List α} (h : splitFirst? marker cs = some (body, rest)) :
    Closes marker body := by
  suffices hs : ∀ seen : List α, splitFirstFrom marker seen cs = some (body, rest) →
      ∃ body', body = seen.reverse ++ body' ∧ Closes marker body' by
    obtain ⟨body', hb, hc⟩ := hs [] h
    rw [hb]
    exact hc
  clear h
  induction cs with
  | nil =>
    intro seen h
    rw [splitFirstFrom] at h
    split at h
    · obtain ⟨rfl, rfl⟩ := Prod.mk.inj (Option.some.inj h)
      exact ⟨[], (List.append_nil _).symm, trivial⟩
    · cases h
  | cons c cs ih =>
    intro seen h
    have hcs : body ++ marker ++ rest = seen.reverse ++ c :: cs := splitFirstFrom_eq_some h
    rw [splitFirstFrom] at h
    split at h
    · obtain ⟨rfl, rfl⟩ := Prod.mk.inj (Option.some.inj h)
      exact ⟨[], (List.append_nil _).symm, trivial⟩
    · next hp =>
      obtain ⟨body', hb, hc⟩ := ih _ h
      refine ⟨c :: body', by simpa using hb, fun hp' => hp ?_, hc⟩
      rw [List.isPrefixOf_iff_prefix]
      have he : c :: body' ++ marker ++ rest = c :: cs := by
        rw [hb] at hcs
        simpa using hcs
      exact he ▸ hp'.trans (List.prefix_append _ rest)

theorem occursIn_iff {cs : List α} : occursIn marker cs = true ↔ marker <:+: cs := by
  induction cs with
  | nil => rw [occursIn, List.isEmpty_iff, List.infix_nil]
  | cons c cs ih =>
    rw [occursIn, Bool.or_eq_true, ih, List.isPrefixOf_iff_prefix, List.infix_cons_iff]

theorem trim_of_forall {s : String} (h : ∀ c ∈ s.toList, isBlank c = false) : trim s = s := by
  have hreverse : ∀ c ∈ s.toList.reverse, isBlank c = false := fun c hc =>
    h c (List.mem_reverse.1 hc)
  rw [trim, trimChars, (ends_of_forall h).dropWhile, (ends_of_forall hreverse).dropWhile,
    List.reverse_reverse, String.ofList_toList]

private theorem ends_trimChars (cs : List Char) : Ends isBlank (trimChars cs) := by
  have hfront : Ends isBlank (cs.dropWhile isBlank) := ends_dropWhile isBlank cs
  have hsplit : trimChars cs ++ ((cs.dropWhile isBlank).reverse.takeWhile isBlank).reverse
      = cs.dropWhile isBlank := by
    rw [trimChars, ← List.reverse_append, List.takeWhile_append_dropWhile, List.reverse_reverse]
  by_cases hempty : trimChars cs = []
  · rw [hempty]
    exact ends_nil isBlank
  · rw [← hsplit] at hfront
    exact hfront.of_append hempty

private theorem trimChars_trimChars (cs : List Char) : trimChars (trimChars cs) = trimChars cs := by
  rw [trimChars, (ends_trimChars cs).dropWhile]
  rw [trimChars, List.reverse_reverse, (ends_dropWhile isBlank _).dropWhile]

theorem trim_trim (s : String) : trim (trim s) = trim s := by
  rw [trim, trim, String.toList_ofList, trimChars_trimChars]

/-- A text is cut at the first mark in it. -/
theorem cut?_append {mark : Char} {before : List Char} (h : mark ∉ before) (rest : List Char) :
    cut? mark (String.ofList (before ++ mark :: rest))
      = some (String.ofList before, String.ofList rest) := by
  have hbefore : ∀ c ∈ before, (c != mark) = true := by
    rintro c hc
    exact bne_iff_ne.2 fun he => h (he ▸ hc)
  have hmark : Ends (· != mark) (mark :: rest) := by
    show (mark != mark) = false
    exact bne_self_eq_false mark
  rw [cut?, String.toList_ofList, dropWhile_append hbefore hmark, takeWhile_append hbefore hmark]

/-- A text that is cut has the mark, and its front is cut off in front of the first one. -/
theorem front_of_cut? {mark : Char} {s front rest : String} (h : cut? mark s = some (front, rest)) :
    mark ∈ s.toList ∧ front.toList = s.toList.takeWhile (· != mark) := by
  rw [cut?] at h
  split at h
  · cases h
  · next c cs hdrop =>
    obtain ⟨rfl, -⟩ := Prod.mk.inj (Option.some.inj h)
    have hc : (c != mark) = false := by
      have hends := ends_dropWhile (· != mark) s.toList
      rwa [hdrop] at hends
    have hmem : c ∈ s.toList := (List.dropWhile_sublist _).subset (hdrop ▸ List.mem_cons_self)
    exact ⟨bne_eq_false_iff_eq.1 hc ▸ hmem, String.toList_ofList⟩

end XsdCatalog.Text
