import XsdCatalog.Proofs.Splitting
import XsdCatalog.Text.LineEnding

/-!
# Normalised line ends

Normalising touches nothing but line ends: what holds no carriage return stays as it is, runs apart
from each other are normalised apart, and markers without line ends stand where they stood.
-/

namespace XsdCatalog.Text

theorem unixLines_cons_of_ne {c : Char} (hc : c ≠ '\r') (cs : List Char) :
    unixLines (c :: cs) = c :: unixLines cs := by
  rw [unixLines, if_neg hc]
  exact fun _ h _ => hc h

theorem unixLines_return {cs : List Char} (h : cs.head? ≠ some '\n') :
    unixLines ('\r' :: cs) = '\n' :: unixLines cs := by
  rw [unixLines, if_pos rfl]
  rintro ds - rfl
  exact h rfl

theorem unixLines_of_not_mem {cs : List Char} (h : '\r' ∉ cs) : unixLines cs = cs := by
  induction cs with
  | nil => rfl
  | cons c cs ih =>
    rw [List.mem_cons, not_or] at h
    rw [unixLines_cons_of_ne (Ne.symm h.1), ih h.2]

theorem not_mem_unixLines (cs : List Char) : '\r' ∉ unixLines cs := by
  fun_induction unixLines cs with
  | case1 => exact List.not_mem_nil
  | case2 cs ih => exact List.not_mem_cons_of_ne_of_not_mem (by decide) ih
  | case3 c cs _ ih =>
    refine List.not_mem_cons_of_ne_of_not_mem ?_ ih
    split
    · decide
    · next hc => exact Ne.symm hc

/-- Characters that are no line ends stay, and no other characters come in. -/
theorem mem_unixLines {c : Char} {cs : List Char} (h : c ∈ unixLines cs) :
    c ∈ cs ∨ c = '\n' := by
  fun_induction unixLines cs with
  | case1 => cases h
  | case2 cs ih =>
    rcases List.mem_cons.1 h with rfl | h
    · exact .inr rfl
    · exact (ih h).imp_left fun h => List.mem_cons_of_mem _ (List.mem_cons_of_mem _ h)
  | case3 d cs _ ih =>
    rcases List.mem_cons.1 h with h | h
    · split at h
      · exact .inr h
      · exact .inl (h ▸ List.mem_cons_self)
    · exact (ih h).imp_left (List.mem_cons_of_mem _)

theorem unixLines_append {cs ds : List Char}
    (h : cs.getLast? ≠ some '\r' ∨ ds.head? ≠ some '\n') :
    unixLines (cs ++ ds) = unixLines cs ++ unixLines ds := by
  fun_induction unixLines cs with
  | case1 => rfl
  | case2 cs ih =>
    have h : cs.getLast? ≠ some '\r' ∨ ds.head? ≠ some '\n' := by
      refine h.imp_left fun h hl => h ?_
      cases cs with
      | nil => cases hl
      | cons c cs => exact hl
    rw [List.cons_append, List.cons_append, unixLines, ih h, List.cons_append]
  | case3 c cs hn ih =>
    cases cs with
    | nil =>
      by_cases hc : c = '\r'
      · subst hc
        have hd : ds.head? ≠ some '\n' := h.resolve_left (by simp)
        exact unixLines_return hd
      · rw [if_neg hc]
        exact unixLines_cons_of_ne hc ds
    | cons d cs =>
      have h := ih h
      rw [List.cons_append, List.cons_append, unixLines, ← List.cons_append, h, List.cons_append]
      rintro es hc hd
      injection hd with hd _
      exact hn cs hc (hd ▸ rfl)

private theorem replaceReturns_joinPairsOnto (done cs : List Char) :
    replaceReturns (joinPairsOnto done cs) = replaceReturns done.reverse ++ unixLines cs := by
  fun_induction joinPairsOnto done cs with
  | case1 done => simp [unixLines]
  | case2 done c => simp [unixLines, replaceReturns]
  | case3 done c d cs h ih =>
    obtain ⟨rfl, rfl⟩ := h
    rw [ih, unixLines]
    simp [replaceReturns]
  | case4 done c d cs h ih =>
    have hs : unixLines (c :: d :: cs) = (if c = '\r' then '\n' else c) :: unixLines (d :: cs) := by
      rw [unixLines]
      rintro ds hc hd
      injection hd with hd _
      exact h ⟨hc, hd⟩
    rw [ih, hs]
    simp [replaceReturns]

theorem normalizeLineEnds_eq (s : String) :
    normalizeLineEnds s = String.ofList (unixLines s.toList) := by
  rw [normalizeLineEnds]
  split
  · rw [replaceReturns_joinPairsOnto]
    rfl
  · next h =>
    rw [List.contains_iff_mem] at h
    rw [unixLines_of_not_mem h, String.ofList_toList]

/-- A word without line ends stands at the same place as before. -/
theorem prefix_of_prefix_unixLines {m cs rest : List Char} (hm : '\n' ∉ m)
    (h : m <+: unixLines cs ++ rest) : m <+: cs ++ rest := by
  induction m generalizing cs with
  | nil => exact List.nil_prefix
  | cons a m ih =>
    rw [List.mem_cons, not_or] at hm
    cases cs with
    | nil => exact h
    | cons c cs =>
      by_cases hc : c = '\r'
      · subst hc
        have hhead : ∃ ds, unixLines ('\r' :: cs) = '\n' :: ds := by
          by_cases hd : cs.head? = some '\n'
          · obtain ⟨ds, rfl⟩ := List.head?_eq_some_iff.1 hd
            exact ⟨_, by rw [unixLines]⟩
          · exact ⟨_, unixLines_return hd⟩
        obtain ⟨ds, hds⟩ := hhead
        rw [hds, List.cons_append, List.cons_prefix_cons] at h
        exact absurd h.1.symm hm.1
      · rw [unixLines_cons_of_ne hc, List.cons_append, List.cons_prefix_cons] at h
        rw [List.cons_append, List.cons_prefix_cons]
        exact ⟨h.1, ih hm.2 h.2⟩

theorem infix_of_infix_unixLines {m cs : List Char} (hm : '\n' ∉ m) (h : m <:+: unixLines cs) :
    m <:+: cs := by
  have hstart {cs : List Char} (h : m <+: unixLines cs) : m <+: cs := by
    have h : m <+: unixLines cs ++ [] := by rwa [List.append_nil]
    simpa only [List.append_nil] using prefix_of_prefix_unixLines hm h
  fun_induction unixLines cs with
  | case1 => exact h
  | case2 cs ih =>
    rcases List.infix_cons_iff.1 h with h | h
    · have hm' : m = [] := by
        cases m with
        | nil => rfl
        | cons a m => exact absurd (List.cons_prefix_cons.1 h).1 fun ha => hm (ha ▸ List.mem_cons_self)
      exact hm' ▸ List.nil_infix
    · exact (ih h).trans ⟨['\r', '\n'], [], by simp⟩
  | case3 c cs hn ih =>
    rcases List.infix_cons_iff.1 h with h | h
    · refine (hstart ?_).isInfix
      rw [unixLines]
      · exact h
      · exact hn
    · exact List.infix_cons (ih h)

theorem Closes.unixLines {m cs : List Char} (hm : '\n' ∉ m) (hne : m ≠ []) (h : Closes m cs) :
    Closes m (Text.unixLines cs) := by
  fun_induction Text.unixLines cs with
  | case1 => trivial
  | case2 cs ih =>
    refine ⟨fun hp => ?_, ih h.2.2⟩
    obtain ⟨a, m, rfl⟩ := List.exists_cons_of_ne_nil hne
    exact hm ((List.cons_prefix_cons.1 hp).1 ▸ List.mem_cons_self)
  | case3 c cs hn ih =>
    refine ⟨fun hp => h.1 (prefix_of_prefix_unixLines hm ?_), ih h.2⟩
    rw [Text.unixLines]
    · exact hp
    · exact hn

end XsdCatalog.Text
