import XsdCatalog.Proofs.LineEnds

/-!
# The number of lines

Where a line ends is read off the text: behind a line feed, and behind a carriage return that no
line feed follows. Normalising leaves one line feed for each such place, however carriage returns
and line feeds follow each other, and nothing more to do.
-/

namespace XsdCatalog.Text

/-- A line ends behind the character at place `i`. The carriage return of a pair ends none. -/
def EndsLine (cs : List Char) (i : Nat) : Prop :=
  cs[i]? = some '\n' ∨ cs[i]? = some '\r' ∧ cs[i + 1]? ≠ some '\n'

instance (cs : List Char) (i : Nat) : Decidable (EndsLine cs i) :=
  inferInstanceAs (Decidable (_ ∨ _))

/-- The number of line ends of a text. -/
def lineEnds (cs : List Char) : Nat :=
  (List.range cs.length).countP fun i => EndsLine cs i

private theorem lineEnds_cons (c : Char) (cs : List Char) :
    lineEnds (c :: cs) = lineEnds cs + if EndsLine (c :: cs) 0 then 1 else 0 := by
  have hshift : ((fun i => decide (EndsLine (c :: cs) i)) ∘ Nat.succ)
      = fun i => decide (EndsLine cs i) := rfl
  rw [lineEnds, List.length_cons, List.range_succ_eq_map, List.countP_cons, List.countP_map,
    hshift, lineEnds]
  simp only [decide_eq_true_eq]

private theorem count_unixLines (cs : List Char) : (unixLines cs).count '\n' = lineEnds cs := by
  fun_induction unixLines cs with
  | case1 => rfl
  | case2 cs ih =>
    have hreturn : ¬ EndsLine ('\r' :: '\n' :: cs) 0 := by simp [EndsLine]
    have hfeed : EndsLine ('\n' :: cs) 0 := by simp [EndsLine]
    rw [List.count_cons_self, ih, lineEnds_cons, if_neg hreturn, lineEnds_cons, if_pos hfeed]
  | case3 c cs hpair ih =>
    rw [lineEnds_cons, ← ih]
    by_cases hc : c = '\r'
    · -- The carriage return stands alone, or the pair would have been taken together.
      have hnext : cs.head? ≠ some '\n' := by
        intro hnext
        obtain ⟨ds, rfl⟩ := List.head?_eq_some_iff.1 hnext
        exact hpair ds hc rfl
      have hends : EndsLine (c :: cs) 0 := by
        apply Or.inr
        rw [List.head?_eq_getElem?] at hnext
        exact ⟨congrArg some hc, hnext⟩
      rw [if_pos hc, if_pos hends, List.count_cons_self]
    · have hends : EndsLine (c :: cs) 0 ↔ c = '\n' := by simp [EndsLine, hc]
      rw [if_neg hc, List.count_cons]
      simp only [hends, beq_iff_eq]

/-- Normalising a text is one pass over it that leaves a line feed for each of its line ends and no
carriage return. What is normalised stays as it is. -/
theorem normalizeLineEnds_one_pass (s : String) :
    (normalizeLineEnds s).toList = unixLines s.toList ∧ '\r' ∉ (normalizeLineEnds s).toList ∧
      normalizeLineEnds (normalizeLineEnds s) = normalizeLineEnds s ∧
      (normalizeLineEnds s).toList.count '\n' = lineEnds s.toList := by
  have hpass : (normalizeLineEnds s).toList = unixLines s.toList := by
    rw [normalizeLineEnds_eq, String.toList_ofList]
  have hreturn : '\r' ∉ (normalizeLineEnds s).toList := by
    rw [hpass]
    exact not_mem_unixLines s.toList
  refine ⟨hpass, hreturn, ?_, ?_⟩
  · rw [normalizeLineEnds_eq (normalizeLineEnds s), unixLines_of_not_mem hreturn,
      String.ofList_toList]
  · rw [hpass, count_unixLines]

end XsdCatalog.Text
