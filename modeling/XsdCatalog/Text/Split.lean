/-!
# Splitting at a marker

A row of characters or bytes is split at the first place where a marker stands.
-/

namespace XsdCatalog.Text

variable {α : Type} [BEq α]

/-- What stands before the first `marker` and what follows it. `seen` holds what was passed so far,
last one first. -/
def splitFirstFrom (marker : List α) (seen : List α) : List α → Option (List α × List α)
  | [] => if marker.isEmpty then some (seen.reverse, []) else none
  | c :: cs =>
    if marker.isPrefixOf (c :: cs) then some (seen.reverse, (c :: cs).drop marker.length)
    else splitFirstFrom marker (c :: seen) cs

/-- What stands before the first `marker` and what follows it, if the marker occurs. -/
def splitFirst? (marker cs : List α) : Option (List α × List α) :=
  splitFirstFrom marker [] cs

/-- Whether the marker occurs. -/
def occursIn (marker : List α) : List α → Bool
  | [] => marker.isEmpty
  | c :: cs => marker.isPrefixOf (c :: cs) || occursIn marker cs

theorem splitFirstFrom_eq_some [LawfulBEq α] {marker seen cs before rest : List α}
    (h : splitFirstFrom marker seen cs = some (before, rest)) :
    before ++ marker ++ rest = seen.reverse ++ cs := by
  induction cs generalizing seen with
  | nil =>
    unfold splitFirstFrom at h
    split at h
    · next he =>
      obtain ⟨rfl, rfl⟩ := Prod.mk.inj (Option.some.inj h)
      simp [List.isEmpty_iff.1 he]
    · cases h
  | cons c cs ih =>
    unfold splitFirstFrom at h
    split at h
    · next hp =>
      obtain ⟨rfl, rfl⟩ := Prod.mk.inj (Option.some.inj h)
      obtain ⟨tail, ht⟩ := List.isPrefixOf_iff_prefix.1 hp
      rw [← ht]
      simp
    · simpa using ih h

theorem splitFirst?_eq_some [LawfulBEq α] {marker cs before rest : List α}
    (h : splitFirst? marker cs = some (before, rest)) : before ++ marker ++ rest = cs := by
  simpa using splitFirstFrom_eq_some h

end XsdCatalog.Text
