import Mathlib.Data.List.Sort
import XsdCatalog.Proofs.CacheExpiry

/-!
# What an insertion drops

To make room, a cache drops the entries that were not read for the longest time, and no more of them
than it has to. Where no two entries were read at one time, there is one order to drop them in, and
what an insertion drops is the shortest front of it that leaves room for the new entry.
-/

namespace XsdCatalog.TextCache

/-- The sizes of entries together. -/
def totalOf (es : List CacheEntry) : Nat :=
  (es.map (·.size)).sum

/-- The entries stand in the order of their last reads, which were at different times. -/
def ByLastRead (es : List CacheEntry) : Prop :=
  es.Pairwise fun e f => e.lastRead < f.lastRead

/-- Of a row of entries the front is dropped to make room for `size` bytes: what is kept leaves room
enough, and a shorter front would not do. -/
structure ShortestDrop (limits : CacheLimits) (size : Nat) (dropped kept : List CacheEntry) :
    Prop where
  fits : totalOf kept + size ≤ limits.total
  needed : ∀ front back, dropped ++ kept = front ++ back →
    totalOf back + size ≤ limits.total → dropped.length ≤ front.length

/-- The entries with other keys that have not expired. -/
def others (c : TextCache) (key : String) (now : Nat) : List CacheEntry :=
  (c.fresh now).filter (·.key != key)

variable {c : TextCache} {limits : CacheLimits} {size : Nat}

private theorem totalOf_perm {es fs : List CacheEntry} (h : es.Perm fs) : totalOf es = totalOf fs :=
  List.Perm.sum_nat (h.map _)

private theorem ShortestDrop.nothing {kept : List CacheEntry}
    (h : totalOf kept + size ≤ limits.total) : ShortestDrop limits size [] kept where
  fits := h
  needed _ _ _ _ := Nat.zero_le _

/-- Where a whole row leaves too little room, its first entry is dropped as well. -/
theorem ShortestDrop.cons {e : CacheEntry} {dropped kept : List CacheEntry}
    (h : ShortestDrop limits size dropped kept)
    (hfull : ¬ totalOf (e :: (dropped ++ kept)) + size ≤ limits.total) :
    ShortestDrop limits size (e :: dropped) kept where
  fits := h.fits
  needed := by
    intro front back hsplit hroom
    cases front with
    | nil =>
      rw [List.nil_append, List.cons_append] at hsplit
      rw [hsplit] at hfull
      exact absurd hroom hfull
    | cons f front =>
      rw [List.cons_append, List.cons_append] at hsplit
      have hshort := h.needed front back (List.cons.inj hsplit).2 hroom
      simp only [List.length_cons]
      omega

/-- Entries that were read at different times can be put in the order of these times. -/
theorem exists_byLastRead {es : List CacheEntry} (h : (es.map (·.lastRead)).Nodup) :
    ∃ row, row.Perm es ∧ ByLastRead row := by
  let le : CacheEntry → CacheEntry → Prop := fun e f => e.lastRead ≤ f.lastRead
  have : Std.Total le := ⟨fun e f => Nat.le_total _ _⟩
  have : IsTrans CacheEntry le := ⟨fun _ _ _ => Nat.le_trans⟩
  have hperm := List.perm_insertionSort le es
  have hsorted : (es.insertionSort le).Pairwise le := List.pairwise_insertionSort le es
  have hdistinct : (es.insertionSort le).Pairwise fun e f => e.lastRead ≠ f.lastRead :=
    List.pairwise_map.1 ((hperm.map _).nodup_iff.2 h)
  exact ⟨es.insertionSort le, hperm,
    (hsorted.and hdistinct).imp fun hef => Nat.lt_of_le_of_ne hef.1 hef.2⟩

/-- No entry was read before the one that was not read for the longest time. -/
theorem lastRead_oldest_le {es : List CacheEntry} {e : CacheEntry}
    (h : CacheEntry.oldest es = some e) : ∀ f ∈ es, e.lastRead ≤ f.lastRead := by
  induction es generalizing e with
  | nil => cases h
  | cons a es ih =>
    intro f hf
    rw [CacheEntry.oldest] at h
    split at h
    · next hnone =>
      cases h
      rw [oldest_eq_none hnone, List.mem_singleton] at hf
      rw [hf]
    · next o ho =>
      have hrest := ih ho
      rcases List.mem_cons.1 hf with rfl | hf
      · split at h <;> cases h
        · next hlt => exact Nat.le_of_lt hlt
        · exact Nat.le_refl _
      · have hle := hrest f hf
        split at h <;> cases h
        · exact hle
        · next hge => omega

/-- Any of the entries that were not read for the longest time goes first if it stands in front. -/
theorem Balanced.oldest_toFront (h : Balanced c) {e : CacheEntry} (he : e ∈ c.entries)
    (hleast : ∀ f ∈ c.entries, e.lastRead ≤ f.lastRead) :
    CacheEntry.oldest (c.toFront e.key).entries = some e := by
  have hone : c.entries.filter (·.key == e.key) = [e] := by
    have hnodup : c.entries.Nodup := h.nodup.of_map _
    have hsame : c.entries.filter (·.key == e.key) = c.entries.filter (· == e) := by
      apply List.filter_congr
      intro f hf
      rw [Bool.eq_iff_iff, beq_iff_eq, beq_iff_eq]
      exact ⟨h.eq_of_key_eq hf he, congrArg _⟩
    rw [hsame, List.filter_beq, List.count_eq_one_of_mem hnodup he, List.replicate_one]
  rw [TextCache.toFront, hone, List.singleton_append, CacheEntry.oldest]
  split
  · rfl
  · next o ho =>
    have hle := hleast o (List.mem_of_mem_filter (CacheEntry.oldest_mem ho))
    rw [if_neg (Nat.not_lt.2 hle)]

/-- An entry in front of those with other keys is one more of the same entries. -/
theorem Balanced.perm_cons_remove (h : Balanced c) {e : CacheEntry} (he : e ∈ c.entries) :
    (e :: (c.remove e.key).2.entries).Perm c.entries := by
  have hnodup : c.entries.Nodup := h.nodup.of_map _
  have herase : c.entries.erase e = (c.remove e.key).2.entries := by
    rw [hnodup.erase_eq_filter, entries_remove]
    apply List.filter_congr
    intro f hf
    by_cases hkey : f.key = e.key
    · rw [h.eq_of_key_eq hf he hkey]
      rw [bne_self_eq_false, bne_self_eq_false]
    · have hne : f ≠ e := fun hfe => hkey (congrArg _ hfe)
      rw [bne_iff_ne.2 hne, bne_iff_ne.2 hkey]
  rw [← herase]
  exact (List.perm_cons_erase he).symm

/-- To make room drops the shortest front of the entries in the order of their last reads. -/
theorem Balanced.exists_drop (h : Balanced c) (hsize : size ≤ c.limits.total)
    (htimes : (c.entries.map (·.lastRead)).Nodup) :
    ∃ dropped kept, (dropped ++ kept).Perm c.entries ∧ ByLastRead (dropped ++ kept) ∧
      ShortestDrop c.limits size dropped kept ∧ (c.makeRoom size).entries.Perm kept := by
  fun_induction TextCache.makeRoom c size with
  | case1 c hfits =>
    obtain ⟨row, hperm, hrow⟩ := exists_byLastRead htimes
    have htotal : totalOf row = c.totalSize := (totalOf_perm hperm).trans h.total_eq.symm
    exact ⟨[], row, hperm, hrow, .nothing (htotal ▸ hfits), hperm.symm⟩
  | case2 c hfits hnone =>
    -- an empty cache has room for everything within the budget
    have htotal := h.total_eq
    rw [oldest_eq_none hnone] at htotal
    exact absurd (by simpa [htotal] using hsize) hfits
  | case3 c hfits e he _ ih =>
    have hmem : e ∈ c.entries := CacheEntry.oldest_mem he
    have hcons := h.perm_cons_remove hmem
    have htimes' : ((e :: (c.remove e.key).2.entries).map (·.lastRead)).Nodup :=
      (hcons.map _).nodup_iff.2 htimes
    rw [List.map_cons, List.nodup_cons] at htimes'
    obtain ⟨dropped, kept, hperm, hrow, hdrop, hkept⟩ :=
      ih (h.remove e.key) ((limits_remove e.key).symm ▸ hsize) htimes'.2
    rw [limits_remove] at hdrop
    have hall : (e :: (dropped ++ kept)).Perm c.entries := (hperm.cons e).trans hcons
    have hfirst : ∀ f ∈ dropped ++ kept, e.lastRead < f.lastRead := by
      intro f hf
      have hle := lastRead_oldest_le he f (hall.subset (List.mem_cons_of_mem e hf))
      have hne : f.lastRead ≠ e.lastRead := by
        intro heq
        apply htimes'.1
        rw [← heq]
        exact List.mem_map_of_mem (hperm.subset hf)
      omega
    have hfull : ¬ totalOf (e :: (dropped ++ kept)) + size ≤ c.limits.total := by
      have htotal : totalOf c.entries = c.totalSize := h.total_eq.symm
      rw [totalOf_perm hall, htotal]
      exact hfits
    exact ⟨e :: dropped, kept, hall, List.pairwise_cons.2 ⟨hfirst, hrow⟩, hdrop.cons hfull, hkept⟩

/-- The cache in which an insertion makes room has the other entries. -/
theorem Balanced.entries_swept (h : Balanced c) (key : String) (now : Nat) :
    (((c.remove key).2).sweep now).entries = c.others key now := by
  rw [(h.remove key).entries_sweep now, fresh_remove]
  rfl

private theorem limits_swept (key : String) (now : Nat) :
    (((c.remove key).2).sweep now).limits = c.limits :=
  (limits_foldl_remove _).trans (limits_remove key)

/-- What an accepted text leaves of a cache, after any operations, where the other entries that have
not expired were last read at different times. In the order of these times a front of them is
dropped, the shortest one that makes room for the text. So an entry that is dropped was read before
all that are kept; these stay as they were, the text is stored beside them, and all of it is within
the budget. -/
theorem insert_drops_oldest (limits : CacheLimits) (operations : List Operation)
    {key text : String} {now : Nat}
    (haccepted : ((run { limits } operations).insert key text now).1 = true)
    (htimes : (((run { limits } operations).others key now).map (·.lastRead)).Nodup) :
    let c := run { limits } operations
    let after := (c.insert key text now).2
    ∃ dropped kept, (dropped ++ kept).Perm (c.others key now) ∧ ByLastRead (dropped ++ kept) ∧
      ShortestDrop limits (entrySize text) dropped kept ∧
      after.entries.Perm (kept ++ [⟨key, text, entrySize text, now, now⟩]) ∧
      after.totalSize = totalOf kept + entrySize text := by
  intro c after
  have hlimits : c.limits = limits := limits_run operations
  have hbalanced : Balanced c := (balanced_start limits).run operations
  have hfits : Fits c.limits text := by
    by_contra hlarge
    rw [insert_of_not_fits hlarge] at haccepted
    cases haccepted
  have hswept : Balanced (((c.remove key).2).sweep now) :=
    balanced_foldl_remove _ (hbalanced.remove key)
  obtain ⟨dropped, kept, hperm, hrow, hdrop, hkept⟩ := hswept.exists_drop
    ((limits_swept key now).symm ▸ hfits.2) ((hbalanced.entries_swept key now).symm ▸ htimes)
  rw [hbalanced.entries_swept] at hperm
  rw [limits_swept, hlimits] at hdrop
  have hcleared : (c.cleared key now (entrySize text)).totalSize = totalOf kept := by
    rw [(hbalanced.cleared key now (entrySize text)).total_eq]
    exact totalOf_perm hkept
  have hafter : after = (c.insert key text now).2 := rfl
  rw [insert_of_fits hfits] at hafter
  refine ⟨dropped, kept, hperm, hrow, hdrop, ?_, ?_⟩
  · rw [hafter]
    exact hkept.append_right _
  · rw [hafter, ← hcleared]

/-- Three texts, of which the second is left unread. -/
def crowdingOperations : List Operation :=
  [.insert "a" "x" 0, .insert "b" "xy" 1, .insert "c" "y" 2, .get "a" 3]

/-- The text that was not read for the longest time makes room for a new one, the others stay. -/
theorem insert_after_crowdingOperations :
    let limits : CacheLimits := { total := 10, entry := 10 }
    let c := run { limits } crowdingOperations
    let after := (c.insert "d" "xyz" 4).2
    (c.insert "d" "xyz" 4).1 = true ∧ ((c.others "d" 4).map (·.lastRead)).Nodup ∧
      (∃ dropped kept, (dropped ++ kept).Perm (c.others "d" 4) ∧ ByLastRead (dropped ++ kept) ∧
        ShortestDrop limits 6 dropped kept ∧
        after.entries.Perm (kept ++ [⟨"d", "xyz", 6, 4, 4⟩]) ∧
        after.totalSize = totalOf kept + 6) ∧
      after.entries.map (·.key) = ["a", "c", "d"] := by
  intro limits c after
  have haccepted : (c.insert "d" "xyz" 4).1 = true := by decide +kernel
  have htimes : ((c.others "d" 4).map (·.lastRead)).Nodup := by decide +kernel
  have hsize : entrySize "xyz" = 6 := by decide +kernel
  have hdrops := insert_drops_oldest limits crowdingOperations haccepted htimes
  rw [hsize] at hdrops
  exact ⟨haccepted, htimes, hdrops, by decide +kernel⟩

end XsdCatalog.TextCache
