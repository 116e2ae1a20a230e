import Mathlib.Algebra.Ring.Nat
import XsdCatalog.Source.TextCache

/-!
# The budget of the text cache

Whatever is done to a cache, and at whatever times, its total is the sum of the sizes of its entries
and stays within the budget. All that operations drop, they drop by removing keys one after the
other, so what a removal keeps is kept by sweeping and by making room.

The total is a number without sign. In a checked run a removal fails where the size of an entry is
more than the total; a checked run never fails.

Entries are held without an order. Of those that were not read for the longest time the first one in
the list is dropped; so that any of them may be, a run may put any entry in front of the others
between two operations (`oldest_toFront`).
-/

namespace XsdCatalog.TextCache

/-- The cache with the entry that has the key in front of the others. -/
def toFront (c : TextCache) (key : String) : TextCache :=
  { c with entries := c.entries.filter (·.key == key) ++ c.entries.filter (·.key != key) }

/-- What is done to a cache from outside, and how its entries come to stand in another order. -/
inductive Operation
  | get (key : String) (now : Nat)
  | insert (key text : String) (now : Nat)
  | remove (key : String)
  | clear
  | toFront (key : String)

/-- The cache behind an operation. -/
def Operation.apply (c : TextCache) : Operation → TextCache
  | get key now => (c.get key now).2
  | insert key text now => (c.insert key text now).2
  | remove key => (c.remove key).2
  | clear => c.clear
  | toFront key => c.toFront key

/-- The cache behind a run of operations. -/
def run (c : TextCache) (operations : List Operation) : TextCache :=
  operations.foldl Operation.apply c

/-- The total and the entries agree, and both are within the limits. -/
structure Balanced (c : TextCache) : Prop where
  total_eq : c.totalSize = (c.entries.map (·.size)).sum
  size_eq : ∀ e ∈ c.entries, e.size = entrySize e.text
  size_le : ∀ e ∈ c.entries, e.size ≤ c.limits.entry
  total_le : c.totalSize ≤ c.limits.total
  nodup : (c.entries.map (·.key)).Nodup

/-- A cache without entries. -/
theorem balanced_start (limits : CacheLimits) : Balanced { limits } where
  total_eq := rfl
  size_eq _ he := nomatch he
  size_le _ he := nomatch he
  total_le := Nat.zero_le _
  nodup := List.nodup_nil

/-- Drops the entry with a key, unless its size is more than the total. -/
def removeChecked (c : TextCache) (key : String) : Option TextCache :=
  match c.find? key with
  | some e => if e.size ≤ c.totalSize then some (c.remove key).2 else none
  | none => some c

def getChecked (c : TextCache) (key : String) (now : Nat) : Option TextCache :=
  match c.find? key with
  | some e => if e.expired c.limits now then c.removeChecked key else some (c.get key now).2
  | none => some c

def sweepChecked (c : TextCache) (now : Nat) : Option TextCache :=
  (c.entries.filter (CacheEntry.expired c.limits now)).foldlM (fun c e => c.removeChecked e.key) c

def makeRoomChecked (c : TextCache) (size : Nat) : Option TextCache :=
  if c.totalSize + size ≤ c.limits.total then some c
  else
    match h : CacheEntry.oldest c.entries with
    | none => some c
    | some e =>
      have := length_entries_remove_lt (CacheEntry.oldest_mem h)
      (c.removeChecked e.key).bind fun _ => makeRoomChecked (c.remove e.key).2 size
termination_by c.entries.length

def insertChecked (c : TextCache) (key text : String) (now : Nat) : Option TextCache := do
  let size := entrySize text
  if size > c.limits.entry ∨ size > c.limits.total then return c
  let c ← c.removeChecked key
  let c ← c.sweepChecked now
  let c ← c.makeRoomChecked size
  return { c with
    entries := c.entries ++ [⟨key, text, size, now, now⟩]
    totalSize := c.totalSize + size }

def Operation.applyChecked (c : TextCache) : Operation → Option TextCache
  | get key now => c.getChecked key now
  | insert key text now => c.insertChecked key text now
  | remove key => c.removeChecked key
  | clear => some c.clear
  | toFront key => some (c.toFront key)

variable {c : TextCache}

theorem mem_of_find? {key : String} {e : CacheEntry} (h : c.find? key = some e) :
    e ∈ c.entries ∧ e.key = key :=
  ⟨List.mem_of_find?_eq_some h, by simpa using List.find?_some h⟩

theorem limits_remove (key : String) : (c.remove key).2.limits = c.limits := by
  rw [remove]
  cases c.find? key <;> rfl

theorem entries_remove (key : String) :
    (c.remove key).2.entries = c.entries.filter (·.key != key) := by
  rw [remove]
  cases h : c.find? key with
  | some e => rfl
  | none =>
    have hne := List.find?_eq_none.1 h
    refine (List.filter_eq_self.2 fun e he => ?_).symm
    simpa using hne e he

theorem mem_remove {key : String} {e : CacheEntry} :
    e ∈ (c.remove key).2.entries ↔ e ∈ c.entries ∧ e.key ≠ key := by
  rw [entries_remove, List.mem_filter, bne_iff_ne]

/-- The size of one entry and those of the entries with other keys. -/
theorem sum_size_filter {es : List CacheEntry} (hn : (es.map (·.key)).Nodup) {e : CacheEntry}
    (he : e ∈ es) :
    (es.map (·.size)).sum = e.size + ((es.filter (·.key != e.key)).map (·.size)).sum := by
  induction es with
  | nil => cases he
  | cons a es ih =>
    rw [List.map_cons, List.nodup_cons] at hn
    rcases List.mem_cons.1 he with rfl | he
    · have hself : es.filter (·.key != e.key) = es := by
        refine List.filter_eq_self.2 fun b hb => ?_
        have hne : b.key ≠ e.key := fun h => hn.1 (h ▸ List.mem_map_of_mem hb)
        simpa using hne
      simp [hself]
    · have hne : a.key ≠ e.key := fun h => hn.1 (h ▸ List.mem_map_of_mem he)
      have ih := ih hn.2 he
      simp only [List.map_cons, List.sum_cons, List.filter_cons, bne_iff_ne, ne_eq, hne,
        not_false_eq_true, if_true]
      omega

private theorem Balanced.size_le_total (h : Balanced c) {e : CacheEntry} (he : e ∈ c.entries) :
    e.size ≤ c.totalSize := by
  rw [h.total_eq, sum_size_filter h.nodup he]
  exact Nat.le_add_right _ _

private theorem Balanced.totalSize_remove (h : Balanced c) (key : String) :
    (c.remove key).2.totalSize = ((c.entries.filter (·.key != key)).map (·.size)).sum := by
  rw [← entries_remove, remove]
  cases hf : c.find? key with
  | none => exact h.total_eq
  | some e =>
    obtain ⟨he, rfl⟩ := mem_of_find? hf
    have hsum := sum_size_filter h.nodup he
    have htotal := h.total_eq
    show c.totalSize - e.size = ((c.entries.filter (·.key != e.key)).map (·.size)).sum
    omega

theorem Balanced.remove (h : Balanced c) (key : String) : Balanced (c.remove key).2 := by
  have hlimits := limits_remove (c := c) key
  have hentries := entries_remove (c := c) key
  have hmem : ∀ e ∈ (c.remove key).2.entries, e ∈ c.entries := fun e he => (mem_remove.1 he).1
  constructor
  · rw [h.totalSize_remove, hentries]
  · exact fun e he => h.size_eq e (hmem e he)
  · exact fun e he => hlimits ▸ h.size_le e (hmem e he)
  · rw [hlimits]
    refine Nat.le_trans ?_ h.total_le
    rw [TextCache.remove]
    cases c.find? key with
    | none => exact Nat.le_refl _
    | some e => exact Nat.sub_le _ _
  · rw [hentries]
    exact h.nodup.sublist (List.filter_sublist.map _)

private theorem Balanced.removeChecked_eq (h : Balanced c) (key : String) :
    c.removeChecked key = some (c.remove key).2 := by
  rw [removeChecked]
  cases hf : c.find? key with
  | none => rw [TextCache.remove, hf]
  | some e => exact if_pos (h.size_le_total (mem_of_find? hf).1)

theorem balanced_foldl_remove (es : List CacheEntry) (h : Balanced c) :
    Balanced (es.foldl (fun c e => (c.remove e.key).2) c) := by
  induction es generalizing c with
  | nil => exact h
  | cons e es ih => exact ih (h.remove e.key)

theorem limits_foldl_remove (es : List CacheEntry) :
    (es.foldl (fun c e => (c.remove e.key).2) c).limits = c.limits := by
  induction es generalizing c with
  | nil => rfl
  | cons e es ih => exact ih.trans (limits_remove e.key)

theorem mem_of_mem_foldl_remove {es : List CacheEntry} {e : CacheEntry}
    (h : e ∈ (es.foldl (fun c e => (c.remove e.key).2) c).entries) : e ∈ c.entries := by
  induction es generalizing c with
  | nil => exact h
  | cons a es ih => exact (mem_remove.1 (ih h)).1

private theorem foldlM_removeChecked (es : List CacheEntry) (h : Balanced c) :
    es.foldlM (fun c e => c.removeChecked e.key) c
      = some (es.foldl (fun c e => (c.remove e.key).2) c) := by
  induction es generalizing c with
  | nil => rfl
  | cons e es ih =>
    rw [List.foldlM_cons, h.removeChecked_eq, List.foldl_cons]
    exact ih (h.remove e.key)

theorem oldest_eq_none {es : List CacheEntry} (h : CacheEntry.oldest es = none) : es = [] := by
  cases es with
  | nil => rfl
  | cons e es =>
    rw [CacheEntry.oldest] at h
    split at h <;> cases h

private theorem limits_makeRoom (size : Nat) : (c.makeRoom size).limits = c.limits := by
  fun_induction makeRoom c size with
  | case1 => rfl
  | case2 => rfl
  | case3 c _ e _ _ ih => exact ih.trans (limits_remove e.key)

theorem mem_of_mem_makeRoom {size : Nat} {e : CacheEntry} (h : e ∈ (c.makeRoom size).entries) :
    e ∈ c.entries := by
  fun_induction makeRoom c size with
  | case1 => exact h
  | case2 => exact h
  | case3 c _ a _ _ ih => exact (mem_remove.1 (ih h)).1

private theorem Balanced.makeRoom {size : Nat} (h : Balanced c) : Balanced (c.makeRoom size) := by
  fun_induction TextCache.makeRoom c size with
  | case1 => exact h
  | case2 => exact h
  | case3 c _ e _ _ ih => exact ih (h.remove e.key)

private theorem Balanced.totalSize_makeRoom {size : Nat} (h : Balanced c)
    (hs : size ≤ c.limits.total) : (c.makeRoom size).totalSize + size ≤ c.limits.total := by
  fun_induction TextCache.makeRoom c size with
  | case1 c hfits => exact hfits
  | case2 c hfits hnone =>
    -- an empty cache has room for everything within the budget
    have htotal := h.total_eq
    rw [oldest_eq_none hnone] at htotal
    exact absurd (by simpa [htotal] using hs) hfits
  | case3 c _ e _ _ ih =>
    have ih := ih (h.remove e.key)
    rw [limits_remove] at ih
    exact ih hs

private theorem Balanced.makeRoomChecked_eq {size : Nat} (h : Balanced c) :
    c.makeRoomChecked size = some (c.makeRoom size) := by
  fun_induction TextCache.makeRoom c size with
  | case1 c hfits => rw [makeRoomChecked, if_pos hfits]
  | case2 c hfits hnone =>
    rw [makeRoomChecked, if_neg hfits]
    split
    · rfl
    · next e he => cases hnone.symm.trans he
  | case3 c hfits e he _ ih =>
    rw [makeRoomChecked, if_neg hfits]
    split
    · next hnone => cases he.symm.trans hnone
    · next e' he' =>
      obtain rfl : e = e' := Option.some.inj (he.symm.trans he')
      rw [h.removeChecked_eq]
      exact ih (h.remove e.key)

/-- What an insertion leaves of a cache before it stores its own entry. -/
def cleared (c : TextCache) (key : String) (now size : Nat) : TextCache :=
  (((c.remove key).2).sweep now).makeRoom size

theorem limits_cleared (key : String) (now size : Nat) :
    (c.cleared key now size).limits = c.limits :=
  (limits_makeRoom size).trans ((limits_foldl_remove _).trans (limits_remove key))

theorem key_ne_of_mem_cleared {key : String} {now size : Nat} {e : CacheEntry}
    (h : e ∈ (c.cleared key now size).entries) : e.key ≠ key :=
  (mem_remove.1 (mem_of_mem_foldl_remove (mem_of_mem_makeRoom h))).2

theorem Balanced.cleared (h : Balanced c) (key : String) (now size : Nat) :
    Balanced (c.cleared key now size) :=
  (balanced_foldl_remove _ (h.remove key)).makeRoom

private theorem Balanced.totalSize_cleared (h : Balanced c) (key : String) (now : Nat) {size : Nat}
    (hs : size ≤ c.limits.total) :
    (c.cleared key now size).totalSize + size ≤ c.limits.total := by
  have hswept : Balanced (((c.remove key).2).sweep now) := balanced_foldl_remove _ (h.remove key)
  have hlimits : (((c.remove key).2).sweep now).limits = c.limits :=
    (limits_foldl_remove _).trans (limits_remove key)
  have hroom := @Balanced.totalSize_makeRoom _ size hswept
  rw [hlimits] at hroom
  exact hroom hs

/-- The text is small enough to be stored. -/
def Fits (limits : CacheLimits) (text : String) : Prop :=
  entrySize text ≤ limits.entry ∧ entrySize text ≤ limits.total

private theorem not_fits {limits : CacheLimits} {text : String} :
    ¬ Fits limits text ↔ entrySize text > limits.entry ∨ entrySize text > limits.total := by
  rw [Fits]
  omega

theorem insert_of_fits {text : String} (hf : Fits c.limits text) (key : String) (now : Nat) :
    c.insert key text now
      = (true, { c.cleared key now (entrySize text) with
          entries := (c.cleared key now (entrySize text)).entries
            ++ [⟨key, text, entrySize text, now, now⟩]
          totalSize := (c.cleared key now (entrySize text)).totalSize + entrySize text }) :=
  if_neg fun h => not_fits.2 h hf

theorem insert_of_not_fits {text : String} (hf : ¬ Fits c.limits text) (key : String) (now : Nat) :
    c.insert key text now = (false, c) :=
  if_pos (not_fits.1 hf)

theorem limits_apply (operation : Operation) : (operation.apply c).limits = c.limits := by
  cases operation with
  | get key now =>
    rw [Operation.apply, get]
    split
    · rfl
    · split
      · exact limits_remove key
      · rfl
  | insert key text now =>
    rw [Operation.apply]
    by_cases hf : Fits c.limits text
    · rw [insert_of_fits hf]
      exact limits_cleared key now _
    · rw [insert_of_not_fits hf]
  | remove key => exact limits_remove key
  | clear => rfl
  | toFront key => rfl

/-- Reading an entry changes no key, text or size. -/
theorem Balanced.get (h : Balanced c) (key : String) (now : Nat) : Balanced (c.get key now).2 := by
  rw [TextCache.get]
  split
  · exact h
  · split
    · exact h.remove key
    · have hmap {β : Type} (f : CacheEntry → β)
          (hf : ∀ x : CacheEntry, f { x with lastRead := now } = f x) :
          (c.entries.map fun x => if x.key == key then { x with lastRead := now } else x).map f
            = c.entries.map f := by
        rw [List.map_map]
        refine List.map_congr_left fun x _ => ?_
        rw [Function.comp_apply]
        split
        · exact hf x
        · rfl
      have hall {p : String → Nat → Prop} (hp : ∀ x ∈ c.entries, p x.text x.size) :
          ∀ x ∈ c.entries.map fun x => if x.key == key then { x with lastRead := now } else x,
            p x.text x.size := by
        intro x hx
        obtain ⟨y, hy, rfl⟩ := List.mem_map.1 hx
        split
        · exact hp y hy
        · exact hp y hy
      constructor
      · exact h.total_eq.trans (congrArg List.sum (hmap (·.size) fun _ => rfl).symm)
      · exact hall (p := fun text size => size = entrySize text) h.size_eq
      · exact hall (p := fun _ size => size ≤ c.limits.entry) h.size_le
      · exact h.total_le
      · exact (hmap (·.key) fun _ => rfl).symm ▸ h.nodup

theorem Balanced.insert (h : Balanced c) (key text : String) (now : Nat) :
    Balanced (c.insert key text now).2 := by
  by_cases hf : Fits c.limits text
  · have hc := h.cleared key now (entrySize text)
    have hlimits := limits_cleared (c := c) key now (entrySize text)
    rw [insert_of_fits hf]
    constructor
    · simp [hc.total_eq]
    · simpa [or_imp, forall_and] using hc.size_eq
    · simpa [or_imp, forall_and, hlimits] using ⟨hlimits ▸ hc.size_le, hf.1⟩
    · exact hlimits.symm ▸ h.totalSize_cleared key now hf.2
    · rw [List.map_append, List.map_singleton, List.nodup_append]
      refine ⟨hc.nodup, List.pairwise_singleton _ _, fun k hk other hother he => ?_⟩
      obtain ⟨e, hmem, rfl⟩ := List.mem_map.1 hk
      exact key_ne_of_mem_cleared hmem (he.trans (List.mem_singleton.1 hother))
  · rw [insert_of_not_fits hf]
    exact h

theorem perm_toFront (c : TextCache) (key : String) : (c.toFront key).entries.Perm c.entries :=
  List.filter_append_perm (fun e : CacheEntry => e.key == key) c.entries

theorem Balanced.toFront (h : Balanced c) (key : String) : Balanced (c.toFront key) := by
  have hperm := c.perm_toFront key
  constructor
  · exact h.total_eq.trans (hperm.map _).sum_nat.symm
  · exact fun e he => h.size_eq e (hperm.mem_iff.1 he)
  · exact fun e he => h.size_le e (hperm.mem_iff.1 he)
  · exact h.total_le
  · exact (hperm.map _).nodup_iff.2 h.nodup

theorem Balanced.apply (h : Balanced c) (operation : Operation) : Balanced (operation.apply c) := by
  cases operation with
  | get key now => exact h.get key now
  | insert key text now => exact h.insert key text now
  | remove key => exact h.remove key
  | clear => exact balanced_start c.limits
  | toFront key => exact h.toFront key

private theorem Balanced.insertChecked_eq (h : Balanced c) (key text : String) (now : Nat) :
    c.insertChecked key text now = some (c.insert key text now).2 := by
  rw [insertChecked]
  by_cases hf : Fits c.limits text
  · have hremoved := h.remove key
    have hswept : Balanced (((c.remove key).2).sweep now) := balanced_foldl_remove _ hremoved
    have hsweep : (c.remove key).2.sweepChecked now = some ((c.remove key).2.sweep now) :=
      foldlM_removeChecked _ hremoved
    rw [if_neg fun hlarge => not_fits.2 hlarge hf, insert_of_fits hf]
    simp only [h.removeChecked_eq, Option.bind_eq_bind, Option.bind_some, hsweep,
      hswept.makeRoomChecked_eq]
    rfl
  · rw [if_pos (not_fits.1 hf), insert_of_not_fits hf]
    rfl

private theorem Balanced.applyChecked_eq (h : Balanced c) (operation : Operation) :
    operation.applyChecked c = some (operation.apply c) := by
  cases operation with
  | get key now =>
    rw [Operation.applyChecked, getChecked, Operation.apply, TextCache.get]
    cases c.find? key with
    | none => rfl
    | some e =>
      by_cases he : e.expired c.limits now = true
      · simp [he, h.removeChecked_eq]
      · simp [he]
  | insert key text now => exact h.insertChecked_eq key text now
  | remove key => exact h.removeChecked_eq key
  | clear => rfl
  | toFront key => rfl

theorem limits_run (operations : List Operation) : (c.run operations).limits = c.limits := by
  induction operations generalizing c with
  | nil => rfl
  | cons operation operations ih => exact ih.trans (limits_apply operation)

theorem Balanced.run (h : Balanced c) (operations : List Operation) :
    Balanced (c.run operations) := by
  induction operations generalizing c with
  | nil => exact h
  | cons operation operations ih => exact ih (h.apply operation)

private theorem Balanced.runChecked_eq (h : Balanced c) (operations : List Operation) :
    operations.foldlM Operation.applyChecked c = some (c.run operations) := by
  induction operations generalizing c with
  | nil => rfl
  | cons operation operations ih =>
    rw [List.foldlM_cons, h.applyChecked_eq]
    exact ih (h.apply operation)

/-- After any operations the total is the sum of the sizes, in whatever order keys, texts and times
come; no removal has taken more from the total than there was; and a text is stored exactly if it
is within both limits, and else changes nothing. -/
theorem balanced_after_operations (limits : CacheLimits) (operations : List Operation) :
    let c := run { limits } operations
    c.limits = limits ∧ Balanced c ∧
      operations.foldlM Operation.applyChecked { limits } = some c ∧
      ∀ key text now,
        ((c.insert key text now).1 = true ↔
          entrySize text ≤ limits.entry ∧ entrySize text ≤ limits.total) ∧
        ((c.insert key text now).1 = true →
          (c.insert key text now).2.find? key = some ⟨key, text, entrySize text, now, now⟩) ∧
        ((c.insert key text now).1 = false → (c.insert key text now).2 = c) := by
  intro c
  have hlimits : c.limits = limits := limits_run operations
  refine ⟨hlimits, (balanced_start limits).run operations,
    (balanced_start limits).runChecked_eq operations, fun key text now => ?_⟩
  by_cases hf : Fits c.limits text
  · rw [insert_of_fits hf]
    refine ⟨iff_of_true rfl (hlimits ▸ hf), fun _ => ?_, nofun⟩
    have hnone : (c.cleared key now (entrySize text)).entries.find? (·.key == key) = none :=
      List.find?_eq_none.2 fun e he => by simpa using key_ne_of_mem_cleared he
    simp [find?, hnone]
  · rw [insert_of_not_fits hf]
    exact ⟨iff_of_false nofun (hlimits ▸ hf), nofun, fun _ => rfl⟩

end XsdCatalog.TextCache
