import Mathlib.Data.List.Induction
import Mathlib.Data.List.Nodup
import XsdCatalog.Registry

/-!
# What is filed in a registry

Filing changes the value of one key and the order of none. A registry filled from a list of pairs
has the keys of the list in the order of their first pairs, each with the value of its last pair.
-/

namespace XsdCatalog.Registry

variable {α β : Type}

private theorem lookup_file (key other : String) (a : α) (entries : List (String × α)) :
    (file key a entries).lookup other = if other = key then some a else entries.lookup other := by
  induction entries with
  | nil =>
    rw [file, List.lookup_cons, List.lookup_nil]
    by_cases h : other = key
    · simp [h]
    · simp [h, beq_false_of_ne h]
  | cons p entries ih =>
    obtain ⟨k, b⟩ := p
    rw [file]
    by_cases hk : k = key
    · by_cases h : other = key
      · simp [hk, h]
      · simp [hk, h, List.lookup_cons, beq_false_of_ne h]
    · rw [if_neg hk, List.lookup_cons, List.lookup_cons, ih]
      by_cases h : other = k
      · simp [h, hk]
      · simp [beq_false_of_ne h]

private theorem map_fst_file (key : String) (a : α) (entries : List (String × α)) :
    (file key a entries).map (·.1)
      = if key ∈ entries.map (·.1) then entries.map (·.1) else entries.map (·.1) ++ [key] := by
  induction entries with
  | nil => rfl
  | cons p entries ih =>
    obtain ⟨k, b⟩ := p
    rw [file]
    by_cases hk : k = key
    · simp [hk]
    · rw [if_neg hk, List.map_cons, ih, List.map_cons]
      by_cases h : key ∈ entries.map (·.1)
      · simp [h]
      · simp [h, Ne.symm hk]

theorem get?_insert (r : Registry α) (key other : String) (a : α) :
    (r.insert key a).get? other = if other = key then some a else r.get? other :=
  lookup_file key other a r.entries

private theorem keys_insert (r : Registry α) (key : String) (a : α) :
    (r.insert key a).keys = if key ∈ r.keys then r.keys else r.keys ++ [key] :=
  map_fst_file key a r.entries

/-- The registry with every value changed. -/
def map (f : α → β) (r : Registry α) : Registry β :=
  ⟨r.entries.map fun p => (p.1, f p.2)⟩

theorem map_insert (f : α → β) (r : Registry α) (key : String) (a : α) :
    (r.insert key a).map f = (r.map f).insert key (f a) := by
  suffices h : ∀ entries : List (String × α), (file key a entries).map (fun p => (p.1, f p.2))
      = file key (f a) (entries.map fun p => (p.1, f p.2)) from congrArg mk (h r.entries)
  intro entries
  induction entries with
  | nil => rfl
  | cons p entries ih =>
    obtain ⟨k, b⟩ := p
    rw [file, List.map_cons, file]
    by_cases hk : k = key
    · rw [if_pos hk, if_pos hk, List.map_cons]
    · rw [if_neg hk, if_neg hk, List.map_cons, ih]

theorem map_ofList (f : α → β) (pairs : List (String × α)) :
    (ofList pairs).map f = ofList (pairs.map fun p => (p.1, f p.2)) := by
  rw [ofList, ofList, List.foldl_map]
  exact (List.foldl_hom (map f) fun r p => (map_insert f r p.1 p.2).symm).symm

private theorem mem_of_mem_file {key : String} {a : α} {entries : List (String × α)}
    {p : String × α} (h : p ∈ file key a entries) : p = (key, a) ∨ p ∈ entries := by
  induction entries with
  | nil => exact .inl (List.mem_singleton.1 h)
  | cons q entries ih =>
    obtain ⟨k, b⟩ := q
    rw [file] at h
    by_cases hk : k = key
    · rw [if_pos hk, List.mem_cons] at h
      exact h.imp_right (List.mem_cons_of_mem _)
    · rw [if_neg hk, List.mem_cons] at h
      rcases h with h | h
      · exact .inr (h ▸ List.mem_cons_self)
      · exact (ih h).imp_right (List.mem_cons_of_mem _)

theorem mem_of_mem_ofList {pairs : List (String × α)} {p : String × α}
    (h : p ∈ (ofList pairs).entries) : p ∈ pairs := by
  induction pairs using List.reverseRecOn with
  | nil => cases h
  | append_singleton pairs q ih =>
    have hstep : ofList (pairs ++ [q]) = (ofList pairs).insert q.1 q.2 := by simp [ofList]
    rw [hstep] at h
    rcases mem_of_mem_file h with h | h
    · exact List.mem_append_right _ (List.mem_singleton.2 h)
    · exact List.mem_append_left _ (ih h)

theorem nodup_keys_ofList (pairs : List (String × α)) : (ofList pairs).keys.Nodup := by
  induction pairs using List.reverseRecOn with
  | nil => exact List.nodup_nil
  | append_singleton pairs p ih =>
    have hstep : ofList (pairs ++ [p]) = (ofList pairs).insert p.1 p.2 := by simp [ofList]
    rw [hstep, keys_insert]
    by_cases h : p.1 ∈ (ofList pairs).keys
    · rwa [if_pos h]
    · rw [if_neg h]
      refine List.nodup_append.2 ⟨ih, List.pairwise_singleton _ _, ?_⟩
      intro key hkey other hother he
      exact h (List.mem_singleton.1 hother ▸ he ▸ hkey)

theorem get?_of_mem {r : Registry α} (hr : r.keys.Nodup) {p : String × α} (hp : p ∈ r.entries) :
    r.get? p.1 = some p.2 := by
  obtain ⟨entries⟩ := r
  rw [keys] at hr
  rw [get?]
  induction entries with
  | nil => cases hp
  | cons q entries ih =>
    rw [List.map_cons, List.nodup_cons] at hr
    rcases List.mem_cons.1 hp with rfl | hp
    · rw [List.lookup_cons, beq_self_eq_true]
    · have hne : p.1 ≠ q.1 := fun h => hr.1 (h ▸ List.mem_map_of_mem hp)
      rw [List.lookup_cons, beq_false_of_ne hne]
      exact ih hr.2 hp

/-- Of several pairs with one key the last one counts. -/
theorem get?_ofList (pairs : List (String × α)) (key : String) :
    (ofList pairs).get? key = (pairs.reverse.find? (·.1 == key)).map (·.2) := by
  induction pairs using List.reverseRecOn with
  | nil => rfl
  | append_singleton pairs p ih =>
    have hstep : ofList (pairs ++ [p]) = (ofList pairs).insert p.1 p.2 := by simp [ofList]
    rw [hstep, get?_insert, ih, List.reverse_append, List.reverse_singleton,
      List.singleton_append, List.find?_cons]
    by_cases h : key = p.1
    · simp [h]
    · have h' : (p.1 == key) = false := by simpa using Ne.symm h
      simp [h, h']

/-- One more key is a new one or there already. -/
theorem eraseDups_append_singleton (keys : List String) (key : String) :
    (keys ++ [key]).eraseDups = if key ∈ keys then keys.eraseDups else keys.eraseDups ++ [key] := by
  rw [List.eraseDups_append]
  by_cases h : key ∈ keys
  · have hr : [key].removeAll keys = [] := by
      simpa [List.removeAll] using h
    rw [if_pos h, hr]
    simp
  · have hr : [key].removeAll keys = [key] := by
      simpa [List.removeAll] using h
    rw [if_neg h, hr]
    simp [List.eraseDups_cons]

/-- The keys stand in the order of their first pairs. -/
theorem keys_ofList (pairs : List (String × α)) :
    (ofList pairs).keys = (pairs.map (·.1)).eraseDups := by
  induction pairs using List.reverseRecOn with
  | nil => rfl
  | append_singleton pairs p ih =>
    have hstep : ofList (pairs ++ [p]) = (ofList pairs).insert p.1 p.2 := by simp [ofList]
    rw [hstep, keys_insert, ih, List.map_append, List.map_singleton, eraseDups_append_singleton]
    simp only [List.mem_eraseDups]

theorem get?_map (f : α → β) (r : Registry α) (key : String) :
    (r.map f).get? key = (r.get? key).map f := by
  obtain ⟨entries⟩ := r
  rw [map, get?, get?]
  induction entries with
  | nil => rfl
  | cons p entries ih =>
    rw [List.map_cons, List.lookup_cons, List.lookup_cons]
    cases key == p.1 with
    | true => rfl
    | false => exact ih

/-- Where no key occurs twice, every pair counts. -/
theorem get?_ofList_eq_some_iff {pairs : List (String × α)} (hn : (pairs.map (·.1)).Nodup)
    {key : String} {a : α} : (ofList pairs).get? key = some a ↔ (key, a) ∈ pairs := by
  rw [get?_ofList, Option.map_eq_some_iff]
  constructor
  · rintro ⟨⟨k, a⟩, hf, rfl⟩
    obtain rfl : k = key := by simpa using List.find?_some hf
    exact List.mem_reverse.1 (List.mem_of_find?_eq_some hf)
  · intro hm
    cases hf : pairs.reverse.find? (·.1 == key) with
    | none =>
      have hne := List.find?_eq_none.1 hf _ (List.mem_reverse.2 hm)
      simp at hne
    | some p =>
      have hp : p.1 = key := by simpa using List.find?_some hf
      have hpm := List.mem_reverse.1 (List.mem_of_find?_eq_some hf)
      exact ⟨p, rfl, congrArg (·.2) (List.inj_on_of_nodup_map hn hpm hm hp)⟩

theorem get?_ofList_of_perm {pairs pairs' : List (String × α)} (h : pairs.Perm pairs')
    (hn : (pairs.map (·.1)).Nodup) (key : String) :
    (ofList pairs).get? key = (ofList pairs').get? key := by
  have hn' := (h.map (·.1)).nodup_iff.1 hn
  apply Option.ext
  intro a
  rw [get?_ofList_eq_some_iff hn, get?_ofList_eq_some_iff hn', h.mem_iff]

end XsdCatalog.Registry
