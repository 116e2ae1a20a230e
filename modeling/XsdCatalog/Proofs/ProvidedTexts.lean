import Mathlib.Data.List.Induction
import XsdCatalog.Proofs.CacheExpiry
import XsdCatalog.Source.Provider

/-!
# Texts that a provider hands out

A text that a provider hands out was read from the source, by this call or by an earlier one for the
same document, not too long ago, and nothing has been told to forget it since. So with a source that
does not change a provider answers like the source itself. Fragments have nothing to do with the
cache.

The documents of a source may change between two calls, so each call has a source of its own.
-/

namespace XsdCatalog

namespace TextCache

variable {c : TextCache} {key text : String} {now : Nat}

/-- Reading changes nothing of an entry but the time of the last read. -/
theorem mem_of_mem_get {e : CacheEntry} (h : e ∈ (c.get key now).2.entries) :
    ∃ a ∈ c.entries, a.key = e.key ∧ a.text = e.text ∧ a.stored = e.stored := by
  rw [get] at h
  split at h
  · exact ⟨e, h, rfl, rfl, rfl⟩
  · split at h
    · exact ⟨e, (mem_remove.1 h).1, rfl, rfl, rfl⟩
    · obtain ⟨a, ha, rfl⟩ := List.mem_map.1 h
      refine ⟨a, ha, ?_⟩
      split <;> exact ⟨rfl, rfl, rfl⟩

private theorem exists_of_get (h : (c.get key now).1 = some text) :
    ∃ e ∈ c.entries, e.key = key ∧ e.text = text ∧ now - e.stored < c.limits.age := by
  rw [get] at h
  split at h
  · cases h
  · next e he =>
    obtain ⟨hmem, hkey⟩ := mem_of_find? he
    split at h
    · cases h
    · next hfresh =>
      simp only [CacheEntry.expired, Bool.or_eq_true, decide_eq_true_eq, not_or] at hfresh
      exact ⟨e, hmem, hkey, Option.some.inj h, by omega⟩

/-- A read that finds nothing leaves at most one entry less. -/
theorem sublist_get_of_eq_none (h : (c.get key now).1 = none) :
    (c.get key now).2.entries.Sublist c.entries := by
  rw [get] at h ⊢
  split
  · exact List.Sublist.refl _
  · next e he =>
    rw [he] at h
    split
    · rw [entries_remove]
      exact List.filter_sublist
    · next hfresh => simp [hfresh] at h

private theorem mem_of_mem_insert {e : CacheEntry} (h : e ∈ (c.insert key text now).2.entries) :
    e ∈ c.entries ∨ e = ⟨key, text, entrySize text, now, now⟩ := by
  by_cases hf : Fits c.limits text
  · rw [insert_of_fits hf, List.mem_append, List.mem_singleton] at h
    refine h.imp_left fun he => ?_
    exact (mem_remove.1 (mem_of_mem_foldl_remove (mem_of_mem_makeRoom he))).1
  · rw [insert_of_not_fits hf] at h
    exact .inl h

end TextCache

namespace Provider

/-- What is asked of a provider, and how the entries of its cache come to stand in another order. -/
inductive Call
  | documentText (source : TextSource) (now : Nat) (locator : String)
  | fragmentAt (source : TextSource) (locator : String) (line column : Nat)
  | fragment (source : TextSource) (location : Location)
  | fragmentOf (source : TextSource) (location : Option Location)
  | remove (locator : String)
  | clear
  | toFront (key : String)

namespace Call

/-- The provider behind a call. -/
def apply (p : Provider) : Call → Provider
  | documentText source now locator => (p.documentText source now locator).2
  | fragmentAt source locator line column => (p.fragmentAt source locator line column).2
  | fragment source location => (p.fragment source location).2
  | fragmentOf source location => (p.fragmentOf source location).2
  | remove locator => (p.remove locator).2
  | clear => p.clear
  | toFront key => { p with cache := p.cache.toFront key }

/-- The call makes the provider forget the text of a document. -/
def Forgets (key : String) : Call → Prop
  | remove locator => Text.trim locator = key
  | clear => True
  | _ => False

/-- If the call asks for a text, it asks a source with the same texts as this one. -/
def Asks (source : TextSource) : Call → Prop
  | documentText s _ _ => s.read = source.read
  | _ => True

end Call

/-- The provider behind a run of calls. -/
def run (p : Provider) (calls : List Call) : Provider :=
  calls.foldl Call.apply p

/-- The call asks the source for the text of the document, and this is what the source gives. -/
def Reads (p : Provider) (source : TextSource) (now : Nat) (locator text : String) : Prop :=
  (p.documentText source now locator).2.reads = p.reads + 1 ∧
    source.read (Text.trim locator) = .ok text

/-- A call of the run has read the text at this time, and none has made the provider forget it
since. -/
def Remembers (start : Provider) (calls : List Call) (key text : String) (time : Nat) : Prop :=
  ∃ earlier source locator later, calls = earlier ++ .documentText source time locator :: later ∧
    Text.trim locator = key ∧ (start.run earlier).Reads source time locator text ∧
    ∀ call ∈ later, ¬ call.Forgets key

variable {p start : Provider} {source : TextSource} {locator text : String} {now : Nat}

/-- The four ways in which a text is asked for: there is no locator, the text is in the cache, or
the source is asked, with success or without. -/
theorem documentText_cases (p : Provider) (source : TextSource) (now : Nat) (locator : String) :
    let key := Text.trim locator
    (key = "" ∧ p.documentText source now locator = (.error .emptyLocator, p)) ∨
    (key ≠ "" ∧ ∃ text, (p.cache.get key now).1 = some text ∧
      p.documentText source now locator
        = (.ok text, { p with cache := (p.cache.get key now).2 })) ∨
    (key ≠ "" ∧ (p.cache.get key now).1 = none ∧ ∃ e, source.read key = .error e ∧
      p.documentText source now locator
        = (.error e, { p with cache := (p.cache.get key now).2, reads := p.reads + 1 })) ∨
    (key ≠ "" ∧ (p.cache.get key now).1 = none ∧ ∃ text, source.read key = .ok text ∧
      p.documentText source now locator
        = (.ok text, { p with
            cache := ((p.cache.get key now).2.insert key text now).2, reads := p.reads + 1 })) := by
  intro key
  by_cases hkey : key = ""
  · have hchecked : checkedLocator locator = .error .emptyLocator := if_pos hkey
    refine .inl ⟨hkey, ?_⟩
    rw [documentText, hchecked]
  · have hchecked : checkedLocator locator = .ok key := if_neg hkey
    rw [documentText, hchecked]
    refine .inr ?_
    rcases hfound : p.cache.get key now with ⟨answer, cache⟩
    cases answer with
    | some text => exact .inl ⟨hkey, text, rfl, by simp only [hfound]⟩
    | none =>
      simp only [hfound]
      cases hread : source.read key with
      | error e => exact .inr (.inl ⟨hkey, trivial, e, rfl, rfl⟩)
      | ok text => exact .inr (.inr ⟨hkey, trivial, text, rfl, rfl⟩)

private theorem cache_fragmentAt (p : Provider) (source : TextSource) (locator : String)
    (line column : Nat) : (p.fragmentAt source locator line column).2.cache = p.cache := by
  rw [fragmentAt]
  split <;> rfl

private theorem cache_fragment (p : Provider) (source : TextSource) (location : Location) :
    (p.fragment source location).2.cache = p.cache := by
  rw [fragment]
  split
  · rfl
  · exact cache_fragmentAt ..

private theorem cache_fragmentOf (p : Provider) (source : TextSource) (location : Option Location) :
    (p.fragmentOf source location).2.cache = p.cache := by
  cases location with
  | none => rfl
  | some l => exact cache_fragment p source l

private theorem fragmentAt_congr (p q : Provider) (source : TextSource) (locator : String)
    (line column : Nat) :
    (p.fragmentAt source locator line column).1 = (q.fragmentAt source locator line column).1 := by
  rw [fragmentAt, fragmentAt]
  split <;> rfl

private theorem fragment_congr (p q : Provider) (source : TextSource) (location : Location) :
    (p.fragment source location).1 = (q.fragment source location).1 := by
  rw [fragment, fragment]
  split
  · rfl
  · exact fragmentAt_congr ..

private theorem fragmentOf_congr (p q : Provider) (source : TextSource)
    (location : Option Location) :
    (p.fragmentOf source location).1 = (q.fragmentOf source location).1 := by
  cases location with
  | none => rfl
  | some l => exact fragment_congr p q source l

/-- An entry behind a call was there before and is not to be forgotten, or the call has read it. -/
theorem mem_of_mem_apply {call : Call} {e : CacheEntry} (h : e ∈ (call.apply p).cache.entries) :
    (¬ call.Forgets e.key ∧
      ∃ a ∈ p.cache.entries, a.key = e.key ∧ a.text = e.text ∧ a.stored = e.stored) ∨
    ∃ source locator, call = .documentText source e.stored locator ∧ Text.trim locator = e.key ∧
      p.Reads source e.stored locator e.text := by
  have hkept (hmem : e ∈ p.cache.entries) :
      ∃ a ∈ p.cache.entries, a.key = e.key ∧ a.text = e.text ∧ a.stored = e.stored :=
    ⟨e, hmem, rfl, rfl, rfl⟩
  cases call with
  | documentText source now locator =>
    rw [Call.apply] at h
    obtain ⟨-, heq⟩ | ⟨-, text, -, heq⟩ | ⟨-, -, error, -, heq⟩ | ⟨-, -, text, hread, heq⟩ :=
      documentText_cases p source now locator
    · rw [heq] at h
      exact .inl ⟨id, hkept h⟩
    · rw [heq] at h
      exact .inl ⟨id, TextCache.mem_of_mem_get h⟩
    · rw [heq] at h
      exact .inl ⟨id, TextCache.mem_of_mem_get h⟩
    · have hreads : p.Reads source now locator text := ⟨by rw [heq], hread⟩
      rw [heq] at h
      rcases TextCache.mem_of_mem_insert h with hold | rfl
      · exact .inl ⟨id, TextCache.mem_of_mem_get hold⟩
      · exact .inr ⟨source, locator, rfl, rfl, hreads⟩
  | fragmentAt source locator line column =>
    rw [Call.apply, cache_fragmentAt] at h
    exact .inl ⟨id, hkept h⟩
  | fragment source location =>
    rw [Call.apply, cache_fragment] at h
    exact .inl ⟨id, hkept h⟩
  | fragmentOf source location =>
    rw [Call.apply, cache_fragmentOf] at h
    exact .inl ⟨id, hkept h⟩
  | remove locator =>
    obtain ⟨hmem, hne⟩ := TextCache.mem_remove.1 h
    exact .inl ⟨fun hkey => hne (Eq.symm hkey), hkept hmem⟩
  | clear => cases h
  | toFront key => exact .inl ⟨id, hkept ((p.cache.perm_toFront key).mem_iff.1 h)⟩

private theorem run_append_singleton (calls : List Call) (call : Call) :
    start.run (calls ++ [call]) = call.apply (start.run calls) :=
  List.foldl_concat ..

private theorem limits_apply (call : Call) : (call.apply p).cache.limits = p.cache.limits := by
  cases call with
  | documentText source now locator =>
    rw [Call.apply]
    have hget : (p.cache.get (Text.trim locator) now).2.limits = p.cache.limits :=
      TextCache.limits_get
    obtain ⟨-, heq⟩ | ⟨-, text, -, heq⟩ | ⟨-, -, error, -, heq⟩ | ⟨-, -, text, -, heq⟩ :=
      documentText_cases p source now locator
    · rw [heq]
    · rw [heq, ← hget]
    · rw [heq, ← hget]
    · rw [heq, ← hget]
      exact TextCache.limits_apply (.insert _ text now)
  | fragmentAt source locator line column => rw [Call.apply, cache_fragmentAt]
  | fragment source location => rw [Call.apply, cache_fragment]
  | fragmentOf source location => rw [Call.apply, cache_fragmentOf]
  | remove locator => exact TextCache.limits_remove _
  | clear => rfl
  | toFront key => rfl

private theorem limits_run (calls : List Call) :
    (start.run calls).cache.limits = start.cache.limits := by
  induction calls using List.reverseRecOn with
  | nil => rfl
  | append_singleton calls call ih => rw [run_append_singleton, limits_apply, ih]

private theorem Remembers.append_singleton {calls : List Call} {call : Call} {key : String}
    {time : Nat} (h : start.Remembers calls key text time) (hcall : ¬ call.Forgets key) :
    start.Remembers (calls ++ [call]) key text time := by
  obtain ⟨earlier, source, locator, later, rfl, hkey, hreads, hlater⟩ := h
  refine ⟨earlier, source, locator, later ++ [call], by simp, hkey, hreads, fun other ho => ?_⟩
  rcases List.mem_append.1 ho with ho | ho
  · exact hlater other ho
  · rwa [List.mem_singleton.1 ho]

/-- Every entry of the cache was read in the run, at the time it says, and is remembered. -/
theorem remembers_of_mem_run (hstart : start.cache.entries = []) (calls : List Call) :
    ∀ e ∈ (start.run calls).cache.entries, start.Remembers calls e.key e.text e.stored := by
  induction calls using List.reverseRecOn with
  | nil =>
    intro e he
    have he : e ∈ start.cache.entries := he
    rw [hstart] at he
    cases he
  | append_singleton calls call ih =>
    intro e he
    rw [run_append_singleton] at he
    rcases mem_of_mem_apply he with ⟨hcall, a, ha, hkey, htext, hstored⟩ |
      ⟨source, locator, rfl, hkey, hreads⟩
    · have hremembers : start.Remembers (calls ++ [call]) a.key a.text a.stored :=
        (ih a ha).append_singleton (hkey ▸ hcall)
      rwa [hkey, htext, hstored] at hremembers
    · exact ⟨calls, source, locator, [], rfl, hkey, hreads, nofun⟩

/-- The text of a document was read in this call or is remembered from an earlier one. -/
theorem reads_or_remembers (hstart : start.cache.entries = []) (calls : List Call)
    (h : ((start.run calls).documentText source now locator).1 = .ok text) :
    (start.run calls).Reads source now locator text ∨
      ∃ time, now - time < start.cache.limits.age ∧
        start.Remembers calls (Text.trim locator) text time := by
  obtain ⟨-, heq⟩ | ⟨-, found, hget, heq⟩ | ⟨-, -, error, -, heq⟩ | ⟨-, -, found, hread, heq⟩ :=
    documentText_cases (start.run calls) source now locator
  · rw [heq] at h
    cases h
  · rw [heq] at h
    obtain rfl : found = text := Except.ok.inj h
    obtain ⟨e, he, hkey, rfl, hage⟩ := TextCache.exists_of_get hget
    rw [limits_run] at hage
    exact .inr ⟨e.stored, hage, hkey ▸ remembers_of_mem_run hstart calls e he⟩
  · rw [heq] at h
    cases h
  · have hreads : (start.run calls).documentText source now locator = _ := heq
    rw [heq] at h
    obtain rfl : found = text := Except.ok.inj h
    exact .inl ⟨by rw [hreads], hread⟩

/-- What a source that does not change has given it still gives. -/
theorem Remembers.read_eq {calls : List Call} {key : String} {time : Nat}
    (h : start.Remembers calls key text time) (hasks : ∀ call ∈ calls, call.Asks source) :
    source.read key = .ok text := by
  obtain ⟨earlier, asked, locator, later, rfl, rfl, ⟨-, hread⟩, -⟩ := h
  have hsame : asked.read = source.read := hasks (.documentText asked time locator) (by simp)
  rwa [← hsame]

/-- In every run, over sources that may change from call to call, a text that is handed out is what
the source gives in this call, or gave to an earlier one that is not too long ago and is not
forgotten. Over a source that does not change a provider answers like the source. Where there is a
locator, only the source fails, and then no entry is made or changed. Fragments neither read nor
change the cache. -/
theorem texts_of_source (limits : CacheLimits) (calls : List Call) :
    let start : Provider := { cache := { limits } }
    let p := start.run calls
    (∀ source now locator text, (p.documentText source now locator).1 = .ok text →
      p.Reads source now locator text ∨
        ∃ time, now - time < limits.age ∧
          start.Remembers calls (Text.trim locator) text time) ∧
    (∀ source, (∀ call ∈ calls, call.Asks source) → ∀ now locator,
      (p.documentText source now locator).1 = (checkedLocator locator).bind source.read) ∧
    (∀ source now locator e, Text.trim locator ≠ "" →
      (p.documentText source now locator).1 = .error e →
        source.read (Text.trim locator) = .error e ∧
          (p.documentText source now locator).2.cache.entries.Sublist p.cache.entries) ∧
    ∀ source (q : Provider),
      (∀ locator line column,
        (p.fragmentAt source locator line column).2.cache = p.cache ∧
          (p.fragmentAt source locator line column).1
            = (q.fragmentAt source locator line column).1) ∧
      (∀ location, (p.fragment source location).2.cache = p.cache ∧
        (p.fragment source location).1 = (q.fragment source location).1) ∧
      ∀ location, (p.fragmentOf source location).2.cache = p.cache ∧
        (p.fragmentOf source location).1 = (q.fragmentOf source location).1 := by
  intro start p
  refine ⟨fun source now locator text h => reads_or_remembers rfl calls h, ?_, ?_, ?_⟩
  · intro source hasks now locator
    have hchecked : checkedLocator locator
        = if Text.trim locator = "" then .error .emptyLocator else .ok (Text.trim locator) := rfl
    obtain ⟨hkey, heq⟩ | ⟨hkey, text, hget, heq⟩ | ⟨hkey, -, e, hread, heq⟩ |
      ⟨hkey, -, text, hread, heq⟩ := documentText_cases p source now locator
    · rw [heq, hchecked, if_pos hkey]
      rfl
    · obtain ⟨e, he, hkey', htext, -⟩ := TextCache.exists_of_get hget
      have hread := (remembers_of_mem_run rfl calls e he).read_eq hasks
      rw [heq, hchecked, if_neg hkey]
      show Except.ok text = source.read (Text.trim locator)
      rw [← hkey', hread, htext]
    · rw [heq, hchecked, if_neg hkey]
      exact hread.symm
    · rw [heq, hchecked, if_neg hkey]
      exact hread.symm
  · intro source now locator e hlocator h
    obtain ⟨hkey, -⟩ | ⟨-, text, -, heq⟩ | ⟨-, hnone, error, hread, heq⟩ | ⟨-, -, text, -, heq⟩ :=
      documentText_cases p source now locator
    · exact absurd hkey hlocator
    · rw [heq] at h
      cases h
    · rw [heq] at h ⊢
      obtain rfl : error = e := Except.error.inj h
      exact ⟨hread, TextCache.sublist_get_of_eq_none hnone⟩
    · rw [heq] at h
      cases h
  · intro source q
    exact ⟨fun locator line column =>
        ⟨cache_fragmentAt p source locator line column,
          fragmentAt_congr p q source locator line column⟩,
      fun location => ⟨cache_fragment p source location, fragment_congr p q source location⟩,
      fun location => ⟨cache_fragmentOf p source location, fragmentOf_congr p q source location⟩⟩

end Provider

end XsdCatalog
