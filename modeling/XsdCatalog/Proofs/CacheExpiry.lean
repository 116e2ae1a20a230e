import Mathlib.Data.List.Chain
import Mathlib.Data.List.Nodup
import XsdCatalog.Proofs.CacheBudget

/-!
# What a cache answers

A run of operations has a history: texts are stored and found, entries are dropped by request or to
make room. That an entry is dropped because it has expired, or that it comes to stand in front of the
others, is no event of the history. If times never decrease, the history alone tells what the cache
answers: the text that was stored last under the key, as long as nothing dropped it, it is not too
old, and no gap between its reads is too long.

An entry of the cache is live at a time if it has not expired then. Each operation changes what is
live as its events change what the history serves, so the two agree after every run.
-/

namespace XsdCatalog.TextCache

/-- What happens in a cache. -/
inductive Event
  | stored (key text : String) (time : Nat)
  | hit (key : String) (time : Nat)
  | removed (key : String)
  | evicted (key : String)
  | cleared

/-- The event stores or drops an entry with the key. -/
def Event.Settles (key : String) : Event → Prop
  | stored k _ _ => k = key
  | hit _ _ => False
  | removed k => k = key
  | evicted k => k = key
  | cleared => True

/-- The keys of the entries that an insertion drops to make room. -/
def evicted (c : TextCache) (key : String) (now size : Nat) : List String :=
  let swept := ((c.remove key).2).sweep now
  (swept.entries.filter fun e => !(swept.makeRoom size).entries.contains e).map (·.key)

/-- The events that an operation on a cache amounts to. -/
def Operation.events (c : TextCache) : Operation → List Event
  | get key now => if (c.get key now).1.isSome then [.hit key now] else []
  | insert key text now =>
    if (c.insert key text now).1 then
      (c.evicted key now (entrySize text)).map .evicted ++ [.stored key text now]
    else []
  | remove key => [.removed key]
  | clear => [.cleared]
  | toFront _ => []

/-- The events of a run, in their order. -/
def history (c : TextCache) : List Operation → List Event
  | [] => []
  | operation :: operations => operation.events c ++ history (operation.apply c) operations

def Operation.time? : Operation → Option Nat
  | get _ now => some now
  | insert _ _ now => some now
  | remove _ => none
  | clear => none
  | toFront _ => none

def times (operations : List Operation) : List Nat :=
  operations.filterMap Operation.time?

/-- The times at which the text with a key was found. -/
def hits (key : String) (events : List Event) : List Nat :=
  events.filterMap fun
    | .hit k time => if k = key then some time else none
    | _ => none

/-- The last event that stores or drops an entry with the key stored this text, which is not too old
now, and neither between its reads nor since the last one the cache was idle for too long. -/
def Serves (limits : CacheLimits) (events : List Event) (key text : String) (stored now : Nat) :
    Prop :=
  ∃ earlier later, events = earlier ++ .stored key text stored :: later ∧
    (∀ e ∈ later, ¬ e.Settles key) ∧ now - stored < limits.age ∧
    (stored :: (hits key later ++ [now])).IsChain fun t u => u - t < limits.idle

/-- The cache without the entries that have the keys of these. -/
def without (c : TextCache) (es : List CacheEntry) : TextCache :=
  es.foldl (fun c e => (c.remove e.key).2) c

section Serving

variable {limits : CacheLimits} {events : List Event} {key text : String} {stored time : Nat}

private theorem hits_append (key : String) (events more : List Event) :
    hits key (events ++ more) = hits key events ++ hits key more :=
  List.filterMap_append

/-- The last event is the one looked for, or it comes later. -/
theorem append_singleton_eq_iff {α : Type} {l earlier later : List α} {a b : α} :
    l ++ [b] = earlier ++ a :: later ↔
      (later = [] ∧ b = a ∧ l = earlier) ∨ ∃ rest, later = rest ++ [b] ∧ l = earlier ++ a :: rest := by
  constructor
  · intro h
    rcases List.eq_nil_or_concat later with rfl | ⟨rest, c, rfl⟩
    · obtain ⟨hl, hb⟩ := List.append_inj' h rfl
      exact .inl ⟨rfl, List.head_eq_of_cons_eq hb, hl⟩
    · rw [List.concat_eq_append, ← List.cons_append, ← List.append_assoc] at h
      obtain ⟨hl, hb⟩ := List.append_inj' h rfl
      obtain rfl := List.head_eq_of_cons_eq hb
      exact .inr ⟨rest, List.concat_eq_append, hl⟩
  · rintro (⟨rfl, rfl, rfl⟩ | ⟨rest, rfl, rfl⟩)
    · rfl
    · simp

private theorem not_serves_nil : ¬ Serves limits [] key text stored time := by
  rintro ⟨earlier, later, h, -⟩
  simp at h

/-- What comes behind an event that is no store under the key. -/
theorem serves_append_singleton {e : Event} (hne : ∀ t s, e ≠ .stored key t s) :
    Serves limits (events ++ [e]) key text stored time ↔ ¬ e.Settles key ∧
      ∃ earlier later, events = earlier ++ .stored key text stored :: later ∧
        (∀ e ∈ later, ¬ e.Settles key) ∧ time - stored < limits.age ∧
        (stored :: (hits key later ++ hits key [e] ++ [time])).IsChain
          fun t u => u - t < limits.idle := by
  constructor
  · rintro ⟨earlier, later, h, hlater, hage, hchain⟩
    rcases append_singleton_eq_iff.1 h with ⟨-, he, -⟩ | ⟨rest, rfl, hevents⟩
    · exact absurd he (hne _ _)
    · rw [hits_append] at hchain
      refine ⟨hlater e (by simp), earlier, rest, hevents, fun x hx => ?_, hage, hchain⟩
      exact hlater x (List.mem_append_left _ hx)
  · rintro ⟨he, earlier, rest, rfl, hlater, hage, hchain⟩
    refine ⟨earlier, rest ++ [e], by simp, fun x hx => ?_, hage, ?_⟩
    · rcases List.mem_append.1 hx with hx | hx
      · exact hlater x hx
      · rwa [List.mem_singleton.1 hx]
    · rwa [hits_append]

/-- An event that stores nothing, and is no hit of the key, serves what was served if it drops no
entry with the key. -/
theorem serves_append_other {e : Event} (hne : ∀ t s, e ≠ .stored key t s)
    (hhit : hits key [e] = []) :
    Serves limits (events ++ [e]) key text stored time ↔
      ¬ e.Settles key ∧ Serves limits events key text stored time := by
  rw [serves_append_singleton hne, hhit]
  simp only [List.append_nil]
  rfl

private theorem serves_append_evicted (keys : List String) :
    Serves limits (events ++ keys.map .evicted) key text stored time ↔
      key ∉ keys ∧ Serves limits events key text stored time := by
  induction keys generalizing events with
  | nil => simp
  | cons k keys ih =>
    rw [List.map_cons, List.append_cons, ih, serves_append_other (by simp) rfl, List.mem_cons, not_or,
      ← and_assoc, and_comm (a := key ∉ keys)]
    exact and_congr_left' (and_congr_left' (not_congr eq_comm))

private theorem serves_append_hit {now : Nat} (hle : now ≤ time) :
    Serves limits (events ++ [.hit key now]) key text stored time ↔
      Serves limits events key text stored now ∧ time - now < limits.idle ∧
        time - stored < limits.age := by
  have hhits : hits key [.hit key now] = [now] := by simp [hits]
  have hchain (row : List Nat) :
      (stored :: (row ++ [now] ++ [time])).IsChain (fun t u => u - t < limits.idle) ↔
        (stored :: (row ++ [now])).IsChain (fun t u => u - t < limits.idle) ∧
          time - now < limits.idle := by
    rw [List.append_assoc, List.singleton_append, ← List.cons_append, List.isChain_split,
      List.cons_append, List.isChain_pair]
  rw [serves_append_singleton (by simp), hhits]
  simp only [hchain]
  constructor
  · rintro ⟨-, earlier, later, hevents, hlater, hage, hread, hidle⟩
    exact ⟨⟨earlier, later, hevents, hlater, by omega, hread⟩, hidle, hage⟩
  · rintro ⟨⟨earlier, later, hevents, hlater, -, hread⟩, hidle, hage⟩
    exact ⟨id, earlier, later, hevents, hlater, hage, hread, hidle⟩

private theorem serves_append_stored {text' : String} {now : Nat} :
    Serves limits (events ++ [.stored key text' now]) key text stored time ↔
      text = text' ∧ stored = now ∧ time - now < limits.idle ∧ time - now < limits.age := by
  constructor
  · rintro ⟨earlier, later, h, hlater, hage, hchain⟩
    rcases append_singleton_eq_iff.1 h with ⟨rfl, he, -⟩ | ⟨rest, rfl, -⟩
    · cases he
      exact ⟨rfl, rfl, by simpa [hits] using hchain, hage⟩
    · exact absurd rfl (hlater (.stored key text' now) (by simp))
  · rintro ⟨rfl, rfl, hidle, hage⟩
    exact ⟨events, [], rfl, nofun, hage, by simpa [hits] using hidle⟩

end Serving

/-- The entries that have not expired at a time. -/
def fresh (c : TextCache) (now : Nat) : List CacheEntry :=
  c.entries.filter fun e => !e.expired c.limits now

/-- There is an entry with the text that has not expired. -/
def Live (c : TextCache) (key text : String) (stored now : Nat) : Prop :=
  ∃ e ∈ c.fresh now, e.key = key ∧ e.text = text ∧ e.stored = stored

variable {c d : TextCache} {key text : String} {stored now time : Nat}

private theorem expired_mono {limits : CacheLimits} {e : CacheEntry} (hle : now ≤ time)
    (h : e.expired limits now = true) : e.expired limits time = true := by
  simp only [CacheEntry.expired, Bool.or_eq_true, decide_eq_true_eq] at h ⊢
  omega

private theorem mem_fresh {e : CacheEntry} :
    e ∈ c.fresh now ↔ e ∈ c.entries ∧ e.expired c.limits now = false := by
  rw [fresh, List.mem_filter, Bool.not_eq_true']

/-- What is fresh later is picked from what is fresh now. -/
theorem fresh_eq_filter (hle : now ≤ time) :
    c.fresh time = (c.fresh now).filter fun e => !e.expired c.limits time := by
  rw [fresh, fresh, List.filter_filter]
  refine List.filter_congr fun e _ => ?_
  cases hnow : e.expired c.limits now with
  | false => simp
  | true => simp [expired_mono hle hnow]

private theorem Live.mono (hle : now ≤ time) (h : Live c key text stored time) :
    Live c key text stored now := by
  obtain ⟨e, he, hkey⟩ := h
  rw [fresh_eq_filter hle] at he
  exact ⟨e, (List.mem_filter.1 he).1, hkey⟩

theorem Balanced.eq_of_key_eq (h : Balanced c) {e e' : CacheEntry} (he : e ∈ c.entries)
    (he' : e' ∈ c.entries) (hkey : e.key = e'.key) : e = e' :=
  List.inj_on_of_nodup_map h.nodup he he' hkey

private theorem Balanced.find?_eq_some_iff (h : Balanced c) {e : CacheEntry} :
    c.find? key = some e ↔ e ∈ c.entries ∧ e.key = key := by
  refine ⟨mem_of_find?, fun ⟨he, hkey⟩ => ?_⟩
  have hfound : (c.find? key).isSome := List.find?_isSome.2 ⟨e, he, by simpa using hkey⟩
  obtain ⟨e', he'⟩ := Option.isSome_iff_exists.1 hfound
  obtain ⟨hmem, hkey'⟩ := mem_of_find? he'
  rwa [h.eq_of_key_eq he hmem (hkey.trans hkey'.symm)]

private theorem Balanced.get_eq_some_iff (h : Balanced c) :
    (c.get key now).1 = some text ↔ ∃ stored, Live c key text stored now := by
  rw [TextCache.get]
  constructor
  · intro hget
    split at hget
    · cases hget
    · next e he =>
      obtain ⟨hmem, hkey⟩ := mem_of_find? he
      split at hget
      · cases hget
      · next hfresh =>
        exact ⟨e.stored, e, mem_fresh.2 ⟨hmem, by simpa using hfresh⟩, hkey,
          Option.some.inj hget, rfl⟩
  · rintro ⟨stored, e, he, hkey, rfl, -⟩
    obtain ⟨hmem, hfresh⟩ := mem_fresh.1 he
    simp [h.find?_eq_some_iff.2 ⟨hmem, hkey⟩, hfresh]

private theorem Balanced.get_eq_none_iff (h : Balanced c) :
    (c.get key now).1 = none ↔ ∀ e ∈ c.fresh now, e.key ≠ key := by
  rw [Option.eq_none_iff_forall_ne_some]
  constructor
  · intro hnone e he hkey
    exact hnone e.text (h.get_eq_some_iff.2 ⟨e.stored, e, he, hkey, rfl, rfl⟩)
  · intro hne text hsome
    obtain ⟨stored, e, he, hkey, -⟩ := h.get_eq_some_iff.1 hsome
    exact hne e he hkey

private theorem entries_without (es : List CacheEntry) :
    (c.without es).entries = c.entries.filter fun e => !(es.map (·.key)).contains e.key := by
  induction es generalizing c with
  | nil => simp [without]
  | cons a es ih =>
    rw [without, List.foldl_cons]
    refine ih.trans ?_
    rw [entries_remove, List.filter_filter]
    refine List.filter_congr fun e _ => ?_
    rw [List.map_cons, List.contains_cons, Bool.not_or, Bool.and_comm]
    rfl

private theorem limits_without (es : List CacheEntry) : (c.without es).limits = c.limits :=
  limits_foldl_remove es

/-- To drop expired entries changes nothing that is fresh. -/
theorem Balanced.fresh_without (h : Balanced c) {es : List CacheEntry}
    (hes : ∀ e ∈ es, e ∈ c.entries ∧ e.expired c.limits now = true) :
    (c.without es).fresh now = c.fresh now := by
  rw [fresh, entries_without, limits_without, List.filter_filter, fresh]
  refine List.filter_congr fun e he => ?_
  cases hfresh : e.expired c.limits now with
  | true => simp
  | false =>
    have hne : e.key ∉ es.map (·.key) := by
      intro hm
      obtain ⟨a, ha, hkey⟩ := List.mem_map.1 hm
      obtain ⟨hmem, hexpired⟩ := hes a ha
      obtain rfl := h.eq_of_key_eq hmem he hkey
      rw [hfresh] at hexpired
      cases hexpired
    simpa using hne

theorem Balanced.entries_sweep (h : Balanced c) (now : Nat) :
    (c.sweep now).entries = c.fresh now := by
  show (c.without (c.entries.filter (CacheEntry.expired c.limits now))).entries = c.fresh now
  rw [entries_without, fresh]
  refine List.filter_congr fun e he => ?_
  congr 1
  rw [Bool.eq_iff_iff, List.contains_iff_mem, List.mem_map]
  constructor
  · rintro ⟨a, ha, hkey⟩
    obtain ⟨hmem, hexpired⟩ := List.mem_filter.1 ha
    rwa [← h.eq_of_key_eq hmem he hkey]
  · exact fun hexpired => ⟨e, List.mem_filter.2 ⟨he, hexpired⟩, rfl⟩

theorem fresh_remove : (c.remove key).2.fresh now = (c.fresh now).filter (·.key != key) := by
  rw [fresh, entries_remove, limits_remove, List.filter_filter, fresh, List.filter_filter]
  exact List.filter_congr fun e _ => Bool.and_comm ..

/-- An entry that was read now. -/
def touch (key : String) (now : Nat) (e : CacheEntry) : CacheEntry :=
  if e.key == key then { e with lastRead := now } else e

theorem limits_get : (c.get key now).2.limits = c.limits :=
  limits_apply (.get key now)

private theorem Balanced.fresh_get (h : Balanced c) :
    (c.get key now).2.fresh now = (c.fresh now).map (touch key now) := by
  -- where there is no fresh entry with the key, nothing is touched
  have huntouched (hne : ∀ e ∈ c.fresh now, e.key ≠ key) :
      (c.fresh now).map (touch key now) = c.fresh now := by
    refine (List.map_congr_left fun e he => ?_).trans (List.map_id _)
    simp [touch, hne e he]
  rw [TextCache.get]
  split
  · next hnone =>
    rw [huntouched]
    intro e he
    have hne := List.find?_eq_none.1 hnone e (mem_fresh.1 he).1
    simpa using hne
  · next e he =>
    obtain ⟨hmem, hkey⟩ := mem_of_find? he
    split
    · next hexpired =>
      have hne : ∀ a ∈ c.fresh now, a.key ≠ key := by
        intro a ha hakey
        obtain ⟨hamem, hafresh⟩ := mem_fresh.1 ha
        obtain rfl := h.eq_of_key_eq hamem hmem (hakey.trans hkey.symm)
        rw [hafresh] at hexpired
        cases hexpired
      rw [huntouched hne, fresh_remove]
      exact List.filter_eq_self.2 fun a ha => by simpa using hne a ha
    · next hfresh =>
      show ((c.entries.map (touch key now)).filter _) = _
      rw [List.filter_map, fresh]
      congr 1
      refine List.filter_congr fun a ha => ?_
      by_cases hakey : a.key = key
      · obtain rfl := h.eq_of_key_eq ha hmem (hakey.trans hkey.symm)
        simp only [CacheEntry.expired, Bool.or_eq_true, decide_eq_true_eq, not_or] at hfresh
        simp only [Function.comp_apply, touch, hakey, beq_self_eq_true, if_true,
          CacheEntry.expired, Nat.sub_self]
        have hidle : ¬ c.limits.idle ≤ 0 := by omega
        simp [hfresh, hidle]
      · simp [touch, hakey]

private theorem Balanced.entries_cleared_subset (h : Balanced c) {size : Nat} {e : CacheEntry}
    (he : e ∈ (c.cleared key now size).entries) : e ∈ c.fresh now ∧ e.key ≠ key := by
  have hswept := mem_of_mem_makeRoom he
  rw [(h.remove key).entries_sweep now, fresh_remove, List.mem_filter, bne_iff_ne] at hswept
  exact hswept

/-- What an insertion keeps, apart from its own entry, was fresh and is not evicted. -/
theorem Balanced.mem_cleared_iff (h : Balanced c) {size : Nat} {e : CacheEntry} :
    e ∈ (c.cleared key now size).entries ↔
      e ∈ c.fresh now ∧ e.key ≠ key ∧ e.key ∉ c.evicted key now size := by
  have hswept : ∀ a, a ∈ (((c.remove key).2).sweep now).entries ↔ a ∈ c.fresh now ∧ a.key ≠ key := by
    intro a
    rw [(h.remove key).entries_sweep now, fresh_remove, List.mem_filter, bne_iff_ne]
  constructor
  · intro he
    obtain ⟨hfresh, hkey⟩ := h.entries_cleared_subset he
    refine ⟨hfresh, hkey, fun hevicted => ?_⟩
    obtain ⟨a, ha, hakey⟩ := List.mem_map.1 hevicted
    obtain ⟨hamem, hagone⟩ := List.mem_filter.1 ha
    have hsame := h.eq_of_key_eq (mem_fresh.1 ((hswept a).1 hamem).1).1 (mem_fresh.1 hfresh).1 hakey
    rw [hsame] at hagone
    simp only [Bool.not_eq_true', List.contains_eq_mem, decide_eq_false_iff_not] at hagone
    exact hagone he
  · rintro ⟨hfresh, hkey, hkept⟩
    by_contra hgone
    refine hkept (List.mem_map.2 ⟨e, List.mem_filter.2 ⟨(hswept e).2 ⟨hfresh, hkey⟩, ?_⟩, rfl⟩)
    rw [TextCache.cleared] at hgone
    simpa using hgone

private theorem live_remove {k : String} :
    Live (c.remove k).2 key text stored time ↔ k ≠ key ∧ Live c key text stored time := by
  simp only [Live, fresh_remove, List.mem_filter, bne_iff_ne]
  constructor
  · rintro ⟨e, ⟨he, hne⟩, rfl, htext⟩
    exact ⟨Ne.symm hne, e, he, rfl, htext⟩
  · rintro ⟨hne, e, he, rfl, htext⟩
    exact ⟨e, ⟨he, Ne.symm hne⟩, rfl, htext⟩

private theorem not_live_clear : ¬ Live c.clear key text stored time := by
  rintro ⟨e, he, -⟩
  cases he

private theorem fresh_toFront {k : String} : (c.toFront k).fresh now
    = (c.fresh now).filter (·.key == k) ++ (c.fresh now).filter (·.key != k) := by
  rw [fresh, fresh, toFront, List.filter_append, List.filter_filter, List.filter_filter,
    List.filter_filter, List.filter_filter]
  exact congrArg₂ _ (List.filter_congr fun e _ => Bool.and_comm ..)
    (List.filter_congr fun e _ => Bool.and_comm ..)

private theorem live_toFront {k : String} :
    Live (c.toFront k) key text stored time ↔ Live c key text stored time := by
  simp only [Live, mem_fresh, (c.perm_toFront k).mem_iff]
  rfl

/-- What is live after a read: what was live, and the entry that was read is live for longer. -/
theorem Balanced.live_get (h : Balanced c) {k : String} (hle : now ≤ time) :
    Live (c.get k now).2 key text stored time ↔
      if k = key then
        Live c key text stored now ∧ time - now < c.limits.idle ∧ time - stored < c.limits.age
      else Live c key text stored time := by
  have hlive : Live (c.get k now).2 key text stored time ↔ ∃ e ∈ c.fresh now,
      (touch k now e).expired c.limits time = false ∧ (touch k now e).key = key ∧
        (touch k now e).text = text ∧ (touch k now e).stored = stored := by
    simp only [Live, fresh_eq_filter hle, h.fresh_get, limits_get, List.mem_filter, List.mem_map,
      Bool.not_eq_true']
    constructor
    · rintro ⟨_, ⟨⟨e, he, rfl⟩, hfresh⟩, hrest⟩
      exact ⟨e, he, hfresh, hrest⟩
    · rintro ⟨e, he, hfresh, hrest⟩
      exact ⟨_, ⟨⟨e, he, rfl⟩, hfresh⟩, hrest⟩
  have hkey (e : CacheEntry) : (touch k now e).key = e.key := by
    rw [touch]
    split <;> rfl
  rw [hlive]
  simp only [hkey]
  split
  · next hk =>
    subst hk
    constructor
    · rintro ⟨e, he, hfresh, hkey, htext, hstored⟩
      simp only [touch, hkey, beq_self_eq_true, if_true] at hfresh htext hstored
      simp only [CacheEntry.expired, Bool.or_eq_false_iff, decide_eq_false_iff_not] at hfresh
      refine ⟨⟨e, he, hkey, htext, hstored⟩, by omega, by omega⟩
    · rintro ⟨⟨e, he, hkey, htext, hstored⟩, hidle, hage⟩
      refine ⟨e, he, ?_, hkey, ?_⟩
      · simp only [touch, hkey, beq_self_eq_true, if_true, CacheEntry.expired,
          Bool.or_eq_false_iff, decide_eq_false_iff_not]
        omega
      · simp only [touch, hkey, beq_self_eq_true, if_true]
        exact ⟨htext, hstored⟩
  · next hk =>
    have huntouched {e : CacheEntry} (he : e.key = key) : touch k now e = e := by
      simp [touch, he, Ne.symm hk]
    rw [Live, fresh_eq_filter hle]
    constructor
    · rintro ⟨e, he, hfresh, hkey, hrest⟩
      rw [huntouched hkey] at hfresh hrest
      exact ⟨e, List.mem_filter.2 ⟨he, by simpa using hfresh⟩, hkey, hrest⟩
    · rintro ⟨e, he, hkey, hrest⟩
      obtain ⟨he, hfresh⟩ := List.mem_filter.1 he
      refine ⟨e, he, ?_⟩
      rw [huntouched hkey]
      exact ⟨by simpa using hfresh, hkey, hrest⟩

/-- What is live after an insertion: its own text, and what was live and is not evicted. -/
theorem Balanced.live_insert (h : Balanced c) {k t : String} (hf : Fits c.limits t)
    (hle : now ≤ time) :
    Live (c.insert k t now).2 key text stored time ↔
      if k = key then
        text = t ∧ stored = now ∧ time - now < c.limits.idle ∧ time - now < c.limits.age
      else key ∉ c.evicted k now (entrySize t) ∧ Live c key text stored time := by
  have hlive : Live (c.insert k t now).2 key text stored time ↔
      ∃ e, (e ∈ (c.cleared k now (entrySize t)).entries ∨ e = ⟨k, t, entrySize t, now, now⟩) ∧
        e.expired c.limits time = false ∧ e.key = key ∧ e.text = text ∧ e.stored = stored := by
    simp only [Live, mem_fresh, insert_of_fits hf, List.mem_append, List.mem_singleton,
      limits_cleared, and_assoc]
  rw [hlive]
  split
  · next hk =>
    subst hk
    constructor
    · rintro ⟨e, he | rfl, hfresh, hkey, htext, hstored⟩
      · exact absurd hkey (key_ne_of_mem_cleared he)
      · simp only [CacheEntry.expired, Bool.or_eq_false_iff, decide_eq_false_iff_not] at hfresh
        exact ⟨htext.symm, hstored.symm, by omega, by omega⟩
    · rintro ⟨rfl, rfl, hidle, hage⟩
      refine ⟨_, .inr rfl, ?_, rfl, rfl, rfl⟩
      simp only [CacheEntry.expired, Bool.or_eq_false_iff, decide_eq_false_iff_not]
      omega
  · next hk =>
    constructor
    · rintro ⟨e, he | rfl, hfresh, rfl, hrest⟩
      · obtain ⟨he, -, hkept⟩ := h.mem_cleared_iff.1 he
        exact ⟨hkept, e, mem_fresh.2 ⟨(mem_fresh.1 he).1, hfresh⟩, rfl, hrest⟩
      · exact absurd rfl hk
    · rintro ⟨hkept, e, he, rfl, hrest⟩
      have hnow : e ∈ c.fresh now := by
        rw [fresh_eq_filter hle] at he
        exact (List.mem_filter.1 he).1
      exact ⟨e, .inl (h.mem_cleared_iff.2 ⟨hnow, Ne.symm hk, hkept⟩), (mem_fresh.1 he).2, rfl, hrest⟩

/-- From a time on, the history serves exactly what is live. -/
structure Tracks (c : TextCache) (events : List Event) (now : Nat) : Prop where
  balanced : Balanced c
  serves_iff : ∀ key text stored time, now ≤ time →
    (Serves c.limits events key text stored time ↔ Live c key text stored time)

private theorem tracks_start (limits : CacheLimits) (now : Nat) : Tracks { limits } [] now where
  balanced := balanced_start limits
  serves_iff _ _ _ _ _ := iff_of_false not_serves_nil fun ⟨_, he, _⟩ => nomatch he

private theorem Tracks.mono {events : List Event} (h : Tracks c events now) (hle : now ≤ time) :
    Tracks c events time where
  balanced := h.balanced
  serves_iff key text stored later hl := h.serves_iff key text stored later (hle.trans hl)

private theorem Tracks.get {events : List Event} (h : Tracks c events now) (k : String)
    (hle : now ≤ time) :
    Tracks (c.get k time).2 (events ++ (Operation.get k time).events c) time where
  balanced := h.balanced.get k time
  serves_iff key text stored later hl := by
    rw [limits_get, h.balanced.live_get hl, Operation.events]
    have hserves := h.serves_iff key text stored
    cases hget : (c.get k time).1 with
    | some found =>
      rw [Option.isSome_some, if_pos rfl]
      split
      · next hk =>
        subst hk
        rw [serves_append_hit hl, hserves time hle]
      · next hk =>
        rw [serves_append_other (by simp) (by simp [hits, hk]), hserves later (hle.trans hl)]
        exact and_iff_right id
    | none =>
      rw [Option.isSome_none, if_neg nofun, List.append_nil, hserves later (hle.trans hl)]
      split
      · next hk =>
        subst hk
        have hdead : ¬ Live c k text stored time := fun ⟨e, he, hkey, _⟩ =>
          h.balanced.get_eq_none_iff.1 hget e he hkey
        exact iff_of_false (fun hlive => hdead (hlive.mono hl)) fun hlive => hdead hlive.1
      · rfl

private theorem Tracks.insert {events : List Event} (h : Tracks c events now) (k t : String)
    (hle : now ≤ time) :
    Tracks (c.insert k t time).2 (events ++ (Operation.insert k t time).events c) time where
  balanced := h.balanced.insert k t time
  serves_iff key text stored later hl := by
    have hserves := h.serves_iff key text stored later (hle.trans hl)
    rw [Operation.events]
    by_cases hf : Fits c.limits t
    · rw [h.balanced.live_insert hf hl, insert_of_fits hf, if_pos rfl, ← List.append_assoc,
        limits_cleared]
      split
      · next hk =>
        subst hk
        exact serves_append_stored
      · next hk =>
        have hne : ∀ t' s, Event.stored k t time ≠ .stored key t' s := by
          rintro t' s ⟨⟩
          exact hk rfl
        rw [serves_append_other hne rfl, serves_append_evicted, hserves]
        exact and_iff_right hk
    · rw [insert_of_not_fits hf, if_neg nofun, List.append_nil]
      exact hserves

private theorem Tracks.apply {events : List Event} (h : Tracks c events now) (operation : Operation)
    (hle : ∀ time ∈ operation.time?, now ≤ time) :
    Tracks (operation.apply c) (events ++ operation.events c) (operation.time?.getD now) := by
  cases operation with
  | get key time => exact h.get key (hle time rfl)
  | insert key text time => exact h.insert key text (hle time rfl)
  | remove k =>
    refine ⟨h.balanced.remove k, fun key text stored later hl => ?_⟩
    rw [Operation.apply, limits_remove, live_remove, ← h.serves_iff key text stored later hl]
    exact serves_append_other (by simp) rfl
  | clear =>
    refine ⟨balanced_start c.limits, fun key text stored later hl => ?_⟩
    refine iff_of_false (fun hserves => ?_) not_live_clear
    exact ((serves_append_other (by simp) rfl).1 hserves).1 trivial
  | toFront k =>
    refine ⟨h.balanced.toFront k, fun key text stored later hl => ?_⟩
    rw [Operation.events, List.append_nil, Operation.apply, live_toFront]
    exact h.serves_iff key text stored later hl

/-- Times never decrease along a run that starts at one time and ends at another. -/
theorem le_of_isChain {operation : Operation} {operations : List Operation}
    (h : (now :: (times (operation :: operations) ++ [time])).IsChain (· ≤ ·)) :
    (∀ t ∈ operation.time?, now ≤ t) ∧
      (operation.time?.getD now :: (times operations ++ [time])).IsChain (· ≤ ·) := by
  rw [times, List.filterMap_cons] at h
  cases ht : operation.time? with
  | none =>
    rw [ht] at h
    exact ⟨nofun, h⟩
  | some t =>
    rw [ht, List.cons_append, List.isChain_cons_cons] at h
    exact ⟨fun _ ht' => Option.some.inj ht' ▸ h.1, h.2⟩

private theorem Tracks.run {events : List Event} (h : Tracks c events now)
    {operations : List Operation} (hle : (now :: (times operations ++ [time])).IsChain (· ≤ ·)) :
    Tracks (c.run operations) (events ++ c.history operations) time := by
  induction operations generalizing c events now with
  | nil =>
    rw [history, List.append_nil]
    exact h.mono (by simpa [times] using hle)
  | cons operation operations ih =>
    obtain ⟨hfirst, hrest⟩ := le_of_isChain hle
    rw [history, ← List.append_assoc]
    exact ih (h.apply operation hfirst) hrest

/-- The caches differ in expired entries only. -/
structure Alike (now : Nat) (c d : TextCache) : Prop where
  balanced : Balanced c ∧ Balanced d
  limits_eq : c.limits = d.limits
  fresh_eq : c.fresh now = d.fresh now

private theorem Alike.mono (h : Alike now c d) (hle : now ≤ time) : Alike time c d where
  balanced := h.balanced
  limits_eq := h.limits_eq
  fresh_eq := by rw [fresh_eq_filter hle, fresh_eq_filter hle, h.fresh_eq, h.limits_eq]

private theorem Alike.get_eq (h : Alike now c d) (key : String) :
    (c.get key now).1 = (d.get key now).1 := by
  refine Option.ext fun text => ?_
  rw [h.balanced.1.get_eq_some_iff, h.balanced.2.get_eq_some_iff]
  simp only [Live, h.fresh_eq]

/-- Sweeping drops all that two such caches differ in. -/
theorem Alike.cleared_eq (h : Alike now c d) (key : String) (size : Nat) :
    c.cleared key now size = d.cleared key now size := by
  have hswept {b : TextCache} (hb : Balanced b) :
      ((b.remove key).2).sweep now
        = ⟨b.limits, (b.fresh now).filter (·.key != key),
            (((b.fresh now).filter (·.key != key)).map (·.size)).sum⟩ := by
    have hentries := (hb.remove key).entries_sweep now
    have hbalanced : Balanced (((b.remove key).2).sweep now) :=
      balanced_foldl_remove _ (hb.remove key)
    have hlimits : (((b.remove key).2).sweep now).limits = b.limits :=
      (limits_foldl_remove _).trans (limits_remove key)
    have htotal := hbalanced.total_eq
    rw [hentries, fresh_remove] at htotal
    rw [fresh_remove] at hentries
    rw [← hlimits, ← hentries, hentries, ← htotal, ← hentries]
  rw [cleared, cleared, hswept h.balanced.1, hswept h.balanced.2, h.limits_eq, h.fresh_eq]

private theorem Alike.apply (h : Alike now c d) (operation : Operation)
    (hle : ∀ time ∈ operation.time?, now ≤ time) :
    Alike (operation.time?.getD now) (operation.apply c) (operation.apply d) := by
  refine ⟨⟨h.balanced.1.apply operation, h.balanced.2.apply operation⟩, ?_, ?_⟩
  · rw [limits_apply, limits_apply, h.limits_eq]
  · cases operation with
    | get key time =>
      have htime := h.mono (hle time rfl)
      show (c.get key time).2.fresh time = (d.get key time).2.fresh time
      rw [h.balanced.1.fresh_get, h.balanced.2.fresh_get, htime.fresh_eq]
    | insert key text time =>
      have htime := h.mono (hle time rfl)
      show (c.insert key text time).2.fresh time = (d.insert key text time).2.fresh time
      by_cases hf : Fits c.limits text
      · rw [insert_of_fits hf, insert_of_fits (h.limits_eq ▸ hf), htime.cleared_eq]
      · rw [insert_of_not_fits hf, insert_of_not_fits (h.limits_eq ▸ hf), htime.fresh_eq]
    | remove key =>
      show (c.remove key).2.fresh now = (d.remove key).2.fresh now
      rw [fresh_remove, fresh_remove, h.fresh_eq]
    | clear => rfl
    | toFront key =>
      show (c.toFront key).fresh now = (d.toFront key).fresh now
      rw [fresh_toFront, fresh_toFront, h.fresh_eq]

private theorem Alike.run (h : Alike now c d) {operations : List Operation}
    (hle : (now :: (times operations ++ [time])).IsChain (· ≤ ·)) :
    Alike time (c.run operations) (d.run operations) := by
  induction operations generalizing c d now with
  | nil => exact h.mono (by simpa [times] using hle)
  | cons operation operations ih =>
    obtain ⟨hfirst, hrest⟩ := le_of_isChain hle
    exact ih (h.apply operation hfirst) hrest

private theorem Balanced.alike_without (h : Balanced c) {es : List CacheEntry}
    (hes : ∀ e ∈ es, e ∈ c.entries ∧ e.expired c.limits now = true) :
    Alike now (c.without es) c where
  balanced := ⟨balanced_foldl_remove es h, h⟩
  limits_eq := limits_without es
  fresh_eq := h.fresh_without hes

private theorem Balanced.live_of_apply (h : Balanced c) {operation : Operation}
    (hle : ∀ time ∈ operation.time?, now ≤ time)
    (hno : ∀ text stored, Event.stored key text stored ∉ operation.events c)
    (hlive : Live (operation.apply c) key text stored (operation.time?.getD now)) :
    Live c key text stored now := by
  cases operation with
  | get k time =>
    have hlive : Live (c.get k time).2 key text stored time := hlive
    rw [h.live_get (Nat.le_refl time)] at hlive
    split at hlive
    · exact hlive.1.mono (hle time rfl)
    · exact hlive.mono (hle time rfl)
  | insert k t time =>
    have hlive : Live (c.insert k t time).2 key text stored time := hlive
    by_cases hf : Fits c.limits t
    · rw [h.live_insert hf (Nat.le_refl time)] at hlive
      split at hlive
      · next hk =>
        subst hk
        refine absurd ?_ (hno t time)
        simp [Operation.events, insert_of_fits hf]
      · exact hlive.2.mono (hle time rfl)
    · rw [insert_of_not_fits hf] at hlive
      exact hlive.mono (hle time rfl)
  | remove k => exact (live_remove.1 hlive).2
  | clear => exact absurd hlive not_live_clear
  | toFront k => exact live_toFront.1 hlive

/-- What is live behind a run was live before it, unless the run stores it. -/
theorem Balanced.live_of_run (h : Balanced c) {operations : List Operation}
    (hle : (now :: (times operations ++ [time])).IsChain (· ≤ ·))
    (hno : ∀ text stored, Event.stored key text stored ∉ c.history operations)
    (hlive : Live (c.run operations) key text stored time) : Live c key text stored now := by
  induction operations generalizing c now with
  | nil => exact hlive.mono (by simpa [times] using hle)
  | cons operation operations ih =>
    obtain ⟨hfirst, hrest⟩ := le_of_isChain hle
    rw [history] at hno
    refine h.live_of_apply hfirst (fun t s hm => hno t s (List.mem_append_left _ hm)) ?_
    exact ih (h.apply operation) hrest (fun t s hm => hno t s (List.mem_append_right _ hm)) hlive

/-- If times never decrease, a cache answers with a text exactly if its history serves it. So no
later answer changes if expired entries are dropped early, and what is not found under a key is not
found later, unless it is stored again. -/
theorem get_of_history (limits : CacheLimits) {operations : List Operation} {now : Nat}
    (hle : (times operations ++ [now]).IsChain (· ≤ ·)) (key : String) :
    let c := run { limits } operations
    (∀ text, (c.get key now).1 = some text ↔
      ∃ stored, Serves limits (history { limits } operations) key text stored now) ∧
    ∀ later time, (now :: (times later ++ [time])).IsChain (· ≤ ·) →
      (∀ es, (∀ e ∈ es, e ∈ c.entries ∧ e.expired limits now = true) →
        (((c.without es).run later).get key time).1 = ((c.run later).get key time).1) ∧
      ((c.get key now).1 = none →
        (∀ text stored, Event.stored key text stored ∉ c.history later) →
        ((c.run later).get key time).1 = none) := by
  intro c
  have hlimits : c.limits = limits := limits_run operations
  have hstart : (0 :: (times operations ++ [now])).IsChain (· ≤ ·) :=
    hle.cons fun _ _ => Nat.zero_le _
  have htracks : Tracks c (history { limits } operations) now := (tracks_start limits 0).run hstart
  have hbalanced := htracks.balanced
  refine ⟨fun text => ?_, fun later time hlater => ⟨fun es hes => ?_, fun hnone hno => ?_⟩⟩
  · rw [hbalanced.get_eq_some_iff]
    refine exists_congr fun stored => ?_
    have hserves := htracks.serves_iff key text stored now (Nat.le_refl now)
    rw [hlimits] at hserves
    exact hserves.symm
  · exact ((hbalanced.alike_without (hlimits ▸ hes)).run hlater).get_eq key
  · have hafter := hbalanced.run later
    rw [hafter.get_eq_none_iff]
    intro e he hkey
    obtain ⟨a, ha, hakey, -⟩ :=
      hbalanced.live_of_run hlater hno ⟨e, he, hkey, rfl, rfl⟩
    exact hbalanced.get_eq_none_iff.1 hnone a ha hakey

/-- A text that is read again and again, and another one that is stored meanwhile. -/
def rereadOperations : List Operation :=
  [.insert "a" "x" 0, .get "a" 9, .insert "b" "y" 18, .get "a" 18, .get "c" 20]

/-- No read comes ten units after the one before, so only its age ends the text. -/
theorem get_of_rereadOperations :
    let limits : CacheLimits := { idle := 10, age := 25 }
    let c := run { limits } rereadOperations
    (times rereadOperations ++ [24]).IsChain (· ≤ ·) ∧ (c.get "a" 24).1 = some "x" ∧
      (∃ stored, Serves limits (history { limits } rereadOperations) "a" "x" stored 24) ∧
      (c.get "a" 25).1 = none := by
  intro limits c
  have hle : (times rereadOperations ++ [24]).IsChain (· ≤ ·) := by decide
  have hget : (c.get "a" 24).1 = some "x" := by decide +kernel
  exact ⟨hle, hget, ((get_of_history limits hle "a").1 "x").1 hget, by decide +kernel⟩

end XsdCatalog.TextCache
