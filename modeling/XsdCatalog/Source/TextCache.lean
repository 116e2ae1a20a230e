import XsdCatalog.Text.Units

/-!
# The cache of document texts

Texts are kept within a budget, measured as two bytes for each UTF-16 code unit. A text that is too
large is not kept. An entry expires when it was not read for a while, and at the latest a fixed
time after it was stored; expired entries are dropped when they are met. If the budget is used up,
the entry that was not read for the longest time goes first. Times are milliseconds.
-/

namespace XsdCatalog

structure CacheLimits where
  /-- Bytes of all entries together. -/
  total : Nat := 128 * 1024 * 1024
  /-- Bytes of one entry. -/
  entry : Nat := 4 * 1024 * 1024
  /-- Time without a read after which an entry expires. -/
  idle : Nat := 10 * 60 * 1000
  /-- Time since storing after which an entry expires. -/
  age : Nat := 60 * 60 * 1000
deriving DecidableEq, Repr

/-- Bytes that a text counts for. -/
def entrySize (text : String) : Nat :=
  2 * Text.units text

structure CacheEntry where
  key : String
  text : String
  size : Nat
  stored : Nat
  lastRead : Nat
deriving DecidableEq, Repr

namespace CacheEntry

def expired (limits : CacheLimits) (now : Nat) (e : CacheEntry) : Bool :=
  limits.idle ≤ now - e.lastRead || limits.age ≤ now - e.stored

/-- The entry that was not read for the longest time. -/
def oldest : List CacheEntry → Option CacheEntry
  | [] => none
  | e :: es =>
    match oldest es with
    | none => some e
    | some o => some (if o.lastRead < e.lastRead then o else e)

theorem oldest_mem {es : List CacheEntry} {e : CacheEntry} (h : oldest es = some e) : e ∈ es := by
  induction es generalizing e with
  | nil => simp [oldest] at h
  | cons a es ih =>
    unfold oldest at h
    split at h
    · simp_all
    · next o ho =>
      have hm := ih ho
      split at h <;> simp_all

end CacheEntry

structure TextCache where
  limits : CacheLimits := {}
  entries : List CacheEntry := []
  /-- Sum of the sizes of the entries, kept up to date by every operation. -/
  totalSize : Nat := 0
deriving DecidableEq, Repr

namespace TextCache

def find? (c : TextCache) (key : String) : Option CacheEntry :=
  c.entries.find? (·.key == key)

/-- Drops the entry with a key. The answer tells whether there was one. -/
def remove (c : TextCache) (key : String) : Bool × TextCache :=
  match c.find? key with
  | some e =>
    (true, { c with
      entries := c.entries.filter (·.key != key)
      totalSize := c.totalSize - e.size })
  | none => (false, c)

/-- Drops every entry. -/
def clear (c : TextCache) : TextCache :=
  { c with entries := [], totalSize := 0 }

/-- The text with a key, if it is there and not expired. Reading puts off expiry. -/
def get (c : TextCache) (key : String) (now : Nat) : Option String × TextCache :=
  match c.find? key with
  | none => (none, c)
  | some e =>
    if e.expired c.limits now then (none, (c.remove key).2)
    else
      (some e.text, { c with
        entries := c.entries.map fun x => if x.key == key then { x with lastRead := now } else x })

/-- Drops every entry that has expired. -/
def sweep (c : TextCache) (now : Nat) : TextCache :=
  (c.entries.filter (CacheEntry.expired c.limits now)).foldl (fun c e => (c.remove e.key).2) c

theorem length_entries_remove_lt {c : TextCache} {e : CacheEntry} (h : e ∈ c.entries) :
    (c.remove e.key).2.entries.length < c.entries.length := by
  have hf : ∃ x, c.find? e.key = some x :=
    Option.isSome_iff_exists.1 (List.find?_isSome.2 ⟨e, h, by simp⟩)
  obtain ⟨x, hx⟩ := hf
  simp only [remove, hx]
  refine List.length_filter_lt_length_iff_exists.2 ⟨e, h, ?_⟩
  simp

/-- Drops entries, the one that was not read for the longest time first, until `size` more bytes
fit into the budget. -/
def makeRoom (c : TextCache) (size : Nat) : TextCache :=
  if c.totalSize + size ≤ c.limits.total then c
  else
    match h : CacheEntry.oldest c.entries with
    | none => c
    | some e =>
      have := length_entries_remove_lt (CacheEntry.oldest_mem h)
      makeRoom (c.remove e.key).2 size
termination_by c.entries.length

/-- Stores a text. The answer tells whether it was small enough. -/
def insert (c : TextCache) (key text : String) (now : Nat) : Bool × TextCache :=
  let size := entrySize text
  if size > c.limits.entry ∨ size > c.limits.total then (false, c)
  else
    let c := (((c.remove key).2).sweep now).makeRoom size
    (true, { c with
      entries := c.entries ++ [⟨key, text, size, now, now⟩]
      totalSize := c.totalSize + size })

def size (c : TextCache) : Nat :=
  c.entries.length

end TextCache

end XsdCatalog
