/-!
# Caches with a time to live

A map whose entries are no longer answered once they are older than its time to live. An expired
entry leaves the map when it is asked for, and all of them leave at every 64th write. The caller says
what time it is, in any unit that the time to live is in too.

The entries are those of a plain map, written out as a list. It follows what `dashmap` documents of
its operations, one at a time: a key has at most one entry, which a write replaces, a removal leaves
the other entries as they are, and a sweep keeps those that pass a test. In which order the entries
stand is never told.
-/

namespace CommandLanguage

/-- A value with the time it was written. -/
structure CacheEntry (V : Type) where
  value : V
  written : Nat
deriving DecidableEq

/-- A map whose entries expire. -/
structure TtlCache (K V : Type) where
  ttl : Nat
  writes : Nat
  entries : List (K × CacheEntry V)

/-- How many writes lie between two sweeps. -/
def sweepEvery : Nat := 64

/-- Whether an entry is younger than a time to live. -/
def CacheEntry.isFresh {V : Type} (e : CacheEntry V) (ttl now : Nat) : Bool :=
  now - e.written < ttl

namespace TtlCache

variable {K V : Type} [DecidableEq K]

/-- The map without entries. -/
def empty (ttl : Nat) : TtlCache K V := ⟨ttl, 0, []⟩

/-- How many entries there are, expired ones included. -/
def size (c : TtlCache K V) : Nat := c.entries.length

/-- The entry of a key, expired or not. -/
def stored? (c : TtlCache K V) (key : K) : Option (CacheEntry V) :=
  c.entries.lookup key

/-- The entry of a key is one of the entries. -/
theorem mem_entries_of_stored? {c : TtlCache K V} {key : K} {e : CacheEntry V}
    (h : c.stored? key = some e) : (key, e) ∈ c.entries := by
  unfold stored? at h
  obtain ⟨before, after, hentries, -⟩ := List.lookup_eq_some_iff.1 h
  rw [hentries]
  exact List.mem_append_right _ List.mem_cons_self

/-- The map without the entry of a key. -/
def erase (c : TtlCache K V) (key : K) : TtlCache K V :=
  { c with entries := c.entries.filter (·.1 ≠ key) }

/-- The map without its expired entries. -/
def purge (c : TtlCache K V) (now : Nat) : TtlCache K V :=
  { c with entries := c.entries.filter (·.2.isFresh c.ttl now) }

/-- The value of a key, and the map without it if it has expired. -/
def get (c : TtlCache K V) (now : Nat) (key : K) : Option V × TtlCache K V :=
  match c.stored? key with
  | some e => if e.isFresh c.ttl now then (some e.value, c) else (none, c.erase key)
  | none => (none, c)

/-- Give a key a value, and sweep if it is time. -/
def insert (c : TtlCache K V) (now : Nat) (key : K) (value : V) : TtlCache K V :=
  let written : TtlCache K V :=
    { c with
      writes := c.writes + 1
      entries := (c.erase key).entries ++ [(key, ⟨value, now⟩)] }
  -- The new entry is swept too if nothing is ever fresh.
  if written.writes % sweepEvery = 0 then written.purge now else written

/-- Asking for a value adds no entry. -/
theorem mem_of_mem_get {c : TtlCache K V} {now : Nat} {key : K} {entry : K × CacheEntry V}
    (h : entry ∈ (c.get now key).2.entries) : entry ∈ c.entries := by
  unfold get at h
  split at h
  · split at h
    · exact h
    · exact (List.mem_filter.1 h).1
  · exact h

/-- What there is after a write was there before, or it has been written. -/
theorem mem_of_mem_insert {c : TtlCache K V} {now : Nat} {key : K} {value : V}
    {entry : K × CacheEntry V} (h : entry ∈ (c.insert now key value).entries) :
    entry ∈ c.entries ∨ entry = (key, ⟨value, now⟩) := by
  have hwritten : entry ∈ (c.erase key).entries ++ [(key, ⟨value, now⟩)] := by
    unfold insert at h
    dsimp only at h
    split at h
    · exact (List.mem_filter.1 h).1
    · exact h
  rcases List.mem_append.1 hwritten with hold | hnew
  · exact .inl (List.mem_filter.1 hold).1
  · exact .inr (List.mem_singleton.1 hnew)

/-- The value of a key; if there is none, the one given, which is then kept. -/
def getOrInsert (c : TtlCache K V) (now : Nat) (key : K) (value : V) : V × TtlCache K V :=
  match c.get now key with
  | (some kept, c) => (kept, c)
  | (none, c) => (value, c.insert now key value)

/-- The value of a key; if there is none, what a computation gives, which is then kept. The computation
runs only in that case. -/
def getOrInsertWith {m : Type → Type} [Monad m] (c : TtlCache K V) (now : Nat) (key : K)
    (compute : m V) : m (V × TtlCache K V) :=
  match c.get now key with
  | (some kept, c) => pure (kept, c)
  | (none, c) => do
    let value ← compute
    return (value, c.insert now key value)

/-- With a value at hand there is nothing to compute. -/
theorem getOrInsertWith_pure {m : Type → Type} [Monad m] [LawfulMonad m] (c : TtlCache K V)
    (now : Nat) (key : K) (value : V) :
    c.getOrInsertWith now key (pure value : m V) = pure (c.getOrInsert now key value) := by
  unfold getOrInsertWith getOrInsert
  split <;> simp

end TtlCache

end CommandLanguage
