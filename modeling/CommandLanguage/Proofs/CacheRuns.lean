import CommandLanguage.TtlCache
import Mathlib.Data.List.Dedup
import Mathlib.Data.List.Induction

/-!
# Runs of a cache

What a cache answers to calls that come one after the other, at both ends of what a time to live can
be.

* Where nothing expires, a cache is a plain map. A plain map is told by all that has been inserted, the
  latest first (`CacheCall.inserted`): the first value there is the one of a key. The cache keeps just
  these values, one entry for each key (`TtlCache.Mirrors`).
* Where everything has expired at once, a cache has no answers, and what it keeps is bounded by the
  writes since the last sweep (`TtlCache.size_after_zero`).

`TtlCache.respond_after` says of every run what each of its calls is answered, and how many entries
it leaves.
-/

namespace CommandLanguage

/-! ## Calls -/

/-- What a cache is asked to do. -/
inductive CacheAction (K V : Type) where
  | get (key : K)
  | insert (key : K) (value : V)
  /-- Get the value of a key, or compute it. -/
  | getOrInsert (key : K) (value : V)
  | purge
deriving DecidableEq

/-- What a cache is asked to do, and when. -/
structure CacheCall (K V : Type) where
  now : Nat
  action : CacheAction K V
deriving DecidableEq

/-- What a cache answers: a value, if it is asked for one and has one, and whether it was computed. -/
structure CacheReply (V : Type) where
  value : Option V
  computed : Bool
deriving DecidableEq

namespace TtlCache

variable {K V : Type} [DecidableEq K]

/-- What a cache answers to a call, and the cache afterwards. A computation leaves a mark when it
runs. -/
def respond (c : TtlCache K V) (call : CacheCall K V) : CacheReply V × TtlCache K V :=
  match call.action with
  | .get key =>
    let (value, c) := c.get call.now key
    (⟨value, false⟩, c)
  | .insert key value => (⟨none, false⟩, c.insert call.now key value)
  | .getOrInsert key value =>
    let compute : StateM Bool V := do
      set true
      return value
    let ((found, c), ran) := (c.getOrInsertWith call.now key compute).run false
    (⟨some found, ran⟩, c)
  | .purge => (⟨none, false⟩, c.purge call.now)

/-- The cache that calls leave, which come one after the other. -/
def after (ttl : Nat) (calls : List (CacheCall K V)) : TtlCache K V :=
  calls.foldl (fun c call => (c.respond call).2) (.empty ttl)

end TtlCache

namespace CacheCall

variable {K V : Type} [DecidableEq K]

/-- What has been inserted into a plain map, the latest first, after one more call. -/
def record (log : List (K × V)) (call : CacheCall K V) : List (K × V) :=
  match call.action with
  | .get _ => log
  | .insert key value => (key, value) :: log
  | .getOrInsert key value => if key ∈ log.map Prod.fst then log else (key, value) :: log
  | .purge => log

/-- What calls have inserted into a plain map, the latest first. -/
def inserted (calls : List (CacheCall K V)) : List (K × V) :=
  calls.foldl record []

/-- What a plain map answers: the latest value inserted for a key, or what is computed if there has
been none. -/
def reply (log : List (K × V)) (call : CacheCall K V) : CacheReply V :=
  match call.action with
  | .get key => ⟨log.lookup key, false⟩
  | .insert _ _ => ⟨none, false⟩
  | .getOrInsert key value => ⟨some ((log.lookup key).getD value), key ∉ log.map Prod.fst⟩
  | .purge => ⟨none, false⟩

end CacheCall

namespace TtlCache

variable {K V : Type} [DecidableEq K] {c : TtlCache K V} {log : List (K × V)} {key : K} {value : V}
  {now ttl : Nat} {call : CacheCall K V} {calls : List (CacheCall K V)}

/-! ## What a call does -/

/-- The computation runs if the cache has no value, and only then. -/
theorem respond_getOrInsert (c : TtlCache K V) (now : Nat) (key : K) (value : V) :
    c.respond ⟨now, .getOrInsert key value⟩ =
      match c.get now key with
      | (some kept, c) => (⟨some kept, false⟩, c)
      | (none, c) => (⟨some value, true⟩, c.insert now key value) := by
  unfold respond getOrInsertWith
  dsimp only
  rcases c.get now key with ⟨_ | kept, c'⟩ <;> rfl

/-- It leaves the cache as asking for the value does, or writes into that one. -/
theorem respond_getOrInsert_cases (c : TtlCache K V) (now : Nat) (key : K) (value : V) :
    (c.respond ⟨now, .getOrInsert key value⟩).2 = (c.get now key).2 ∨
      (c.respond ⟨now, .getOrInsert key value⟩).2 = (c.get now key).2.insert now key value := by
  rw [respond_getOrInsert]
  rcases c.get now key with ⟨_ | kept, c'⟩
  · exact .inr rfl
  · exact .inl rfl

@[simp] theorem ttl_get (c : TtlCache K V) (now : Nat) (key : K) : (c.get now key).2.ttl = c.ttl := by
  unfold get
  split
  · split <;> rfl
  · rfl

@[simp] theorem ttl_insert (c : TtlCache K V) (now : Nat) (key : K) (value : V) :
    (c.insert now key value).ttl = c.ttl := by
  unfold insert
  dsimp only
  split <;> rfl

@[simp] theorem ttl_respond (c : TtlCache K V) (call : CacheCall K V) :
    (c.respond call).2.ttl = c.ttl := by
  rcases call with ⟨now, action⟩
  cases action with
  | get key => exact ttl_get c now key
  | insert key value => exact ttl_insert c now key value
  | getOrInsert key value =>
    rcases respond_getOrInsert_cases c now key value with hkept | hwritten
    · rw [hkept, ttl_get]
    · rw [hwritten, ttl_insert, ttl_get]
  | purge => rfl

theorem after_concat (ttl : Nat) (calls : List (CacheCall K V)) (call : CacheCall K V) :
    after ttl (calls ++ [call]) = ((after ttl calls).respond call).2 := by
  simp [after]

theorem ttl_after (ttl : Nat) (calls : List (CacheCall K V)) : (after ttl calls).ttl = ttl := by
  induction calls using List.reverseRecOn with
  | nil => rfl
  | append_singleton calls call ih => rw [after_concat, ttl_respond, ih]

/-- What a call leaves was there before or has been written by it. -/
theorem mem_respond {entry : K × CacheEntry V} (h : entry ∈ (c.respond call).2.entries) :
    entry ∈ c.entries ∨ entry.2.written = call.now := by
  have hinsert : ∀ {d : TtlCache K V} {now key value}, entry ∈ (d.insert now key value).entries →
      entry ∈ d.entries ∨ entry.2.written = now := by
    intro d now key value hmem
    refine (mem_of_mem_insert hmem).imp_right ?_
    rintro rfl
    rfl
  rcases call with ⟨now, action⟩
  cases action with
  | get key => exact .inl (mem_of_mem_get h)
  | insert key value => exact hinsert h
  | getOrInsert key value =>
    rcases respond_getOrInsert_cases c now key value with hkept | hwritten
    · rw [hkept] at h
      exact .inl (mem_of_mem_get h)
    · rw [hwritten] at h
      exact (hinsert h).imp_left mem_of_mem_get
  | purge => exact .inl (List.mem_filter.1 h).1

theorem exists_written_of_mem_after {entry : K × CacheEntry V}
    (h : entry ∈ (after ttl calls).entries) : ∃ call ∈ calls, call.now = entry.2.written := by
  induction calls using List.reverseRecOn with
  | nil => cases h
  | append_singleton calls call ih =>
    rw [after_concat] at h
    rcases mem_respond h with hold | hnew
    · rcases ih hold with ⟨earlier, hmem, hnow⟩
      exact ⟨earlier, List.mem_append_left _ hmem, hnow⟩
    · exact ⟨call, by simp, hnew.symm⟩

/-! ## Where nothing expires -/

/-- Whether nothing expires while calls are answered: none of them is as long after an earlier one as
the time to live. -/
structure Lasting (ttl : Nat) (calls : List (CacheCall K V)) : Prop where
  positive : 0 < ttl
  within : calls.Pairwise fun earlier later => later.now - earlier.now < ttl

/-- Whether all that a cache keeps is younger than its time to live. -/
def Fresh (c : TtlCache K V) (now : Nat) : Prop :=
  ∀ entry ∈ c.entries, entry.2.isFresh c.ttl now = true

omit [DecidableEq K] in
theorem Fresh.purge_eq (h : c.Fresh now) : c.purge now = c := by
  rw [purge, List.filter_eq_self.2 h]

theorem Fresh.get_eq (h : c.Fresh now) (key : K) :
    c.get now key = ((c.stored? key).map (·.value), c) := by
  unfold get
  split
  · rename_i e hentry
    rw [hentry, if_pos (h _ (mem_entries_of_stored? hentry))]
    rfl
  · rename_i hentry
    rw [hentry]
    rfl

/-- The entry that is written is fresh too, so that nothing is swept. -/
theorem Fresh.insert_eq (h : c.Fresh now) (hpos : 0 < c.ttl) (key : K) (value : V) :
    (c.insert now key value).entries = (c.erase key).entries ++ [(key, ⟨value, now⟩)] := by
  unfold insert
  dsimp only
  split
  · refine List.filter_eq_self.2 fun entry hentry => ?_
    rcases List.mem_append.1 hentry with hold | hnew
    · exact h entry (List.mem_filter.1 hold).1
    · obtain rfl := List.mem_singleton.1 hnew
      simpa [CacheEntry.isFresh] using hpos
  · rfl

theorem fresh_after (h : Lasting ttl (calls ++ [call])) :
    (after ttl calls).Fresh call.now := by
  intro entry hentry
  rcases exists_written_of_mem_after hentry with ⟨earlier, hmem, hnow⟩
  have hwithin := (List.pairwise_append.1 h.within).2.2 earlier hmem call (by simp)
  rw [CacheEntry.isFresh, ttl_after, ← hnow]
  exact decide_eq_true hwithin

theorem isSome_lookup_iff (log : List (K × V)) (key : K) :
    (log.lookup key).isSome = true ↔ key ∈ log.map Prod.fst := by
  simp only [List.lookup_isSome_iff, beq_iff_eq, List.mem_map]
  exact exists_congr fun entry => and_congr_right fun _ => eq_comm

/-- Whether a cache keeps just the latest value inserted for each key, in one entry. -/
structure Mirrors (c : TtlCache K V) (log : List (K × V)) : Prop where
  keyed : (c.entries.map Prod.fst).Nodup
  kept_iff : ∀ key value,
    (∃ e, (key, e) ∈ c.entries ∧ e.value = value) ↔ log.lookup key = some value

theorem mirrors_empty (ttl : Nat) : Mirrors (.empty ttl : TtlCache K V) [] where
  keyed := .nil
  kept_iff := by simp [empty]

/-- In a cache with one entry for each key, every entry is found. -/
theorem stored?_of_mem {e : CacheEntry V} (hkeyed : (c.entries.map Prod.fst).Nodup)
    (hmem : (key, e) ∈ c.entries) : c.stored? key = some e := by
  rcases List.append_of_mem hmem with ⟨before, behind, hentries⟩
  refine List.lookup_eq_some_iff.2 ⟨before, behind, hentries, fun entry hentry => ?_⟩
  rw [hentries, List.map_append, List.nodup_append] at hkeyed
  have hne := hkeyed.2.2 entry.1 (List.mem_map_of_mem hentry) key (by simp)
  simpa using hne.symm

namespace Mirrors

theorem value_eq (h : Mirrors c log) (key : K) :
    (c.stored? key).map (·.value) = log.lookup key := by
  cases hentry : c.stored? key with
  | some e => exact ((h.kept_iff key e.value).1 ⟨e, mem_entries_of_stored? hentry, rfl⟩).symm
  | none =>
    cases hlog : log.lookup key with
    | none => rfl
    | some value =>
      rcases (h.kept_iff key value).2 hlog with ⟨e, hmem, -⟩
      rw [stored?_of_mem h.keyed hmem] at hentry
      cases hentry

theorem get_eq (h : Mirrors c log) (hfresh : c.Fresh now) (key : K) :
    c.get now key = (log.lookup key, c) := by
  rw [hfresh.get_eq, h.value_eq]

/-- The keys of a cache are those for which something has been inserted. -/
theorem mem_keys_iff (h : Mirrors c log) : key ∈ c.entries.map Prod.fst ↔ key ∈ log.map Prod.fst := by
  rw [← isSome_lookup_iff log key, Option.isSome_iff_exists, List.mem_map]
  constructor
  · rintro ⟨⟨key, e⟩, hmem, rfl⟩
    exact ⟨e.value, (h.kept_iff key e.value).1 ⟨e, hmem, rfl⟩⟩
  · rintro ⟨value, hvalue⟩
    rcases (h.kept_iff key value).2 hvalue with ⟨e, hmem, -⟩
    exact ⟨(key, e), hmem, rfl⟩

theorem size_eq (h : Mirrors c log) : c.size = (log.map Prod.fst).dedup.length := by
  have hperm : (c.entries.map Prod.fst).Perm (log.map Prod.fst).dedup := by
    refine (List.perm_ext_iff_of_nodup h.keyed (List.nodup_dedup _)).2 fun key => ?_
    rw [List.mem_dedup, h.mem_keys_iff]
  rw [size, ← hperm.length_eq, List.length_map]

theorem insert (h : Mirrors c log) (hfresh : c.Fresh now) (hpos : 0 < c.ttl) (key : K) (value : V) :
    Mirrors (c.insert now key value) ((key, value) :: log) where
  keyed := by
    rw [hfresh.insert_eq hpos, List.map_append, List.nodup_append]
    refine ⟨h.keyed.sublist (List.filter_sublist.map _), by simp, ?_⟩
    intro old hold new hnew
    rcases List.mem_map.1 hold with ⟨entry, hentry, rfl⟩
    obtain rfl : new = key := by simpa using hnew
    simpa using (List.mem_filter.1 hentry).2
  kept_iff := by
    intro key' value'
    have hmem : ∀ e, (key', e) ∈ (c.insert now key value).entries ↔
        key' ≠ key ∧ (key', e) ∈ c.entries ∨ key' = key ∧ e = ⟨value, now⟩ := by
      intro e
      rw [hfresh.insert_eq hpos, List.mem_append, erase, List.mem_filter]
      simp [and_comm]
    simp only [hmem, List.lookup_cons]
    by_cases hkey : key' = key
    · -- The new entry is the only one of its key.
      subst hkey
      simp
    · simpa [hkey, beq_false_of_ne hkey] using h.kept_iff key' value'

/-- **A step where nothing has expired.** The call is answered as by a plain map, and the cache goes on
to keep what a plain map does. -/
theorem respond (h : Mirrors c log) (hfresh : c.Fresh call.now) (hpos : 0 < c.ttl) :
    (c.respond call).1 = call.reply log ∧ Mirrors (c.respond call).2 (call.record log) := by
  rcases call with ⟨now, action⟩
  cases action with
  | get key =>
    simp only [TtlCache.respond, CacheCall.reply, CacheCall.record, h.get_eq hfresh, true_and]
    exact h
  | insert key value => exact ⟨rfl, h.insert hfresh hpos key value⟩
  | getOrInsert key value =>
    rw [respond_getOrInsert, h.get_eq hfresh, CacheCall.reply, CacheCall.record]
    have hkeys := isSome_lookup_iff log key
    cases hlog : log.lookup key with
    | some kept =>
      have hmem : key ∈ log.map Prod.fst := hkeys.1 (by rw [hlog]; rfl)
      simp only [hmem, if_true]
      exact ⟨by simp [hlog], h⟩
    | none =>
      have hmem : key ∉ log.map Prod.fst := by
        rw [← hkeys, hlog]
        exact Bool.false_ne_true
      simp only [hmem, if_false]
      exact ⟨by simp [hlog], h.insert hfresh hpos key value⟩
  | purge =>
    refine ⟨rfl, ?_⟩
    rw [TtlCache.respond, CacheCall.record]
    dsimp only
    rwa [hfresh.purge_eq]

end Mirrors

theorem inserted_concat (calls : List (CacheCall K V)) (call : CacheCall K V) :
    CacheCall.inserted (calls ++ [call]) = call.record (CacheCall.inserted calls) := by
  simp [CacheCall.inserted]

omit [DecidableEq K] in
theorem Lasting.of_append {more : List (CacheCall K V)}
    (h : Lasting ttl (calls ++ more)) : Lasting ttl calls :=
  ⟨h.positive, (List.pairwise_append.1 h.within).1⟩

theorem mirrors_after (h : Lasting ttl calls) :
    Mirrors (after ttl calls) (CacheCall.inserted calls) := by
  induction calls using List.reverseRecOn with
  | nil => exact mirrors_empty ttl
  | append_singleton calls call ih =>
    rw [after_concat, inserted_concat]
    refine ((ih h.of_append).respond (fresh_after h) ?_).2
    rw [ttl_after]
    exact h.positive

/-! ## Where everything has expired -/

theorem isFresh_zero (e : CacheEntry V) (now : Nat) : e.isFresh 0 now = false := by
  simp [CacheEntry.isFresh]

omit [DecidableEq K] in
theorem size_purge_of_ttl_eq_zero (h : c.ttl = 0) (now : Nat) : (c.purge now).size = 0 := by
  simp [size, purge, h, isFresh_zero]

/-- Nothing is answered, and the entry of the key is gone. -/
theorem get_of_ttl_eq_zero (h : c.ttl = 0) (now : Nat) (key : K) :
    (c.get now key).1 = none ∧ (c.get now key).2.stored? key = none ∧
      (c.get now key).2.size ≤ c.size ∧ (c.get now key).2.writes = c.writes := by
  unfold get
  split
  · rename_i e hentry
    rw [h, isFresh_zero, if_neg Bool.false_ne_true]
    refine ⟨rfl, ?_, List.length_filter_le _ _, rfl⟩
    refine List.lookup_eq_none_iff.2 fun entry hmem => ?_
    have hne : entry.1 ≠ key := by simpa using (List.mem_filter.1 hmem).2
    exact bne_iff_ne.2 hne.symm
  · rename_i hentry
    exact ⟨rfl, hentry, Nat.le_refl _, rfl⟩

/-- A write adds one entry at most, and every 64th one leaves none. -/
theorem size_insert_of_ttl_eq_zero (h : c.ttl = 0) (hsize : c.size ≤ c.writes % sweepEvery)
    (now : Nat) (key : K) (value : V) :
    (c.insert now key value).size ≤ (c.insert now key value).writes % sweepEvery := by
  unfold insert
  dsimp only
  split
  · rw [size_purge_of_ttl_eq_zero (by exact h)]
    exact Nat.zero_le _
  · rename_i hsweep
    have herase : (c.erase key).entries.length ≤ c.size := List.length_filter_le _ _
    have hnext : (c.writes + 1) % sweepEvery = c.writes % sweepEvery + 1 := by
      unfold sweepEvery at hsweep ⊢
      omega
    simp only [size, List.length_append, List.length_singleton] at herase hsize ⊢
    omega

theorem size_respond_of_ttl_eq_zero (h : c.ttl = 0) (hsize : c.size ≤ c.writes % sweepEvery)
    (call : CacheCall K V) :
    (c.respond call).2.size ≤ (c.respond call).2.writes % sweepEvery := by
  rcases call with ⟨now, action⟩
  have hget : ∀ key, (c.get now key).2.size ≤ (c.get now key).2.writes % sweepEvery := by
    intro key
    rcases get_of_ttl_eq_zero h now key with ⟨-, -, hle, hwrites⟩
    rw [hwrites]
    exact Nat.le_trans hle hsize
  cases action with
  | get key => exact hget key
  | insert key value => exact size_insert_of_ttl_eq_zero h hsize now key value
  | getOrInsert key value =>
    rcases respond_getOrInsert_cases c now key value with hkept | hwritten
    · rw [hkept]
      exact hget key
    · rw [hwritten]
      have hzero : (c.get now key).2.ttl = 0 := (ttl_get c now key).trans h
      exact size_insert_of_ttl_eq_zero hzero (hget key) now key value
  | purge =>
    show (c.purge now).size ≤ _
    rw [size_purge_of_ttl_eq_zero h]
    exact Nat.zero_le _

/-- A cache whose entries expire at once keeps no more of them than there were writes since the last
sweep. -/
theorem size_after_zero (calls : List (CacheCall K V)) :
    (after 0 calls).size ≤ (after 0 calls).writes % sweepEvery := by
  induction calls using List.reverseRecOn with
  | nil => exact Nat.le_refl _
  | append_singleton calls call ih =>
    rw [after_concat]
    exact size_respond_of_ttl_eq_zero (ttl_after 0 calls) ih call

/-! ## Whole runs -/

/-- **Runs of a cache.** Where nothing expires in a run, each call is answered as by a plain map that
holds the latest value inserted for each key, there are as many entries as different keys, and purging
changes nothing. With a time to live of zero no value is ever got, asking for one removes it, every
computation runs and its value is answered, purging leaves nothing, and there are never more than 63
entries. -/
theorem respond_after :
    (∀ (ttl : Nat) (calls : List (CacheCall K V)) (call : CacheCall K V),
      Lasting ttl (calls ++ [call]) →
        let c := after ttl calls
        (c.respond call).1 = call.reply (CacheCall.inserted calls) ∧
          (c.respond call).2.size =
            ((CacheCall.inserted (calls ++ [call])).map Prod.fst).dedup.length ∧
          (call.action = .purge → (c.respond call).2 = c)) ∧
      ∀ (calls : List (CacheCall K V)) (call : CacheCall K V),
        let c : TtlCache K V := after 0 calls
        (∀ key, call.action = .get key →
            (c.respond call).1 = ⟨none, false⟩ ∧ (c.respond call).2.stored? key = none) ∧
          (∀ key value, call.action = .getOrInsert key value →
            (c.respond call).1 = ⟨some value, true⟩) ∧
          (call.action = .purge → (c.respond call).2.size = 0) ∧
          (c.respond call).2.size ≤ 63 := by
  constructor
  · -- Nothing expires, and the cache keeps what has been inserted.
    intro ttl calls call h
    have hfresh := fresh_after h
    have hpos : 0 < (after ttl calls).ttl := by rw [ttl_after]; exact h.positive
    have hafter := mirrors_after h
    rw [after_concat] at hafter
    refine ⟨((mirrors_after h.of_append).respond hfresh hpos).1, hafter.size_eq, ?_⟩
    rcases call with ⟨now, action⟩
    rintro ⟨⟩
    exact hfresh.purge_eq
  · -- Everything has expired at once.
    intro calls call
    have hzero : (after 0 calls : TtlCache K V).ttl = 0 := ttl_after 0 calls
    refine ⟨?_, ?_, ?_, ?_⟩
    · rcases call with ⟨now, action⟩
      rintro key ⟨⟩
      rcases get_of_ttl_eq_zero hzero now key with ⟨hnone, hgone, -⟩
      exact ⟨by rw [← hnone]; rfl, hgone⟩
    · rcases call with ⟨now, action⟩
      rintro key value ⟨⟩
      have hnone := (get_of_ttl_eq_zero hzero now key).1
      rw [respond_getOrInsert]
      rcases hfound : (after 0 calls).get now key with ⟨_ | kept, d⟩
      · rfl
      · rw [hfound] at hnone
        cases hnone
    · rcases call with ⟨now, action⟩
      rintro ⟨⟩
      exact size_purge_of_ttl_eq_zero hzero now
    · have hsize := size_after_zero (calls ++ [call])
      rw [after_concat] at hsize
      exact Nat.le_trans hsize (Nat.le_of_lt_succ (Nat.mod_lt _ (by decide)))

/-- Two keys, one of them written twice. -/
def session : List (CacheCall Nat Nat) :=
  [⟨0, .insert 1 10⟩, ⟨3, .getOrInsert 2 20⟩, ⟨4, .purge⟩, ⟨8, .insert 1 11⟩]

/-- The second value of the first key is answered as long as it lasts, and a new one is computed where
nothing does. -/
theorem respond_after_session :
    Lasting 10 (session ++ [⟨9, .getOrInsert 1 12⟩]) ∧
      ((after 10 session).respond ⟨9, .getOrInsert 1 12⟩).1 = ⟨some 11, false⟩ ∧
      ((after 10 session).respond ⟨9, .getOrInsert 1 12⟩).2.size = 2 ∧
      ((after 0 session).respond ⟨9, .getOrInsert 1 12⟩).1 = ⟨some 12, true⟩ := by
  have hlasting : Lasting 10 (session ++ [⟨9, .getOrInsert 1 12⟩]) := ⟨by decide, by decide⟩
  obtain ⟨hreply, hsize, -⟩ := respond_after.1 10 session _ hlasting
  refine ⟨hlasting, hreply.trans (by decide), hsize.trans (by decide), ?_⟩
  exact (respond_after.2 session _).2.1 1 12 rfl

end TtlCache

end CommandLanguage
