import CommandLanguage.Proofs.Reach

/-!
# What the completion cache answers

A cache that only ever is given true values only ever answers true values, whatever it forgets and
whenever it does (`TtlCache.Serves.getOrInsert`). The positions of a tree are kept under the source
and the words before the one to complete, and depend on nothing else, so a completion after any
others is the one that a new cache would give (`CommandTree.completeEach_emptyCache`).
-/

namespace CommandLanguage

/-! ## Caches of true values -/

namespace TtlCache

variable {K V : Type} [DecidableEq K] {P : K → V → Prop} {c : TtlCache K V}

/-- Whether each value that is kept suits its key. -/
def Serves (P : K → V → Prop) (c : TtlCache K V) : Prop :=
  ∀ entry ∈ c.entries, P entry.1 entry.2.value

omit [DecidableEq K] in
theorem Serves.empty (ttl : Nat) : Serves P (.empty ttl : TtlCache K V) := by
  intro entry h
  cases h

theorem Serves.insert (hc : Serves P c) (now : Nat) {key : K} {value : V} (h : P key value) :
    Serves P (c.insert now key value) := by
  intro entry hentry
  rcases mem_of_mem_insert hentry with hold | rfl
  · exact hc entry hold
  · exact h

theorem Serves.get (hc : Serves P c) (now : Nat) (key : K) :
    (∀ value ∈ (c.get now key).1, P key value) ∧ Serves P (c.get now key).2 := by
  refine ⟨?_, fun entry hentry => hc entry (mem_of_mem_get hentry)⟩
  unfold TtlCache.get
  split
  · rename_i e hentry
    split
    · intro value hvalue
      obtain rfl : e.value = value := by simpa using hvalue
      exact hc _ (mem_entries_of_stored? hentry)
    · intro value hvalue
      cases hvalue
  · intro value hvalue
    cases hvalue

/-- What a cache of suitable values answers is suitable, if the value to be kept is. -/
theorem Serves.getOrInsert (hc : Serves P c) (now : Nat) {key : K} {value : V} (h : P key value) :
    P key (c.getOrInsert now key value).1 ∧ Serves P (c.getOrInsert now key value).2 := by
  obtain ⟨hkept, hrest⟩ := hc.get now key
  unfold TtlCache.getOrInsert
  split
  · rename_i kept c' hget
    rw [hget] at hkept hrest
    exact ⟨hkept kept rfl, hrest⟩
  · rename_i c' hget
    rw [hget] at hrest
    exact ⟨h, hrest.insert now h⟩

end TtlCache

/-! ## Completions, one after the other -/

theorem mem_distinct_iff {s : String} {ss : List String} : s ∈ distinct ss ↔ s ∈ ss := by
  induction ss with
  | nil => rfl
  | cons s' ss ih =>
    rw [distinct, List.mem_cons, List.mem_cons, List.mem_filter, ih]
    by_cases heq : s = s'
    · simp [heq]
    · simp [heq]

/-- One call for a completion. -/
structure CompletionRequest (Source : Type) where
  now : Nat
  source : Source
  tokens : List String
  target : Nat
  typed : String

namespace CommandTree

variable {Source : Type} [DecidableEq Source] {t : CommandTree} {caps : Capabilities Source}

/-- What a tree answers to a request, and the cache that it leaves. -/
def answer (t : CommandTree) (caps : Capabilities Source) (cache : SuggestionCache Source)
    (request : CompletionRequest Source) : List String × SuggestionCache Source :=
  t.complete caps cache request.now request.source request.tokens request.target request.typed

/-- What a tree answers to requests that come one after the other. -/
def completeEach (t : CommandTree) (caps : Capabilities Source) (cache : SuggestionCache Source) :
    List (CompletionRequest Source) → List (List String)
  | [] => []
  | request :: requests =>
    let answer := t.answer caps cache request
    answer.1 :: completeEach t caps answer.2 requests

/-- The cache that requests leave, which come one after the other. -/
def cacheAfter (t : CommandTree) (caps : Capabilities Source)
    (requests : List (CompletionRequest Source)) : SuggestionCache Source :=
  requests.foldl (fun cache request => (t.answer caps cache request).2) t.emptyCache

/-- The positions that a tree finds when nothing but what a key holds is typed. -/
def positionsOf (t : CommandTree) (caps : Capabilities Source) (key : InputKey Source) :
    List Position :=
  t.positions caps key.source key.typed key.typed.length

/-- Whether all positions that a cache keeps are those that its tree would find. -/
def Truthful (t : CommandTree) (caps : Capabilities Source) : SuggestionCache Source → Prop :=
  TtlCache.Serves fun key positions => positions = t.positionsOf caps key

omit [DecidableEq Source] in
theorem truthful_emptyCache : t.Truthful caps t.emptyCache :=
  TtlCache.Serves.empty _

/-- A truthful cache answers what the positions suggest that the tree finds, and stays truthful. -/
theorem Truthful.answer {cache : SuggestionCache Source} (h : t.Truthful caps cache)
    (request : CompletionRequest Source) :
    (t.answer caps cache request).1 =
        (if !caps.permits request.source t.root.permission ||
            request.tokens.length < request.target then []
        else t.suggestions caps ⟨request.source, request.tokens, request.target⟩ request.typed
          (t.positions caps request.source request.tokens request.target)) ∧
      t.Truthful caps (t.answer caps cache request).2 := by
  unfold CommandTree.answer complete
  split
  · exact ⟨rfl, h⟩
  · rename_i hguard
    have htarget : request.target ≤ request.tokens.length := by
      simp only [Bool.or_eq_true, decide_eq_true_eq, not_or] at hguard
      omega
    -- The value to be kept was found with all words at hand, and its key has those before the target.
    have hvalue : t.positions caps request.source request.tokens request.target =
        t.positionsOf caps ⟨request.source, request.tokens.take request.target⟩ := by
      rw [positionsOf, List.length_take, Nat.min_eq_left htarget]
      exact positions_eq_of_take_eq t caps _ (by rw [List.take_take, Nat.min_self])
    have hanswer := TtlCache.Serves.getOrInsert h request.now hvalue
    rw [← hvalue] at hanswer
    dsimp only
    exact ⟨by rw [hanswer.1], hanswer.2⟩

theorem truthful_cacheAfter (requests : List (CompletionRequest Source)) :
    t.Truthful caps (t.cacheAfter caps requests) := by
  have hfold : ∀ cache, t.Truthful caps cache → t.Truthful caps
      (requests.foldl (fun cache request => (t.answer caps cache request).2) cache) := by
    induction requests with
    | nil => exact fun cache h => h
    | cons request requests ih => exact fun cache h => ih _ (h.answer request).2
  exact hfold _ truthful_emptyCache

/-- What a truthful cache answers is suggested at one of the positions. -/
theorem Truthful.mem_answer_iff {cache : SuggestionCache Source} (h : t.Truthful caps cache)
    (request : CompletionRequest Source) {s : String} :
    s ∈ (t.answer caps cache request).1 ↔
      caps.permits request.source t.root.permission = true ∧
        request.target ≤ request.tokens.length ∧ beginsLike request.typed s = true ∧
        ∃ position ∈ t.positions caps request.source request.tokens request.target,
          ∃ p ∈ (t.judge caps request.source).candidates t.settings.overlappingSuggestions position,
            s ∈ caps.suggest ⟨request.source, request.tokens, request.target⟩ p := by
  rw [(h.answer request).1]
  split
  · rename_i hguard
    simp only [Bool.or_eq_true, Bool.not_eq_true', decide_eq_true_eq] at hguard
    constructor
    · simp
    · rintro ⟨hpermits, htyped, -⟩
      rcases hguard with hdenied | hlt
      · rw [hpermits] at hdenied
        cases hdenied
      · omega
  · rename_i hguard
    simp only [Bool.or_eq_true, Bool.not_eq_true', decide_eq_true_eq, not_or, Nat.not_lt,
      Bool.not_eq_false] at hguard
    simp only [suggestions, mem_distinct_iff, List.mem_filter, List.mem_flatMap, hguard, true_and]
    exact and_comm

/-- Any two truthful caches answer alike. -/
theorem Truthful.answer_eq {cache cache' : SuggestionCache Source} (h : t.Truthful caps cache)
    (h' : t.Truthful caps cache') (request : CompletionRequest Source) :
    (t.answer caps cache request).1 = (t.answer caps cache' request).1 := by
  rw [(h.answer request).1, (h'.answer request).1]

theorem Truthful.completeEach_eq_map {cache : SuggestionCache Source} (h : t.Truthful caps cache)
    (requests : List (CompletionRequest Source)) :
    t.completeEach caps cache requests =
      requests.map fun request => (t.answer caps t.emptyCache request).1 := by
  induction requests generalizing cache with
  | nil => rfl
  | cons request requests ih =>
    rw [completeEach, ih (h.answer request).2, h.answer_eq truthful_emptyCache request]
    rfl

/-- **The cache is transparent.** Requests that come one after the other, at any times, are each
answered as by a new cache, and the positions that are kept depend on the source and on the words
before the one to complete alone. -/
theorem completeEach_emptyCache (t : CommandTree) (caps : Capabilities Source)
    (requests : List (CompletionRequest Source)) :
    t.completeEach caps t.emptyCache requests =
        requests.map (fun request => (t.answer caps t.emptyCache request).1) ∧
      ∀ (source : Source) (typed rest rest' : List String),
        t.positions caps source (typed ++ rest) typed.length =
          t.positions caps source (typed ++ rest') typed.length := by
  refine ⟨truthful_emptyCache.completeEach_eq_map requests, ?_⟩
  intro source typed rest rest'
  exact positions_eq_of_take_eq t caps source (by simp)

end CommandTree

end CommandLanguage
