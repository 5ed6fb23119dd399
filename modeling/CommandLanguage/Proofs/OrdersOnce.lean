import CommandLanguage.Proofs.Orders
import Mathlib.Data.List.FinRange
import Mathlib.Data.Nat.Factorial.Basic

/-!
# Each order once

A listing of orders goes by the places of items: what it does with a list it does with its places
(`Listing.map_eq`), so items that are alike are still told apart by their places. A listing that goes
through all rearrangements of a list and has as many entries as there are goes through each once
(`ListsOrders.of_listing`). That holds of `permutations`, and of the loop that counts exchanges, which
comes by the same orders as the recursion over the last place (`countedOrders_eq`).

`permutations_listsOrders` says so of both.
-/

namespace CommandLanguage.Arrangement

variable {α β : Type}

/-! ## Counting -/

/-- The exchanges up to a place, with the order before them, are as many orders as there are of the
places up to there. -/
theorem length_rearrange (last : Nat) (xs : List α) :
    (rearrange last xs).1.length + 1 = (last + 1).factorial := by
  induction last generalizing xs with
  | zero => rfl
  | succ last ih =>
    have hrounds : ∀ round, (rounds last xs round).1.length + 1 = (round + 1) * (last + 1).factorial := by
      intro round
      induction round with
      | zero =>
        rw [Nat.zero_add, Nat.one_mul]
        exact ih xs
      | succ round ihround =>
        have hnext := ih (exchange (rounds last xs round).2 (partner (last + 1) round) (last + 1))
        rw [rounds_succ rfl, List.length_append, List.length_cons, Nat.succ_mul (round + 1), ← ihround,
          ← hnext]
        omega
    rw [rearrange_succ, hrounds, Nat.factorial_succ (last + 1)]

theorem length_exchangeOrders (xs : List α) : (exchangeOrders xs).length = xs.length.factorial := by
  rw [exchangeOrders, List.length_cons, length_rearrange]
  cases xs <;> rfl

theorem length_permutations (xs : List α) : (permutations xs).length = xs.length.factorial := by
  unfold permutations
  split
  · rfl
  · rfl
  · rfl
  · rfl
  · exact length_exchangeOrders _

/-! ## Places instead of items -/

theorem exchange_map (f : α → β) (xs : List α) (i j : Nat) :
    exchange (xs.map f) i j = (exchange xs i j).map f := by
  unfold exchange
  rw [List.getElem?_map, List.getElem?_map]
  cases xs[i]? with
  | none => rfl
  | some a =>
    cases xs[j]? with
    | none => rfl
    | some b => simp [List.map_set]

theorem rearrange_map (f : α → β) (last : Nat) (xs : List α) :
    rearrange last (xs.map f) =
      ((rearrange last xs).1.map (List.map f), (rearrange last xs).2.map f) := by
  induction last generalizing xs with
  | zero => rfl
  | succ last ih =>
    have hrounds : ∀ round, rounds last (xs.map f) round =
        ((rounds last xs round).1.map (List.map f), (rounds last xs round).2.map f) := by
      intro round
      induction round with
      | zero => exact ih xs
      | succ round ihround =>
        -- Both sides exchange the same places in this round.
        have hnext : exchange (rounds last (xs.map f) round).2 (partner (last + 1) round) (last + 1) =
            (exchange (rounds last xs round).2 (partner (last + 1) round) (last + 1)).map f := by
          rw [ihround, exchange_map]
        rw [rounds_succ hnext, rounds_succ rfl, ihround, ih]
        simp
    exact hrounds (last + 1)

theorem exchangeOrders_map (f : α → β) (xs : List α) :
    exchangeOrders (xs.map f) = (exchangeOrders xs).map (List.map f) := by
  simp [exchangeOrders, rearrange_map]

theorem permutations_of_four (a b c d : α) (xs : List α) :
    permutations (a :: b :: c :: d :: xs) = exchangeOrders (a :: b :: c :: d :: xs) := rfl

theorem permutations_map (f : α → β) (xs : List α) :
    permutations (xs.map f) = (permutations xs).map (List.map f) := by
  match xs with
  | [] | [_] | [_, _] | [_, _, _] => rfl
  | a :: b :: c :: d :: xs =>
    have hmap := exchangeOrders_map f (a :: b :: c :: d :: xs)
    simpa only [List.map_cons, permutations_of_four] using hmap

/-! ## The loop -/

/-- Exchanging two items of a vector. -/
theorem toList_swap {n i j : Nat} (present : Vector α n) (hi : i < n) (hj : j < n) :
    (present.swap i j hi hj).toList = exchange present.toList i j := by
  have hget : ∀ k (hk : k < n), present.toList[k]? = some present[k] := by
    intro k hk
    simp [hk]
  rw [Vector.toList_swap, exchange, hget i hi, hget j hj]

variable {n : Nat} {present : Vector α n} {counters : Vector Nat n}

/-- One step of the loop at a place whose counter has not reached its number. -/
theorem countOrders_of_lt {i round : Nat} (hi : i < n) (hcounter : counters[i] = round)
    (hround : round < i) :
    ∃ next : Vector α n, next.toList = exchange present.toList (partner i round) i ∧
      countOrders present counters i =
        next.toList :: countOrders next (counters.set i (round + 1)) 1 := by
  subst hcounter
  refine ⟨_, toList_swap present (partner_lt hround hi) hi, ?_⟩
  rw [countOrders, dif_pos hi, dif_pos hround]

/-- One step of the loop at a place whose counter has reached its number. -/
theorem countOrders_of_not_lt {i : Nat} (hi : i < n) (hcounter : ¬counters[i] < i) :
    countOrders present counters i = countOrders present (counters.set i 0) (i + 1) := by
  rw [countOrders, dif_pos hi, dif_neg hcounter]

/-- **The loop.** Where the counters of the places up to `last` are reset, the loop goes through the
exchanges up to there, and comes to the next place with these counters reset again. -/
theorem countOrders_eq {last : Nat} (hlast : last < n) (present : Vector α n)
    (counters : Vector Nat n)
    (hreset : ∀ k (hk : k < n), 0 < k → k ≤ last → counters[k] = 0) :
    ∃ final : Vector α n, final.toList = (rearrange last present.toList).2 ∧
      countOrders present counters 1 =
        (rearrange last present.toList).1 ++ countOrders final counters (last + 1) := by
  induction last generalizing present counters with
  | zero => exact ⟨present, rfl, rfl⟩
  | succ last ih =>
    have hzero : counters.set (last + 1) 0 = counters := by
      have hself : counters.set (last + 1) counters[last + 1] = counters :=
        Vector.set_getElem_self hlast
      rwa [hreset (last + 1) hlast (by omega) (Nat.le_refl _)] at hself
    -- Each round is counted at place `last + 1`, and leaves the counters before it reset.
    have hrounds : ∀ round ≤ last + 1, ∃ final : Vector α n,
        final.toList = (rounds last present.toList round).2 ∧
          countOrders present counters 1 = (rounds last present.toList round).1 ++
            countOrders final (counters.set (last + 1) round) (last + 1) := by
      intro round hround
      induction round with
      | zero =>
        rw [hzero]
        exact ih (by omega) present counters fun k hk hpos hle => hreset k hk hpos (by omega)
      | succ round ihround =>
        rcases ihround (by omega) with ⟨final, hfinal, hbefore⟩
        have hcounter : (counters.set (last + 1) round)[last + 1] = round :=
          Vector.getElem_set_self hlast
        rcases countOrders_of_lt hlast hcounter hround with ⟨next, hnext, hstep⟩
        have hset : (counters.set (last + 1) round).set (last + 1) (round + 1) =
            counters.set (last + 1) (round + 1) := Vector.set_set _ _
        have hreset' : ∀ k (hk : k < n), 0 < k → k ≤ last →
            (counters.set (last + 1) (round + 1))[k] = 0 := by
          intro k hk hpos hle
          rw [Vector.getElem_set_ne hlast hk (by omega)]
          exact hreset k hk hpos (by omega)
        rcases ih (by omega) next _ hreset' with ⟨final', hfinal', hrest⟩
        rw [hfinal] at hnext
        rw [rounds_succ hnext.symm]
        refine ⟨final', hfinal', ?_⟩
        rw [hbefore, hstep, hset, hrest, List.append_assoc, List.cons_append]
    rcases hrounds (last + 1) (Nat.le_refl _) with ⟨final, hfinal, hloop⟩
    refine ⟨final, hfinal, ?_⟩
    rw [hloop, countOrders_of_not_lt hlast (by simp), Vector.set_set (last + 1) hlast, hzero,
      ← rearrange_succ]

/-- Counting comes by the same orders as the recursion over the last place. -/
theorem countedOrders_eq (xs : List α) : countedOrders xs = exchangeOrders xs := by
  rw [countedOrders, exchangeOrders]
  congr 1
  rcases Nat.eq_zero_or_pos xs.length with hnil | hpos
  · rw [countOrders, dif_neg (by omega), hnil]
    rfl
  · rcases countOrders_eq (show xs.length - 1 < xs.length by omega) ⟨xs.toArray, List.size_toArray⟩
      (Vector.replicate xs.length 0) (fun k hk _ _ => by simp) with ⟨final, -, hloop⟩
    -- Behind the last place the loop ends.
    rw [hloop, countOrders, dif_neg (by omega), List.append_nil]
    rfl

/-! ## Listings -/

/-- Whether a listing goes through each order of a list once, where a list is told by its places: it
goes through each rearrangement of the places once, and through nothing else, and does the same with
the items that are there. -/
structure ListsOrders (orders : ∀ {α : Type}, List α → List (List α)) : Prop where
  length : ∀ {α : Type} (xs : List α), (orders xs).length = xs.length.factorial
  places : ∀ {α : Type} (xs : List α),
    orders xs = (orders (List.finRange xs.length)).map (List.map xs.get)
  nodup : ∀ n, (orders (List.finRange n)).Nodup
  mem_iff : ∀ n (places : List (Fin n)),
    places ∈ orders (List.finRange n) ↔ places.Perm (List.finRange n)

/-- A listing of the right length that has every order of different items has it once. -/
theorem nodup_of_length {xs : List α} {orders : List (List α)} (hxs : xs.Nodup)
    (hlength : orders.length = xs.length.factorial) (hmem : ∀ ys, ys.Perm xs → ys ∈ orders) :
    orders.Nodup := by
  have hsubset : xs.permutations ⊆ orders := fun ys hys => hmem ys (List.mem_permutations.1 hys)
  have hnodup := List.nodup_permutations xs hxs
  have hperm : xs.permutations.Perm orders := by
    refine (hnodup.subperm hsubset).perm_of_length_le ?_
    rw [hlength, List.length_permutations]
  exact hperm.nodup_iff.1 hnodup

/-- A listing of the right length that goes by places and has the rearrangements of every list has
each of them once. -/
theorem ListsOrders.of_listing {orders : ∀ {α : Type}, List α → List (List α)}
    (hlength : ∀ {α : Type} (xs : List α), (orders xs).length = xs.length.factorial)
    (hmap : ∀ {α β : Type} (f : α → β) (xs : List α),
      orders (xs.map f) = (orders xs).map (List.map f))
    (hmem : ∀ {α : Type} (xs ys : List α), ys ∈ orders xs ↔ ys.Perm xs) :
    ListsOrders orders where
  length := hlength
  places xs := by rw [← hmap, List.map_get_finRange]
  nodup n := by
    refine nodup_of_length (List.nodup_finRange n) (hlength _) ?_
    exact fun ys hys => (hmem _ ys).2 hys
  mem_iff _ places := hmem _ places

theorem mem_exchangeOrders_iff {xs ys : List α} : ys ∈ exchangeOrders xs ↔ ys.Perm xs := by
  rw [← mem_permutations_iff_mem_exchangeOrders, mem_permutations_iff]

/-- **Each order once.** Both the orders that are listed and those that the loop comes by are each
order of the places once. Lists of more than three items are left to the loop, and what it comes by
for three items is what is listed directly. -/
theorem permutations_listsOrders :
    ListsOrders permutations ∧ ListsOrders countedOrders ∧
      (∀ {α : Type} (a b c d : α) (xs : List α),
        permutations (a :: b :: c :: d :: xs) = countedOrders (a :: b :: c :: d :: xs)) ∧
      ∀ {α : Type} (a b c : α) (ys : List α),
        ys ∈ countedOrders [a, b, c] ↔ ys ∈ permutations [a, b, c] := by
  refine ⟨?_, ?_, ?_, ?_⟩
  · exact .of_listing length_permutations permutations_map fun _ _ => mem_permutations_iff
  · refine .of_listing ?_ ?_ ?_
    · intro α xs
      rw [countedOrders_eq, length_exchangeOrders]
    · intro α β f xs
      rw [countedOrders_eq, countedOrders_eq, exchangeOrders_map]
    · intro α xs ys
      rw [countedOrders_eq, mem_exchangeOrders_iff]
  · intro α a b c d xs
    rw [countedOrders_eq, permutations_of_four]
  · intro α a b c ys
    rw [countedOrders_eq, mem_permutations_iff_mem_exchangeOrders]

end CommandLanguage.Arrangement
