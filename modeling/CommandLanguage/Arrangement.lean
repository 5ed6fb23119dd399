/-!
# Arrangements

The orders in which a run of flags may be typed. A user may type any of the flags, in any order,
so a run stands for all its selections, each in every order.

* `permutations` lists the orders of up to three items directly; longer lists are rearranged by
  single exchanges, each order coming from the one before it.
* `subsets` lists the selections as a binary counter does: the first item is its lowest digit.
* `selections` lists the orders of each selection in turn, the empty one first.
-/

namespace CommandLanguage.Arrangement

variable {α : Type}

/-- A list with the items at two places exchanged; unchanged if a place is missing. -/
def exchange (xs : List α) (i j : Nat) : List α :=
  match xs[i]?, xs[j]? with
  | some a, some b => (xs.set i b).set j a
  | _, _ => xs

/-- The place that is exchanged with place `i` in round `round`. -/
def partner (i round : Nat) : Nat :=
  if i % 2 = 0 then 0 else round

/-- The orders of the items at the places up to `last` that follow the order `xs`, by exchanges, and
the order that the last exchange leaves. -/
def rearrange : (last : Nat) → (xs : List α) → List (List α) × List α
  | 0, xs => ([], xs)
  | last + 1, xs =>
    (List.range (last + 1)).foldl
      (fun (seen, xs) round =>
        let next := exchange xs (partner (last + 1) round) (last + 1)
        let (later, final) := rearrange last next
        (seen ++ next :: later, final))
      (rearrange last xs)

/-- The orders of a list, by exchanges, starting with its own. -/
def exchangeOrders (xs : List α) : List (List α) :=
  xs :: (rearrange (xs.length - 1) xs).1

/-! ### The orders as a loop

Exchanges can be found by counting instead. Each place has a counter of the rounds in which the item
there has been exchanged. The loop looks at one place after the other, from the second on. If the
counter of the place has not reached its number, the item there is exchanged, which is counted, and
the loop is back at the second place. Else the counter starts anew, and the next place is looked at.
-/

theorem partner_lt {i round n : Nat} (hround : round < i) (hi : i < n) : partner i round < n := by
  unfold partner
  split <;> omega

/-- More than what the places before `i` can have ahead of them, all their counters being reset. -/
def weight : Nat → Nat
  | 0 => 1
  | i + 1 => weight i + (i * weight i + 1)

/-- How much is ahead of the loop at place `i`, as far as the first places are concerned: what the
counters may still count, and for the places that are not behind it one reset each. -/
def ahead (counter : Nat → Nat) (i : Nat) : (places : Nat) → Nat
  | 0 => 0
  | k + 1 =>
    ahead counter i k + (k - counter k) * weight k + if i ≤ k then k * weight k + 1 else 0

section Ahead

variable {counter counter' : Nat → Nat} {i n : Nat}

/-- What counters count from the second place on is not more than from place `i` on, but for the
weight of the places between. -/
theorem ahead_one_lt (hsame : ∀ k < i, counter' k = counter k) {places : Nat}
    (hplaces : places ≤ i) :
    ahead counter' 1 places < ahead counter i places + weight places := by
  induction places with
  | zero => simp [ahead, weight]
  | succ k ih =>
    have hk := ih (by omega)
    have hbehind : ¬i ≤ k := by omega
    rw [ahead, ahead, weight, hsame k (by omega), if_neg hbehind]
    split <;> omega

/-- Counting at a place leaves less ahead. -/
theorem ahead_count_lt (hi : i < n) (hcounter : counter i < i) (hcount : counter' i = counter i + 1)
    (hsame : ∀ k, k ≠ i → counter' k = counter k) : ahead counter' 1 n < ahead counter i n := by
  induction n with
  | zero => omega
  | succ k ih =>
    rw [ahead, ahead]
    rcases Nat.lt_or_ge i k with hlt | hge
    · have hk := ih hlt
      rw [hsame k (by omega), if_pos (show 1 ≤ k by omega), if_pos (show i ≤ k by omega)]
      omega
    · obtain rfl : i = k := by omega
      have hbefore := ahead_one_lt (fun j hj => hsame j (by omega)) (Nat.le_refl i)
      have hleft : i - counter i = i - counter' i + 1 := by omega
      rw [if_pos (show 1 ≤ i by omega), if_pos (Nat.le_refl i), hleft, Nat.add_mul, Nat.one_mul]
      omega

/-- Resetting the counter of a place leaves less ahead of the next place. -/
theorem ahead_reset_lt (hi : i < n) (hreset : counter' i = 0)
    (hsame : ∀ k, k ≠ i → counter' k = counter k) :
    ahead counter' (i + 1) n < ahead counter i n := by
  -- Places before `i` are behind the loop before and after.
  have hbefore : ∀ places ≤ i, ahead counter' (i + 1) places = ahead counter i places := by
    intro places hplaces
    induction places with
    | zero => rfl
    | succ k ih =>
      rw [ahead, ahead, ih (by omega), hsame k (by omega), if_neg (show ¬i + 1 ≤ k by omega),
        if_neg (show ¬i ≤ k by omega)]
  induction n with
  | zero => omega
  | succ k ih =>
    rw [ahead, ahead]
    rcases Nat.lt_or_ge i k with hlt | hge
    · have hk := ih hlt
      rw [hsame k (by omega), if_pos (show i + 1 ≤ k by omega), if_pos (show i ≤ k by omega)]
      omega
    · obtain rfl : i = k := by omega
      rw [hbefore i (Nat.le_refl i), hreset, if_neg (show ¬i + 1 ≤ i by omega),
        if_pos (Nat.le_refl i), Nat.sub_zero]
      omega

end Ahead

/-- The orders that follow the present one, where the loop is at place `i`. -/
def countOrders {n : Nat} (present : Vector α n) (counters : Vector Nat n) (i : Nat) :
    List (List α) :=
  if hi : i < n then
    if hcounter : counters[i] < i then
      let next := present.swap (partner i counters[i]) i (partner_lt hcounter hi) hi
      next.toList :: countOrders next (counters.set i (counters[i] + 1)) 1
    else countOrders present (counters.set i 0) (i + 1)
  else []
termination_by ahead (fun k => counters[k]?.getD 0) i n
decreasing_by
  · exact ahead_count_lt hi (by simpa [hi] using hcounter) (by simp [hi])
      fun k hk => by simp [Ne.symm hk]
  · exact ahead_reset_lt hi (by simp [hi]) fun k hk => by simp [Ne.symm hk]

/-- The orders of a list, by counting, starting with its own. -/
def countedOrders (xs : List α) : List (List α) :=
  xs :: countOrders ⟨xs.toArray, List.size_toArray⟩ (Vector.replicate xs.length 0) 1

/-- All orders of a list. -/
def permutations : List α → List (List α)
  | [] => [[]]
  | [a] => [[a]]
  | [a, b] => [[a, b], [b, a]]
  | [a, b, c] => [[a, b, c], [a, c, b], [b, a, c], [b, c, a], [c, a, b], [c, b, a]]
  | xs => exchangeOrders xs

/-- The sublists of a list, in the order of a binary counter. -/
def subsets (xs : List α) : List (List α) :=
  xs.foldl (fun found x => found ++ found.map (· ++ [x])) [[]]

/-- Every selection of items, each in every order; the empty one comes first. -/
def selections (xs : List α) : List (List α) :=
  (subsets xs).flatMap permutations

/-! ### The selections as a loop

A mask has a bit for each item, and stands for the items whose bits are set. Masks in the order of
numbers are a binary counter. -/

/-- The items at the places of the bits that are set in a mask. -/
def masked (mask : UInt64) (xs : List α) : List α :=
  (xs.zipIdx.filter fun (_, i) => mask &&& (1 <<< i.toUInt64) != 0).map (·.1)

/-- The selections of each mask in turn, from the one with the lowest bit alone up to the one with as
many bits as there are items. The empty one, of no mask, comes first. -/
def maskedSelections (xs : List α) : List (List α) :=
  let limit : UInt64 := 1 <<< xs.length.toUInt64
  [] :: (List.range' 1 (limit.toNat - 1)).flatMap fun mask => permutations (masked mask.toUInt64 xs)

/-- The longest run of flags that a usage may declare: six flags already have 1957 selections. -/
def maxRun : Nat := 6

example : selections ["s", "ip"] = [[], ["s"], ["ip"], ["s", "ip"], ["ip", "s"]] := by decide

example : (exchangeOrders [1, 2, 3]).length = 6 := by decide

end CommandLanguage.Arrangement
