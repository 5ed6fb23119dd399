import CommandLanguage.Proofs.Selection
import Mathlib.Data.List.Permutation
import Mathlib.GroupTheory.Perm.Support

/-!
# All orders

The orders that `Arrangement` lists are all there are: `mem_permutations_iff` and
`mem_selections_iff` say so without mention of exchanges.

Exchanges act on places. The items of a list at the places that a permutation of the places tells
are again a list (`arranged`), and what exchanges up to a place do in all is a permutation of the
places up to there (`effect`): for an even last place they exchange the first place and the last
one, and for an odd one they move all places in one cycle (`effect_law`). Each round of exchanges
therefore begins with another place's item at the last place (`exists_turn`), so that the orders of
the rounds together are all orders.
-/

namespace CommandLanguage.Arrangement

open Equiv (Perm swap)

variable {α : Type}

/-! ## Places -/

/-- The items of places in order. -/
def arranged (n : Nat) (f : Nat → α) : List α :=
  (List.range n).map f

theorem arranged_getD (xs : List α) (a : α) : arranged xs.length (fun i => xs.getD i a) = xs := by
  refine List.ext_getElem (by simp [arranged]) ?_
  intro i hi hi'
  simp [arranged, hi']

/-- Exchanging two items is exchanging their places. -/
theorem exchange_arranged {n i j : Nat} (hi : i < n) (hj : j < n) (f : Nat → α) :
    exchange (arranged n f) i j = arranged n (f ∘ swap i j) := by
  have hget : ∀ k < n, (arranged n f)[k]? = some (f k) := by
    intro k hk
    simp [arranged, hk]
  unfold exchange
  rw [hget i hi, hget j hj]
  refine List.ext_getElem (by simp [arranged]) ?_
  intro k hk hk'
  by_cases hkj : k = j
  · simp [arranged, hkj]
  · by_cases hki : k = i
    · simp [arranged, hki, Ne.symm (hki ▸ hkj : i ≠ j)]
    · simp [arranged, Ne.symm hkj, Ne.symm hki, Equiv.swap_apply_of_ne_of_ne hki hkj]

/-- Every order of the items of places tells a permutation of the places. -/
theorem exists_perm_of_perm_arranged {n : Nat} {f : Nat → α} {ys : List α}
    (h : ys.Perm (arranged n f)) :
    ∃ σ : Perm Nat, (∀ x, n ≤ x → σ x = x) ∧ ys = arranged n (f ∘ σ) := by
  -- The list rearranges the values as some list `zs` rearranges the places.
  have hmem : ys ∈ ((List.range n).map f).permutations := List.mem_permutations.2 h
  rw [← List.map_permutations] at hmem
  rcases List.mem_map.1 hmem with ⟨zs, hzs, rfl⟩
  have hperm : zs.Perm (List.range n) := List.mem_permutations.1 hzs
  have hlength : zs.length = n := by simpa using hperm.length_eq
  have hnodup : zs.Nodup := hperm.nodup_iff.2 List.nodup_range
  have hlt : ∀ i, i < n → zs.getD i i < n := by
    intro i hi
    have hi' : i < zs.length := by omega
    have hin : zs[i] ∈ List.range n := hperm.subset (List.getElem_mem hi')
    simpa [hi'] using hin
  have hout : ∀ i, n ≤ i → zs.getD i i = i := by
    intro i hi
    simp [hlength, hi]
  -- Beyond the places nothing is moved, so the places are sent to places.
  have hinj : Function.Injective fun i => zs.getD i i := by
    intro i j hij
    dsimp only at hij
    rcases Nat.lt_or_ge i n with hi | hi
    · rcases Nat.lt_or_ge j n with hj | hj
      · have hi' : i < zs.length := by omega
        have hj' : j < zs.length := by omega
        have heq : zs[i] = zs[j] := by simpa [hi', hj'] using hij
        exact hnodup.getElem_inj_iff.1 heq
      · have hlt := hlt i hi
        rw [hij, hout j hj] at hlt
        omega
    · rcases Nat.lt_or_ge j n with hj | hj
      · have hlt := hlt j hj
        rw [← hij, hout i hi] at hlt
        omega
      · rwa [hout i hi, hout j hj] at hij
  have hsurj : Function.Surjective fun i => zs.getD i i := by
    intro x
    rcases Nat.lt_or_ge x n with hx | hx
    · have hin : x ∈ zs := hperm.symm.subset (List.mem_range.2 hx)
      rcases List.getElem_of_mem hin with ⟨i, hi, rfl⟩
      exact ⟨i, by simp [hi]⟩
    · exact ⟨x, hout x hx⟩
  refine ⟨.ofBijective _ ⟨hinj, hsurj⟩, hout, ?_⟩
  refine List.ext_getElem (by simp [arranged, hlength]) ?_
  intro i hi hi'
  have hi'' : i < zs.length := by simpa using hi
  simp [arranged, hi'']

/-! ## What exchanges do in all -/

/-- The places from which a round starts, where all that goes on in a round before its exchange of
place `k` with another is `E`. -/
def turn (E : Perm Nat) (k : Nat) : (round : Nat) → Perm Nat
  | 0 => 1
  | round + 1 => turn E k round * E * swap (partner k round) k

/-- What all exchanges up to a place do to the places. -/
def effect : (last : Nat) → Perm Nat
  | 0 => 1
  | last + 1 => turn (effect last) (last + 1) (last + 1) * effect last

/-- Whether a permutation moves all places up to `k` in one cycle, and no others. -/
structure IsCycle (k : Nat) (E : Perm Nat) : Prop where
  fixed : ∀ x, k < x → E x = x
  back : (E ^ (k + 1)) 0 = 0
  apart : ∀ i, 0 < i → i ≤ k → (E ^ i) 0 ≠ 0
  onto : ∀ x ≤ k, ∃ i ≤ k, (E ^ i) 0 = x

theorem turn_fixed {E : Perm Nat} {k x : Nat} (hE : ∀ x, k < x → E x = x) (hx : k < x)
    {round : Nat} (hround : round ≤ k) : turn E k round x = x := by
  induction round with
  | zero => simp [turn]
  | succ round ih =>
    have hpartner : x ≠ partner k round := by
      unfold partner
      split <;> omega
    have hk : x ≠ k := by omega
    rw [turn, Equiv.Perm.mul_apply, Equiv.swap_apply_of_ne_of_ne hpartner hk,
      Equiv.Perm.mul_apply, hE x hx]
    exact ih (by omega)

/-! ### An even last place -/

section Even

variable {k : Nat} {E : Perm Nat}

/-- Rounds that all exchange the same two places. -/
theorem turn_of_even (heven : (k + 1) % 2 = 0) (round : Nat) :
    turn E (k + 1) round = (E * swap 0 (k + 1)) ^ round := by
  induction round with
  | zero => rfl
  | succ round ih => rw [turn, ih, pow_succ, partner, if_pos heven, mul_assoc]

/-- The last place of a round has the item of a place further along the cycle. -/
theorem IsCycle.pow_apply_last (h : IsCycle k E) {round : Nat} (hround : round ≤ k) :
    ((E * swap 0 (k + 1)) ^ (round + 1)) (k + 1) = (E ^ (round + 1)) 0 := by
  induction round with
  | zero => simp
  | succ round ih =>
    have hzero : (E ^ (round + 1)) 0 ≠ 0 := h.apart (round + 1) (by omega) (by omega)
    have hlast : (E ^ (round + 1)) 0 ≠ k + 1 := by
      intro heq
      have hpow : (E ^ (round + 1)) (k + 1) = k + 1 :=
        Equiv.Perm.pow_apply_eq_self_of_apply_eq_self (h.fixed (k + 1) (by omega)) (round + 1)
      have hinj := (E ^ (round + 1)).injective (heq.trans hpow.symm)
      omega
    rw [pow_succ', Equiv.Perm.mul_apply, ih (by omega), Equiv.Perm.mul_apply,
      Equiv.swap_apply_of_ne_of_ne hzero hlast, pow_succ' E (round + 1), Equiv.Perm.mul_apply]

theorem IsCycle.exists_turn (h : IsCycle k E) (heven : (k + 1) % 2 = 0) {x : Nat}
    (hx : x ≤ k + 1) : ∃ round ≤ k + 1, turn E (k + 1) round (k + 1) = x := by
  rcases Nat.lt_or_ge k x with hlt | hge
  · obtain rfl : x = k + 1 := by omega
    exact ⟨0, by omega, rfl⟩
  · rcases h.onto x hge with ⟨i, hi, rfl⟩
    rcases Nat.eq_zero_or_pos i with rfl | hpos
    · refine ⟨k + 1, le_rfl, ?_⟩
      rw [turn_of_even heven, h.pow_apply_last le_rfl, h.back]
      rfl
    · obtain ⟨round, rfl⟩ : ∃ round, i = round + 1 := ⟨i - 1, by omega⟩
      exact ⟨round + 1, by omega, by rw [turn_of_even heven, h.pow_apply_last (by omega)]⟩

/-- One more round would bring all items back to their places. -/
theorem IsCycle.pow_eq_one (h : IsCycle k E) (heven : (k + 1) % 2 = 0) :
    (E * swap 0 (k + 1)) ^ (k + 2) = 1 := by
  have hlast : ((E * swap 0 (k + 1)) ^ (k + 2)) (k + 1) = k + 1 := by
    rw [pow_succ', Equiv.Perm.mul_apply, h.pow_apply_last le_rfl, h.back]
    simp [h.fixed (k + 1) (by omega)]
  ext x
  rcases Nat.lt_or_ge (k + 1) x with hlt | hge
  · have hfixed : (E * swap 0 (k + 1)) x = x := by
      have hzero : x ≠ 0 := by omega
      have hne : x ≠ k + 1 := by omega
      rw [Equiv.Perm.mul_apply, Equiv.swap_apply_of_ne_of_ne hzero hne, h.fixed x (by omega)]
    exact Equiv.Perm.pow_apply_eq_self_of_apply_eq_self hfixed (k + 2)
  · -- Every place is reached from the last one, and powers commute.
    rcases h.exists_turn heven hge with ⟨round, -, hround⟩
    rw [turn_of_even heven] at hround
    rw [← hround, ← Equiv.Perm.mul_apply, ← pow_add, Nat.add_comm (k + 2) round, pow_add,
      Equiv.Perm.mul_apply, hlast]
    rfl

theorem IsCycle.effect_succ (h : IsCycle k (effect k)) (heven : (k + 1) % 2 = 0) :
    effect (k + 1) = swap 0 (k + 1) := by
  have hone := h.pow_eq_one heven
  rw [pow_succ, ← mul_assoc] at hone
  rw [effect, turn_of_even heven, eq_inv_of_mul_eq_one_left hone, Equiv.swap_inv]

end Even

/-! ### An odd last place -/

section Odd

variable {k : Nat}

/-- The exchanges of place `k + 1` with each of the places before `round` in turn, the first place
and place `k` having been exchanged. -/
def exchanges (k : Nat) : (round : Nat) → Perm Nat
  | 0 => 1
  | round + 1 => exchanges k round * swap (swap 0 k round) (k + 1)

theorem swap_le {i : Nat} (hi : i ≤ k) : swap 0 k i ≤ k := by
  rw [Equiv.swap_apply_def]
  split
  · exact le_rfl
  · split <;> omega

theorem swap_pow_last (m : Nat) : (swap 0 k ^ m) (k + 1) = k + 1 :=
  Equiv.Perm.pow_apply_eq_self_of_apply_eq_self
    (Equiv.swap_apply_of_ne_of_ne (by omega) (by omega)) m

theorem swap_pow_two_mul (m : Nat) : swap 0 k ^ (2 * m) = 1 := by
  rw [pow_mul, pow_two, Equiv.swap_mul_self, one_pow]

/-- What a round does before and after it exchanges the first place and place `k` is gathered in
front. -/
theorem turn_of_odd (hodd : (k + 1) % 2 = 1) {round : Nat} (hround : round ≤ k + 1) :
    turn (swap 0 k) (k + 1) round = exchanges k round * swap 0 k ^ round := by
  induction round with
  | zero => rfl
  | succ round ih =>
    have hplace : (swap 0 k ^ (round + 1)) round = swap 0 k round := by
      obtain ⟨m, rfl | rfl⟩ : ∃ m, round = 2 * m ∨ round = 2 * m + 1 := ⟨round / 2, by omega⟩
      · rw [pow_succ, swap_pow_two_mul, one_mul]
      · have hzero : 2 * m + 1 ≠ 0 := by omega
        have hk : 2 * m + 1 ≠ k := by omega
        rw [show 2 * m + 1 + 1 = 2 * (m + 1) by omega, swap_pow_two_mul,
          Equiv.swap_apply_of_ne_of_ne hzero hk]
        rfl
    have hpartner : partner (k + 1) round = round := by simp [partner, hodd]
    rw [turn, ih (by omega), hpartner, mul_assoc (exchanges k round), ← pow_succ, mul_assoc,
      Equiv.mul_swap_eq_swap_mul, swap_pow_last, hplace, exchanges, mul_assoc]

theorem exchanges_of_ne {x round : Nat} (hx : ∀ i < round, swap 0 k i ≠ x) (hlast : x ≠ k + 1) :
    exchanges k round x = x := by
  induction round with
  | zero => rfl
  | succ round ih =>
    have hne : x ≠ swap 0 k round := (hx round (by omega)).symm
    rw [exchanges, Equiv.Perm.mul_apply, Equiv.swap_apply_of_ne_of_ne hne hlast]
    exact ih fun i hi => hx i (by omega)

theorem exchanges_last {round : Nat} (hround : round ≤ k) :
    exchanges k (round + 1) (k + 1) = swap 0 k round := by
  rw [exchanges, Equiv.Perm.mul_apply, Equiv.swap_apply_right]
  have hle := swap_le hround
  refine exchanges_of_ne ?_ (by omega)
  intro i hi heq
  have hinj := (swap 0 k).injective heq
  omega

/-- Each place that has been exchanged has the item of the one exchanged before it. -/
theorem exchanges_apply {i round : Nat} (hi : i < round) (hround : round ≤ k + 1) :
    exchanges k round (swap 0 k i) = exchanges k i (k + 1) := by
  induction round with
  | zero => omega
  | succ round ih =>
    rw [exchanges, Equiv.Perm.mul_apply]
    rcases Nat.lt_or_ge i round with hlt | hge
    · have hle := swap_le (show i ≤ k by omega)
      have hne : swap 0 k i ≠ swap 0 k round := by
        intro heq
        have hinj := (swap 0 k).injective heq
        omega
      rw [Equiv.swap_apply_of_ne_of_ne hne (by omega)]
      exact ih hlt (by omega)
    · obtain rfl : i = round := by omega
      rw [Equiv.swap_apply_left]

theorem exists_turn_of_odd (hodd : (k + 1) % 2 = 1) {x : Nat} (hx : x ≤ k + 1) :
    ∃ round ≤ k + 1, turn (swap 0 k) (k + 1) round (k + 1) = x := by
  rcases Nat.lt_or_ge k x with hlt | hge
  · obtain rfl : x = k + 1 := by omega
    exact ⟨0, by omega, rfl⟩
  · have hle := swap_le hge
    refine ⟨swap 0 k x + 1, by omega, ?_⟩
    rw [turn_of_odd hodd (by omega), Equiv.Perm.mul_apply, swap_pow_last, exchanges_last hle,
      Equiv.swap_apply_self]

/-- The cycle that exchanges with each place in turn leave, step by step from the first place. -/
theorem exchanges_pow {i : Nat} (hi : i ≤ k) : (exchanges k (k + 1) ^ i) 0 = swap 0 k (k - i) := by
  induction i with
  | zero => simp
  | succ i ih =>
    obtain ⟨j, hj⟩ : ∃ j, k - i = j + 1 := ⟨k - i - 1, by omega⟩
    rw [pow_succ', Equiv.Perm.mul_apply, ih (by omega), exchanges_apply (by omega) le_rfl, hj,
      exchanges_last (by omega), show k - (i + 1) = j by omega]

theorem isCycle_exchanges : IsCycle (k + 1) (exchanges k (k + 1)) := by
  have hround : (exchanges k (k + 1) ^ (k + 1)) 0 = k + 1 := by
    rw [pow_succ', Equiv.Perm.mul_apply, exchanges_pow le_rfl, exchanges_apply (by omega) le_rfl,
      Nat.sub_self]
    rfl
  refine ⟨?_, ?_, ?_, ?_⟩
  · intro x hx
    refine exchanges_of_ne ?_ (by omega)
    intro i hi heq
    have hle := swap_le (show i ≤ k by omega)
    omega
  · rw [pow_succ', Equiv.Perm.mul_apply, hround, exchanges_last le_rfl, Equiv.swap_apply_right]
  · intro i hpos hi
    rcases Nat.lt_or_ge k i with hlt | hge
    · obtain rfl : i = k + 1 := by omega
      rw [hround]
      omega
    · rw [exchanges_pow hge]
      intro heq
      have hk : k - i = k := (swap 0 k).injective (heq.trans (Equiv.swap_apply_right 0 k).symm)
      omega
  · intro x hx
    rcases Nat.lt_or_ge k x with hlt | hge
    · exact ⟨k + 1, le_rfl, by omega⟩
    · have hle := swap_le hge
      refine ⟨k - swap 0 k x, by omega, ?_⟩
      rw [exchanges_pow (by omega), show k - (k - swap 0 k x) = swap 0 k x by omega,
        Equiv.swap_apply_self]

end Odd

/-- **What exchanges do.** Up to an even last place they exchange the first place and the last one,
and up to an odd one they move all places in a cycle. -/
theorem effect_law (last : Nat) :
    (last % 2 = 0 → effect last = swap 0 last) ∧ (last % 2 = 1 → IsCycle last (effect last)) := by
  induction last with
  | zero => exact ⟨fun _ => (Equiv.swap_self 0).symm, by simp⟩
  | succ k ih =>
    constructor
    · intro heven
      exact (ih.2 (by omega)).effect_succ heven
    · intro hodd
      have hpow : swap 0 k ^ (k + 2) = 1 := by
        obtain ⟨m, hm⟩ : ∃ m, k + 2 = 2 * m := ⟨(k + 2) / 2, by omega⟩
        rw [hm, swap_pow_two_mul]
      have heffect : effect (k + 1) = exchanges k (k + 1) := by
        rw [effect, ih.1 (by omega), turn_of_odd hodd le_rfl, mul_assoc, ← pow_succ, hpow, mul_one]
      rw [heffect]
      exact isCycle_exchanges

theorem effect_fixed {last x : Nat} (hx : last < x) : effect last x = x := by
  rcases Nat.mod_two_eq_zero_or_one last with heven | hodd
  · rw [(effect_law last).1 heven]
    exact Equiv.swap_apply_of_ne_of_ne (by omega) (by omega)
  · exact ((effect_law last).2 hodd).fixed x hx

/-- Every place's item is at the last place when some round begins. -/
theorem exists_turn {last x : Nat} (hx : x ≤ last + 1) :
    ∃ round ≤ last + 1, turn (effect last) (last + 1) round (last + 1) = x := by
  rcases Nat.mod_two_eq_zero_or_one last with heven | hodd
  · rw [(effect_law last).1 heven]
    exact exists_turn_of_odd (by omega) hx
  · exact ((effect_law last).2 hodd).exists_turn (by omega) hx

/-! ## Listing by exchanges -/

/-- The orders seen after some rounds, and the present one. -/
def rounds (last : Nat) (xs : List α) (round : Nat) : List (List α) × List α :=
  (List.range round).foldl
    (fun (seen, xs) round =>
      let next := exchange xs (partner (last + 1) round) (last + 1)
      let (later, final) := rearrange last next
      (seen ++ next :: later, final))
    (rearrange last xs)

theorem rearrange_succ (last : Nat) (xs : List α) :
    rearrange (last + 1) xs = rounds last xs (last + 1) := rfl

theorem rounds_succ {last round : Nat} {xs next : List α}
    (hnext : exchange (rounds last xs round).2 (partner (last + 1) round) (last + 1) = next) :
    rounds last xs (round + 1) =
      ((rounds last xs round).1 ++ next :: (rearrange last next).1, (rearrange last next).2) := by
  subst hnext
  rw [rounds, List.range_succ, List.foldl_append]
  rfl

/-- Whether exchanges up to a place leave the order that `effect` tells, and go through all orders of
the places up to there. -/
structure Exhausts (last n : Nat) (f : Nat → α) : Prop where
  final : (rearrange last (arranged n f)).2 = arranged n (f ∘ effect last)
  seen : ∀ σ : Perm Nat, (∀ x, last < x → σ x = x) →
    arranged n (f ∘ σ) ∈ arranged n f :: (rearrange last (arranged n f)).1

/-- What rounds go through, if all that goes on in each of them is known. -/
theorem rounds_exhaust {last n : Nat} (hlast : last + 1 < n)
    (ih : ∀ f : Nat → α, Exhausts last n f) (f : Nat → α) {round : Nat} (hround : round ≤ last + 1) :
    (rounds last (arranged n f) round).2 =
        arranged n (f ∘ (turn (effect last) (last + 1) round * effect last : Perm Nat)) ∧
      ∀ r ≤ round, ∀ τ : Perm Nat, (∀ x, last < x → τ x = x) →
        arranged n (f ∘ (turn (effect last) (last + 1) r * τ : Perm Nat)) ∈
          arranged n f :: (rounds last (arranged n f) round).1 := by
  induction round with
  | zero =>
    refine ⟨(ih f).final, ?_⟩
    intro r hr τ hτ
    obtain rfl : r = 0 := by omega
    exact (ih f).seen τ hτ
  | succ round ihround =>
    rcases ihround (by omega) with ⟨hpresent, hseen⟩
    have hpartner : partner (last + 1) round < n := by
      unfold partner
      split <;> omega
    -- The next round starts from the order that its turn tells.
    have hnext : exchange (rounds last (arranged n f) round).2 (partner (last + 1) round) (last + 1) =
        arranged n (f ∘ turn (effect last) (last + 1) (round + 1)) := by
      rw [hpresent, exchange_arranged hpartner hlast]
      rfl
    have hrest := ih (f ∘ turn (effect last) (last + 1) (round + 1))
    rw [rounds_succ hnext]
    refine ⟨hrest.final, ?_⟩
    intro r hr τ hτ
    rcases Nat.lt_or_ge round r with hlt | hge
    · obtain rfl : r = round + 1 := by omega
      exact List.mem_cons_of_mem _ (List.mem_append_right _ (hrest.seen τ hτ))
    · rcases List.mem_cons.1 (hseen r hge τ hτ) with heq | hmem
      · rw [heq]
        exact List.mem_cons_self
      · exact List.mem_cons_of_mem _ (List.mem_append_left _ hmem)

theorem exhausts {last n : Nat} (hlast : last < n) (f : Nat → α) : Exhausts last n f := by
  induction last generalizing f with
  | zero =>
    refine ⟨rfl, ?_⟩
    intro σ hσ
    -- What moves no place but the first moves none.
    have hone : σ = 1 := by
      ext x
      rcases Nat.eq_zero_or_pos x with rfl | hpos
      · by_contra hne
        have hfixed := hσ (σ 0) (Nat.pos_of_ne_zero hne)
        exact hne (σ.injective hfixed)
      · exact hσ x hpos
    rw [hone]
    exact List.mem_cons_self
  | succ last ih =>
    have hrounds := rounds_exhaust hlast (ih (by omega)) f (Nat.le_refl (last + 1))
    rw [← rearrange_succ] at hrounds
    refine ⟨hrounds.1, ?_⟩
    intro σ hσ
    have hle : σ (last + 1) ≤ last + 1 := by
      by_contra hlt
      have hfixed := hσ (σ (last + 1)) (by omega)
      have hinj := σ.injective hfixed
      omega
    rcases exists_turn hle with ⟨round, hround, hturn⟩
    have hfixed : ∀ x, last < x → ((turn (effect last) (last + 1) round)⁻¹ * σ : Perm Nat) x = x := by
      intro x hx
      rw [Equiv.Perm.mul_apply, Equiv.Perm.inv_eq_iff_eq]
      rcases Nat.lt_or_ge (last + 1) x with hlt | hge
      · rw [hσ x hlt, turn_fixed (fun y hy => effect_fixed (by omega)) hlt hround]
      · obtain rfl : x = last + 1 := by omega
        exact hturn.symm
    have hmem := hrounds.2 round hround _ hfixed
    rwa [mul_inv_cancel_left] at hmem

/-- Exchanges go through all orders of a list. -/
theorem mem_exchangeOrders_of_perm {xs ys : List α} (h : ys.Perm xs) : ys ∈ exchangeOrders xs := by
  cases xs with
  | nil =>
    obtain rfl := h.eq_nil
    exact List.mem_cons_self
  | cons a xs =>
    have hxs := arranged_getD (a :: xs) a
    rw [← hxs] at h
    rcases exists_perm_of_perm_arranged h with ⟨σ, hσ, rfl⟩
    have hlength : (a :: xs).length - 1 < (a :: xs).length := by simp
    have hseen := (exhausts hlength fun i => (a :: xs).getD i a).seen σ fun x hx => hσ x (by omega)
    rw [hxs] at hseen
    exact hseen

/-! ## Orders and selections -/

/-- The orders of up to three items, listed directly, are those that exchanges go through. -/
theorem mem_permutations_iff_mem_exchangeOrders {xs ys : List α} :
    ys ∈ permutations xs ↔ ys ∈ exchangeOrders xs := by
  unfold permutations
  split
  · exact Iff.rfl
  · exact Iff.rfl
  · exact Iff.rfl
  · rename_i a b c
    have hexchanges : exchangeOrders [a, b, c] =
        [[a, b, c], [b, a, c], [c, a, b], [a, c, b], [b, c, a], [c, b, a]] := by
      simp [exchangeOrders, rearrange, exchange, partner, List.range, List.range.loop]
    rw [hexchanges]
    simp only [List.mem_cons, List.not_mem_nil, or_false]
    grind
  · exact Iff.rfl

/-- **The orders of a list.** They are what rearranges it. -/
theorem mem_permutations_iff {xs ys : List α} : ys ∈ permutations xs ↔ ys.Perm xs := by
  constructor
  · exact perm_of_mem_permutations
  · intro h
    exact mem_permutations_iff_mem_exchangeOrders.2 (mem_exchangeOrders_of_perm h)

theorem mem_subsets_of_sublist {xs ys : List α} (h : ys.Sublist xs) : ys ∈ subsets xs := by
  -- As for `sublist_of_mem_subsets`, the induction takes items from the end.
  obtain ⟨rs, rfl⟩ : ∃ rs, xs = List.reverse rs := ⟨xs.reverse, by simp⟩
  induction rs generalizing ys with
  | nil =>
    obtain rfl : ys = [] := by simpa using h
    exact nil_mem_subsets _
  | cons r rs ih =>
    rw [List.reverse_cons] at h
    rw [List.reverse_cons, subsets_concat, List.mem_append, List.mem_map]
    rcases List.sublist_append_iff.1 h with ⟨front, back, rfl, hfront, hback⟩
    rcases List.sublist_singleton.1 hback with rfl | rfl
    · rw [List.append_nil]
      exact .inl (ih hfront)
    · exact .inr ⟨front, ih hfront, rfl⟩

/-- **The selections of a list.** They are what rearranges some of its items. -/
theorem mem_selections_iff {xs ys : List α} : ys ∈ selections xs ↔ ys.Subperm xs := by
  constructor
  · intro h
    rcases exists_sublist_of_mem_selections h with ⟨zs, hsublist, hperm⟩
    exact ⟨zs, hperm.symm, hsublist⟩
  · rintro ⟨zs, hperm, hsublist⟩
    exact List.mem_flatMap.2 ⟨zs, mem_subsets_of_sublist hsublist, mem_permutations_iff.2 hperm.symm⟩

end CommandLanguage.Arrangement
