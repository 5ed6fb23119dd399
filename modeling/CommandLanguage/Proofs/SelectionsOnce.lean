import CommandLanguage.Proofs.OrdersOnce
import Mathlib.Data.List.Sublists
import Mathlib.Data.Nat.Bitwise

/-!
# Each selection once

The sublists of a list in the order of a binary counter are those of the numbers that the counter
goes through, each number having a bit for each item (`subsets_eq`). A mask is such a number as long
as it has a bit for each item (`masked_eq`), so that the loop over the masks lists the selections
(`maskedSelections_eq`).

If the items are different, no two sublists have an order in common, so no selection comes of two
masks. `selections_once` says that the selections are then all lists of different items that are
there.
-/

namespace CommandLanguage.Arrangement

variable {α : Type}

/-! ## Numbers as selections -/

/-- The items at the places of the bits that are set in a number. -/
def picked (number : Nat) (xs : List α) : List α :=
  (xs.zipIdx.filter fun (_, i) => number.testBit i).map (·.1)

/-- Only the bits that items have count. -/
theorem picked_congr {number number' : Nat} {xs : List α}
    (h : ∀ i < xs.length, number.testBit i = number'.testBit i) :
    picked number xs = picked number' xs := by
  have hfilter : xs.zipIdx.filter (fun (_, i) => number.testBit i) =
      xs.zipIdx.filter fun (_, i) => number'.testBit i := by
    refine List.filter_congr ?_
    rintro ⟨x, i⟩ hx
    exact h i (List.snd_lt_of_mem_zipIdx hx)
  rw [picked, hfilter, picked]

theorem picked_concat (number : Nat) (xs : List α) (x : α) :
    picked number (xs ++ [x]) =
      picked number xs ++ if number.testBit xs.length then [x] else [] := by
  rw [picked, List.zipIdx_append, List.filter_append, List.map_append, ← picked]
  cases hbit : number.testBit xs.length <;> simp [hbit]

/-- **The binary counter.** The sublists of a list are those of the numbers with a bit for each item,
in the order of the numbers. -/
theorem subsets_eq (xs : List α) :
    subsets xs = (List.range (2 ^ xs.length)).map (picked · xs) := by
  induction xs using List.reverseRecOn with
  | nil => rfl
  | append_singleton xs x ih =>
    -- The last item has the highest bit: the numbers without it come before those with it.
    have hwithout : ∀ number ∈ List.range (2 ^ xs.length),
        picked number (xs ++ [x]) = picked number xs := by
      intro number hnumber
      rw [picked_concat, Nat.testBit_lt_two_pow (List.mem_range.1 hnumber)]
      simp
    have hwith : ∀ number ∈ List.range (2 ^ xs.length),
        picked (2 ^ xs.length + number) (xs ++ [x]) = picked number xs ++ [x] := by
      intro number hnumber
      have hlow : picked (2 ^ xs.length + number) xs = picked number xs :=
        picked_congr fun i hi => Nat.testBit_two_pow_add_gt hi number
      rw [picked_concat, hlow, Nat.testBit_two_pow_add_eq,
        Nat.testBit_lt_two_pow (List.mem_range.1 hnumber)]
      simp
    rw [subsets_concat, ih, List.length_append, List.length_singleton, Nat.pow_succ, Nat.mul_two,
      List.range_add, List.map_append, List.map_map, List.map_map, List.map_congr_left hwithout]
    congr 1
    exact List.map_congr_left fun number hnumber => (hwith number hnumber).symm

/-- The selection of no item is that of the first number. -/
theorem selections_eq_cons (xs : List α) :
    selections xs =
      [] :: (List.range' 1 (2 ^ xs.length - 1)).flatMap fun number =>
        permutations (picked number xs) := by
  have hzero : picked 0 xs = [] := by simp [picked]
  obtain ⟨rest, hrest⟩ := Nat.exists_eq_succ_of_ne_zero (Nat.two_pow_pos xs.length).ne'
  rw [selections, subsets_eq, List.flatMap_map, hrest, Nat.succ_sub_one, List.range_eq_range',
    List.range'_succ, List.flatMap_cons, hzero]
  rfl

/-! ## Masks -/

/-- The mask of one place. -/
theorem toNat_one_shiftLeft {i : Nat} (hi : i < 64) : (1 <<< i.toUInt64 : UInt64).toNat = 2 ^ i := by
  have hlt : 2 ^ i < 2 ^ 64 := Nat.pow_lt_pow_right (by omega) hi
  have hplace : i % 2 ^ 64 % 64 = i := by omega
  rw [UInt64.toNat_shiftLeft, UInt64.toNat_one, Nat.toUInt64_eq, UInt64.toNat_ofNat', hplace,
    Nat.one_shiftLeft, Nat.mod_eq_of_lt hlt]

theorem and_one_shiftLeft_bne {number i : Nat} (hnumber : number < 2 ^ 64) (hi : i < 64) :
    (number.toUInt64 &&& (1 <<< i.toUInt64) != 0) = number.testBit i := by
  have hand : (number.toUInt64 &&& (1 <<< i.toUInt64)).toNat = (number.testBit i).toNat * 2 ^ i := by
    rw [UInt64.toNat_and, toNat_one_shiftLeft hi, Nat.toUInt64_eq, UInt64.toNat_ofNat',
      Nat.mod_eq_of_lt hnumber, Nat.and_two_pow]
  rw [Bool.eq_iff_iff, bne_iff_ne, ne_eq, ← UInt64.toNat_inj, hand]
  cases number.testBit i <;> simp

theorem masked_eq {number : Nat} {xs : List α} (hnumber : number < 2 ^ 64) (hxs : xs.length ≤ 64) :
    masked number.toUInt64 xs = picked number xs := by
  have hfilter : xs.zipIdx.filter (fun (_, i) => number.toUInt64 &&& (1 <<< i.toUInt64) != 0) =
      xs.zipIdx.filter fun (_, i) => number.testBit i := by
    refine List.filter_congr ?_
    rintro ⟨x, i⟩ hx
    have hi := List.snd_lt_of_mem_zipIdx hx
    exact and_one_shiftLeft_bne hnumber (by omega)
  rw [masked, hfilter, picked]

/-- Going through the masks lists the selections, as long as there are fewer items than bits. -/
theorem maskedSelections_eq {xs : List α} (hxs : xs.length < 64) :
    maskedSelections xs = selections xs := by
  have hlt : 2 ^ xs.length < 2 ^ 64 := Nat.pow_lt_pow_right (by omega) hxs
  have hmasks : ∀ number ∈ List.range' 1 (2 ^ xs.length - 1),
      permutations (masked number.toUInt64 xs) = permutations (picked number xs) := by
    intro number hnumber
    have hbound := List.mem_range'_1.1 hnumber
    rw [masked_eq (by omega) (by omega)]
  rw [maskedSelections, toNat_one_shiftLeft hxs, selections_eq_cons, List.flatMap_congr hmasks]

/-! ## Different items -/

theorem subsets_eq_sublists (xs : List α) : subsets xs = xs.sublists := by
  induction xs using List.reverseRecOn with
  | nil => rfl
  | append_singleton xs x ih => rw [subsets_concat, List.sublists_concat, ih]

/-- The orders of different items are different. -/
theorem nodup_permutations {xs : List α} (hxs : xs.Nodup) : (permutations xs).Nodup :=
  nodup_of_length hxs (length_permutations xs) fun _ hys => mem_permutations_iff.2 hys

/-- No selection of different items comes of two sublists. -/
theorem nodup_selections {xs : List α} (hxs : xs.Nodup) : (selections xs).Nodup := by
  rw [selections, List.nodup_flatMap]
  constructor
  · intro zs hzs
    exact nodup_permutations (hxs.sublist (sublist_of_mem_subsets hzs))
  · have hsubsets : (subsets xs).Nodup := by
      rw [subsets_eq_sublists, List.nodup_sublists]
      exact hxs
    refine hsubsets.imp_of_mem ?_
    intro zs zs' hzs hzs' hne ys hys hys'
    have hperm : zs.Perm zs' :=
      (mem_permutations_iff.1 hys).symm.trans (mem_permutations_iff.1 hys')
    refine hne ((hxs.perm_iff_eq_of_sublist ?_ ?_).1 hperm)
    · exact sublist_of_mem_subsets hzs
    · exact sublist_of_mem_subsets hzs'

/-- **Each selection once.** For different items, of which there are fewer than bits, the loop over the
masks lists the empty selection first, and lists every list of different items that are there once,
and nothing else. -/
theorem selections_once {xs : List α} (hxs : xs.Nodup) (hlength : xs.length < 64) :
    maskedSelections xs = selections xs ∧ (selections xs).head? = some [] ∧
      (selections xs).Nodup ∧ ∀ ys, ys ∈ selections xs ↔ ys.Nodup ∧ ys ⊆ xs := by
  refine ⟨maskedSelections_eq hlength, by rw [selections_eq_cons, List.head?_cons],
    nodup_selections hxs, ?_⟩
  intro ys
  rw [mem_selections_iff]
  constructor
  · rintro ⟨zs, hperm, hsublist⟩
    exact ⟨hperm.nodup_iff.1 (hxs.sublist hsublist), fun y hy =>
      hsublist.subset (hperm.symm.subset hy)⟩
  · rintro ⟨hys, hsubset⟩
    exact hys.subperm hsubset

/-- Four items, some of them in another order, and one of them twice. -/
theorem selections_once_four :
    ["s", "ip", "time", "all"].Nodup ∧ ["s", "ip", "time", "all"].length < 64 ∧
      (maskedSelections ["s", "ip", "time", "all"]).Nodup ∧
      ["all", "s", "time"] ∈ maskedSelections ["s", "ip", "time", "all"] ∧
      ["all", "s", "all"] ∉ maskedSelections ["s", "ip", "time", "all"] := by
  have hxs : ["s", "ip", "time", "all"].Nodup := by decide
  have hlength : ["s", "ip", "time", "all"].length < 64 := by decide
  rcases selections_once hxs hlength with ⟨hloop, -, hnodup, hmem⟩
  rw [hloop, hmem, hmem]
  exact ⟨hxs, hlength, hnodup, by decide, by decide⟩

end CommandLanguage.Arrangement
