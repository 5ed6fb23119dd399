import CommandLanguage.Tree.Expansion

/-!
# Selections and expansions

What the ways of typing a list of parameters have in common. A selection of a run of flags is some
of the flags in some order (`Arrangement.exists_sublist_of_mem_selections`), and may be empty. An
expansion of a parameter list keeps its required parameters in order (`required_of_mem_expansions`),
and leaving out any optional parameters and every flag is one (`Chosen.mem_expansions`).
-/

namespace CommandLanguage

namespace Arrangement

variable {α : Type}

/-- Exchanging two items rearranges a list. -/
theorem exchange_perm (xs : List α) (i j : Nat) : (exchange xs i j).Perm xs := by
  unfold exchange
  split
  · rename_i a b hi hj
    rcases List.getElem?_eq_some_iff.1 hi with ⟨hilt, rfl⟩
    rcases List.getElem?_eq_some_iff.1 hj with ⟨hjlt, rfl⟩
    exact List.set_set_perm hilt hjlt
  · exact .refl xs

/-- Every order that exchanges go through rearranges the list, and so does the last one. -/
theorem rearrange_perm (last : Nat) (xs : List α) :
    (∀ ys ∈ (rearrange last xs).1, ys.Perm xs) ∧ (rearrange last xs).2.Perm xs := by
  induction last generalizing xs with
  | zero => simp [rearrange]
  | succ last ih =>
    rw [rearrange]
    -- The rounds keep what holds of the orders seen so far and of the present one.
    refine List.foldlRecOn (motive := fun state : List (List α) × List α =>
      (∀ ys ∈ state.1, ys.Perm xs) ∧ state.2.Perm xs) _ _ (ih xs) ?_
    rintro ⟨seen, present⟩ ⟨hseen, hpresent⟩ round -
    have hnext : (exchange present (partner (last + 1) round) (last + 1)).Perm xs :=
      (exchange_perm _ _ _).trans hpresent
    rcases ih (exchange present (partner (last + 1) round) (last + 1)) with ⟨hlater, hfinal⟩
    refine ⟨?_, hfinal.trans hnext⟩
    intro ys hys
    rcases List.mem_append.1 hys with hys | hys
    · exact hseen ys hys
    · rcases List.mem_cons.1 hys with rfl | hys
      · exact hnext
      · exact (hlater ys hys).trans hnext

theorem exchangeOrders_perm {xs ys : List α} (h : ys ∈ exchangeOrders xs) : ys.Perm xs := by
  rcases List.mem_cons.1 h with rfl | h
  · exact .refl _
  · exact (rearrange_perm _ xs).1 ys h

/-- The orders of a list rearrange it. -/
theorem perm_of_mem_permutations {xs ys : List α} (h : ys ∈ permutations xs) : ys.Perm xs := by
  unfold permutations at h
  split at h
  · simp_all
  · simp_all
  · rename_i a b
    simp only [List.mem_cons, List.not_mem_nil, or_false] at h
    rcases h with rfl | rfl
    · exact .refl _
    · exact .swap a b []
  · rename_i a b c
    simp only [List.mem_cons, List.not_mem_nil, or_false] at h
    have hab : [b, a, c].Perm [a, b, c] := .swap a b [c]
    have hbc : [a, c, b].Perm [a, b, c] := .cons a (.swap b c [])
    rcases h with rfl | rfl | rfl | rfl | rfl | rfl
    · exact .refl _
    · exact hbc
    · exact hab
    · exact (List.Perm.cons b (.swap a c [])).trans hab
    · exact (List.Perm.swap a c [b]).trans hbc
    · exact ((List.Perm.swap b c [a]).trans (.cons b (.swap a c []))).trans hab
  · exact exchangeOrders_perm h

theorem subsets_concat (xs : List α) (x : α) :
    subsets (xs ++ [x]) = subsets xs ++ (subsets xs).map (· ++ [x]) := by
  simp [subsets]

/-- The selections of items without an order are sublists. -/
theorem sublist_of_mem_subsets {xs ys : List α} (h : ys ∈ subsets xs) : ys.Sublist xs := by
  -- Items are added at the end of a list, so the induction takes them from there.
  obtain ⟨rs, rfl⟩ : ∃ rs, xs = List.reverse rs := ⟨xs.reverse, by simp⟩
  induction rs generalizing ys with
  | nil =>
    obtain rfl : ys = [] := by simpa [subsets] using h
    exact .refl []
  | cons r rs ih =>
    rw [List.reverse_cons, subsets_concat, List.mem_append, List.mem_map] at h
    rw [List.reverse_cons]
    rcases h with h | ⟨zs, hzs, rfl⟩
    · exact (ih h).trans (List.sublist_append_left _ _)
    · exact (ih hzs).append (.refl _)

theorem nil_mem_subsets (xs : List α) : [] ∈ subsets xs := by
  obtain ⟨rs, rfl⟩ : ∃ rs, xs = List.reverse rs := ⟨xs.reverse, by simp⟩
  induction rs with
  | nil => simp [subsets]
  | cons r rs ih =>
    rw [List.reverse_cons, subsets_concat]
    exact List.mem_append_left _ ih

/-- A selection is some of the items, in some order. -/
theorem exists_sublist_of_mem_selections {xs ys : List α} (h : ys ∈ selections xs) :
    ∃ zs, zs.Sublist xs ∧ ys.Perm zs := by
  rcases List.mem_flatMap.1 h with ⟨zs, hzs, hys⟩
  exact ⟨zs, sublist_of_mem_subsets hzs, perm_of_mem_permutations hys⟩

theorem mem_of_mem_selections {xs ys : List α} {y : α} (h : ys ∈ selections xs) (hy : y ∈ ys) :
    y ∈ xs := by
  rcases exists_sublist_of_mem_selections h with ⟨zs, hsublist, hperm⟩
  exact hsublist.subset (hperm.subset hy)

/-- Nothing may be selected. -/
theorem nil_mem_selections (xs : List α) : [] ∈ selections xs :=
  List.mem_flatMap.2 ⟨[], nil_mem_subsets xs, by simp [permutations]⟩

end Arrangement

/-! ## Expansions -/

/-- A flag is optional. -/
theorem Parameter.isOptional_of_isFlag {p : Parameter} (h : p.isFlag = true) :
    p.isOptional = true := by
  unfold isFlag at h
  unfold isOptional
  split at h
  · rename_i hkind
    simp [hkind]
  · cases h

/-- A literal is required. -/
theorem Parameter.isOptional_of_isLiteral {p : Parameter} (h : p.isLiteral = true) :
    p.isOptional = false := by
  unfold isLiteral at h
  unfold isOptional
  split at h
  · rename_i hkind
    simp [hkind]
  · cases h

namespace Segment

/-- The runs of a parameter list are of flags. -/
theorem isFlag_of_run_mem {ps flags : List Parameter} {p : Parameter}
    (h : .run flags ∈ ofParameters ps) (hp : p ∈ flags) : p.isFlag = true := by
  induction ps generalizing flags with
  | nil => simp [ofParameters] at h
  | cons q ps ih =>
    rw [ofParameters] at h
    split at h
    · rename_i hflag
      split at h
      · rename_i flags' rest hrun
        rcases List.mem_cons.1 h with hhead | h
        · obtain rfl := Segment.run.inj hhead
          rcases List.mem_cons.1 hp with rfl | hp
          · exact hflag
          · exact ih (by simp [hrun]) hp
        · exact ih (by simp [hrun, h]) hp
      · rcases List.mem_cons.1 h with hhead | h
        · obtain rfl := Segment.run.inj hhead
          obtain rfl : p = q := by simpa using hp
          exact hflag
        · exact ih h hp
    · rcases List.mem_cons.1 h with hhead | h
      · cases hhead
      · exact ih h hp

/-- Whether nothing follows a greedy stretch. -/
def GreedyLast : List Segment → Prop
  | [] => True
  | .run _ :: rest => GreedyLast rest
  | .single p :: rest => (p.greedy = true → rest = []) ∧ GreedyLast rest

theorem greedyLast_ofParameters {ps : List Parameter} (h : ∀ p ∈ ps.dropLast, p.greedy = false) :
    GreedyLast (ofParameters ps) := by
  induction ps with
  | nil => trivial
  | cons p ps ih =>
    have hrest : GreedyLast (ofParameters ps) := by
      cases ps with
      | nil => trivial
      | cons q qs => exact ih fun r hr => h r (List.mem_cons_of_mem _ hr)
    rw [ofParameters]
    split
    · split
      · rename_i hrun
        rw [hrun] at hrest
        exact hrest
      · exact hrest
    · refine ⟨?_, hrest⟩
      intro hgreedy
      cases ps with
      | nil => rfl
      | cons q qs =>
        have hfalse := h p (by simp)
        simp [hgreedy] at hfalse

/-- An expansion has the required parameters of its stretches, in order. -/
theorem required_of_mem_expansions {segments : List Segment}
    (hruns : ∀ flags, .run flags ∈ segments → ∀ p ∈ flags, p.isFlag = true) {e : List Parameter}
    (h : e ∈ expansions segments) :
    e.filter (·.isRequired) = (segments.flatMap parameters).filter (·.isRequired) := by
  induction segments generalizing e with
  | nil =>
    obtain rfl : e = [] := by simpa [expansions] using h
    rfl
  | cons segment rest ih =>
    have hrest := fun {e} => ih (e := e) fun flags hmem => hruns flags (List.mem_cons_of_mem _ hmem)
    cases segment with
    | run flags =>
      rcases List.mem_flatMap.1 h with ⟨chosen, hchosen, htail⟩
      rcases List.mem_map.1 htail with ⟨e', he', rfl⟩
      -- No flag is required, neither among those selected nor among those left out.
      have hnone : ∀ fs : List Parameter, (∀ p ∈ fs, p ∈ flags) →
          fs.filter (·.isRequired) = [] := by
        intro fs hfs
        rw [List.filter_eq_nil_iff]
        intro p hp
        have hflag := hruns flags List.mem_cons_self p (hfs p hp)
        simp [Parameter.isRequired, Parameter.isOptional_of_isFlag hflag]
      have hselected := hnone chosen fun p hp => Arrangement.mem_of_mem_selections hchosen hp
      simp [hselected, hrest he', parameters, hnone flags fun p hp => hp]
    | single p =>
      rcases List.mem_append.1 h with h | h
      · rcases List.mem_map.1 h with ⟨e', he', rfl⟩
        simp [List.filter_cons, hrest he', parameters]
      · split at h
        · rename_i hoptional
          have hleft : p.isRequired = false := by simp [Parameter.isRequired, hoptional]
          simp [hleft, hrest h, parameters]
        · simp at h

end Segment

/-- An expansion of a parameter list has its required parameters, in order. -/
theorem required_of_mem_expansions {ps e : List Parameter} (h : e ∈ expansions ps) :
    e.filter (·.isRequired) = ps.filter (·.isRequired) := by
  rw [Segment.required_of_mem_expansions (fun _ hmem _ hp => Segment.isFlag_of_run_mem hmem hp) h,
    Segment.flatMap_parameters_ofParameters]

/-- Whether the second of two parameter lists is the first without its flags and without some of its
optional arguments. -/
inductive Chosen : List Parameter → List Parameter → Prop where
  | nil : Chosen [] []
  | keep {p : Parameter} {ps chosen : List Parameter} :
      p.isFlag = false → Chosen ps chosen → Chosen (p :: ps) (p :: chosen)
  | leave {p : Parameter} {ps chosen : List Parameter} :
      p.isOptional = true → Chosen ps chosen → Chosen (p :: ps) chosen

namespace Chosen

variable {ps chosen : List Parameter}

theorem not_isFlag (h : Chosen ps chosen) : ∀ p ∈ chosen, p.isFlag = false := by
  induction h with
  | nil => simp
  | keep hflag _ ih => exact List.forall_mem_cons.2 ⟨hflag, ih⟩
  | leave _ _ ih => exact ih

theorem sublist (h : Chosen ps chosen) : chosen.Sublist ps := by
  induction h with
  | nil => exact .slnil
  | keep _ _ ih => exact ih.cons_cons _
  | leave _ _ ih => exact ih.cons _

/-- What is left of a list without optional parameters is the list. -/
theorem eq_of_required (h : Chosen ps chosen) (hrequired : ∀ p ∈ ps, p.isOptional = false) :
    chosen = ps := by
  induction h with
  | nil => rfl
  | keep _ _ ih => rw [ih (List.forall_mem_cons.1 hrequired).2]
  | leave hoptional _ _ =>
    have hfalse := (List.forall_mem_cons.1 hrequired).1
    simp [hoptional] at hfalse

/-- **Leaving out flags and optional arguments.** What is left is a way of typing the list. -/
theorem mem_expansions (h : Chosen ps chosen) : chosen ∈ expansions ps := by
  unfold expansions
  induction h with
  | nil => simp [Segment.ofParameters, Segment.expansions]
  | @keep p ps chosen hflag _ ih =>
    have hsingle : Segment.ofParameters (p :: ps) = .single p :: Segment.ofParameters ps := by
      simp [Segment.ofParameters, hflag]
    rw [hsingle]
    exact List.mem_append_left _ (List.mem_map_of_mem ih)
  | @leave p ps chosen hoptional hchosen ih =>
    rw [Segment.ofParameters]
    split
    · split
      · rename_i flags rest hrun
        -- The flag joins a run, of which nothing was selected.
        rw [hrun] at ih
        rcases List.mem_flatMap.1 ih with ⟨selected, hselected, hmem⟩
        rcases List.mem_map.1 hmem with ⟨e, he, rfl⟩
        have hmem : .run flags ∈ Segment.ofParameters ps := by simp [hrun]
        have hnil : selected = [] := by
          rw [List.eq_nil_iff_forall_not_mem]
          intro q hq
          have hflag : q.isFlag = true :=
            Segment.isFlag_of_run_mem hmem (Arrangement.mem_of_mem_selections hselected hq)
          simp [hchosen.not_isFlag q (List.mem_append_left _ hq)] at hflag
        subst hnil
        exact List.mem_flatMap.2 ⟨[], Arrangement.nil_mem_selections _, by simpa using he⟩
      · exact List.mem_flatMap.2 ⟨[], Arrangement.nil_mem_selections _, by simpa using ih⟩
    · refine List.mem_append_right _ ?_
      simpa [hoptional] using ih

end Chosen

end CommandLanguage
