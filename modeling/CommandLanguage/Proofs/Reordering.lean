import CommandLanguage.Proofs.FlagSearch
import Mathlib.Data.List.Perm.Lattice

/-!
# Flags in another order

What becomes of words when typed flags that stand next to each other are typed in another order
(`Judge.Reordered`), and of what is found in them. Whether something is found stays the same, and so
does what is found, but for the order of the flags, if the optional arguments are ranked and the
flags are typed nowhere before (`Node.Woven.alike`).
-/

namespace CommandLanguage

/-! ## Flags by name -/

/-- Whether lists of flags have the same flags of each name, in the same order. -/
def FlagsAlike (xs ys : List BoundFlag) : Prop :=
  ∀ name, xs.filter (·.flag.name == name) = ys.filter (·.flag.name == name)

theorem FlagsAlike.refl (xs : List BoundFlag) : FlagsAlike xs xs := fun _ => rfl

theorem FlagsAlike.append {xs ys xs' ys' : List BoundFlag} (h : FlagsAlike xs ys)
    (h' : FlagsAlike xs' ys') : FlagsAlike (xs ++ xs') (ys ++ ys') := by
  intro name
  rw [List.filter_append, List.filter_append, h, h']

/-- The order of flags of different names does not matter. -/
theorem FlagsAlike.of_perm {xs ys : List BoundFlag} (h : xs.Perm ys)
    (hnodup : (xs.map (·.flag.name)).Nodup) : FlagsAlike xs ys := by
  intro name
  have hperm := h.filter (·.flag.name == name)
  have hshort : (xs.filter (·.flag.name == name)).length ≤ 1 := by
    have hsub := (List.filter_sublist (l := xs) (p := (·.flag.name == name))).map (·.flag.name)
    have hsame : ∀ y ∈ (xs.filter (·.flag.name == name)).map (·.flag.name), y = name := by
      intro y hy
      rcases List.mem_map.1 hy with ⟨x, hx, rfl⟩
      simpa using (List.mem_filter.1 hx).2
    have hone := List.eq_replicate_of_mem hsame
    have hnodup' := hnodup.sublist hsub
    rw [hone, List.nodup_replicate, List.length_map] at hnodup'
    exact hnodup'
  generalize xs.filter (·.flag.name == name) = own at hperm hshort ⊢
  rcases own with _ | ⟨x, _ | ⟨x', own⟩⟩
  · exact hperm.nil_eq
  · exact (List.perm_singleton.1 hperm.symm).symm
  · simp at hshort

/-! ## Flags that nodes take -/

section Claimed

variable {left : List Parameter} {xs ys : List TypedFlag}

/-- Where not all flags are taken, none that follow them is. -/
theorem claimed_append_of_ne (h : claimed left xs ≠ xs) (ys : List TypedFlag) :
    claimed left (xs ++ ys) = claimed left xs := by
  induction xs generalizing left with
  | nil => exact absurd rfl h
  | cons x xs ih =>
    rw [List.cons_append, claimed, claimed]
    split
    · rename_i hx
      rw [ih]
      intro heq
      exact h (by rw [claimed, if_pos hx, heq])
    · rfl

/-- Where all flags are taken, those that follow them are taken from what is left. -/
theorem claimed_append_of_eq (h : claimed left xs = xs) (ys : List TypedFlag) :
    claimed left (xs ++ ys) = xs ++ claimed (left.diff (xs.map (·.bound.flag))) ys := by
  induction xs generalizing left with
  | nil => rfl
  | cons x xs ih =>
    rw [claimed] at h
    split at h
    · rename_i hx
      rw [List.cons_append, claimed, if_pos hx, ih (List.cons.inj h).2, List.map_cons,
        List.diff_cons]
      rfl
    · cases h

/-- Different flags that are all left are all taken. -/
theorem claimed_eq_self (hmem : ∀ f ∈ xs, f.bound.flag ∈ left)
    (hnodup : (xs.map (·.bound.flag)).Nodup) : claimed left xs = xs := by
  induction xs generalizing left with
  | nil => rfl
  | cons x xs ih =>
    rcases List.forall_mem_cons.1 hmem with ⟨hx, hxs⟩
    rcases List.nodup_cons.1 hnodup with ⟨hnot, hnodup⟩
    rw [claimed, if_pos hx, ih ?_ hnodup]
    intro f hf
    refine (List.mem_erase_of_ne ?_).2 (hxs f hf)
    intro heq
    exact hnot (List.mem_map.2 ⟨f, hf, heq⟩)

end Claimed

/-! ## Words in another order -/

namespace Judge

variable {j : Judge} {moved moved' before after : List TypedFlag} {fresh : Prop}

/-- Whether flags are well typed, of different names, and the same as others in some order. -/
structure Exchanges (j : Judge) (moved moved' : List TypedFlag) : Prop where
  perm : moved.Perm moved'
  ne_nil : moved ≠ []
  known : ∀ f ∈ moved, j.Knows f
  names : (moved.map (·.bound.flag.name)).Nodup

theorem Exchanges.symm (h : j.Exchanges moved moved') : j.Exchanges moved' moved where
  perm := h.perm.symm
  ne_nil := fun hnil => h.ne_nil (by simpa [hnil] using h.perm)
  known := fun f hf => h.known f (h.perm.mem_iff.2 hf)
  names := (h.perm.map _).nodup_iff.1 h.names

theorem Exchanges.nodup (h : j.Exchanges moved moved') : (moved.map (·.bound.flag)).Nodup := by
  refine List.Nodup.of_map Parameter.name ?_
  rw [List.map_map]
  exact h.names

theorem Exchanges.known_append (h : j.Exchanges moved moved') (hbefore : ∀ f ∈ before, j.Knows f)
    (hafter : ∀ f ∈ after, j.Knows f) : ∀ f ∈ before ++ (moved ++ after), j.Knows f :=
  List.forall_mem_append.2 ⟨hbefore, List.forall_mem_append.2 ⟨h.known, hafter⟩⟩

/-- The same flags are typed, but for the order of those of different names. -/
theorem Exchanges.flagsAlike (h : j.Exchanges moved moved') (before after : List TypedFlag) :
    FlagsAlike ((before ++ (moved ++ after)).map (·.bound))
      ((before ++ (moved' ++ after)).map (·.bound)) := by
  have hmoved : FlagsAlike (moved.map (·.bound)) (moved'.map (·.bound)) := by
    refine .of_perm (h.perm.map _) ?_
    rw [List.map_map]
    exact h.names
  simp only [List.map_append]
  exact (FlagsAlike.refl _).append (hmoved.append (.refl _))

/-- The same flags are taken, if those in another order were not typed before. -/
theorem Exchanges.flagsAlike_claimed (h : j.Exchanges moved moved') {flags : List Parameter}
    (hmem : ∀ f ∈ moved, f.bound.flag ∈ flags)
    (hfresh : ∀ f ∈ before, f.bound.flag ∉ moved.map (·.bound.flag)) (after : List TypedFlag) :
    FlagsAlike ((claimed flags (before ++ (moved ++ after))).map (·.bound))
      ((claimed flags (before ++ (moved' ++ after))).map (·.bound)) := by
  by_cases hbefore : claimed flags before = before
  · have hmoved : ∀ {moved moved' : List TypedFlag}, j.Exchanges moved moved' →
        (∀ f ∈ moved, f.bound.flag ∈ flags.diff (before.map (·.bound.flag))) →
        claimed flags (before ++ (moved ++ after)) = before ++ (moved ++
          claimed ((flags.diff (before.map (·.bound.flag))).diff (moved.map (·.bound.flag)))
            after) := by
      intro moved moved' h hleft
      rw [claimed_append_of_eq hbefore, claimed_append_of_eq (claimed_eq_self hleft h.nodup)]
    have hleft : ∀ f ∈ moved, f.bound.flag ∈ flags.diff (before.map (·.bound.flag)) := by
      intro f hf
      refine List.mem_diff_of_mem (hmem f hf) fun hbefore => ?_
      rcases List.mem_map.1 hbefore with ⟨f', hf', heq⟩
      exact hfresh f' hf' (heq ▸ List.mem_map_of_mem hf)
    rw [hmoved h hleft, hmoved h.symm fun f hf => hleft f (h.perm.mem_iff.2 hf),
      (h.perm.map (·.bound.flag)).diff_left]
    exact h.flagsAlike _ _
  · rw [claimed_append_of_ne hbefore, claimed_append_of_ne hbefore]
    exact .refl _

/-- Whether words differ in the order of some typed flags that stand next to each other. -/
inductive Reordered (j : Judge) (moved moved' : List TypedFlag) (fresh : Prop) :
    List String → List String → Prop where
  /-- A malformed flag stands before the next word. -/
  | malformed {tokens tokens' : List String} : j.takeFlags false tokens = none →
      j.takeFlags false tokens' = none → Reordered j moved moved' fresh tokens tokens'
  /-- The flags stand before the next word, maybe among others. -/
  | run {before after : List TypedFlag} {rest : List String} :
      (∀ f ∈ before, j.Knows f) → (∀ f ∈ after, j.Knows f) → j.StopsAt false rest →
      (fresh → ∀ f ∈ before, f.bound.flag ∉ moved.map (·.bound.flag)) →
      Reordered j moved moved' fresh (TypedFlag.allWords (before ++ (moved ++ after)) ++ rest)
        (TypedFlag.allWords (before ++ (moved' ++ after)) ++ rest)
  /-- The flags stand behind the next word. -/
  | word {before : List TypedFlag} {token : String} {left left' : List String} :
      (∀ f ∈ before, j.Knows f) → isFlagToken token = false →
      Reordered j moved moved' fresh left left' →
      Reordered j moved moved' fresh (TypedFlag.allWords before ++ token :: left)
        (TypedFlag.allWords before ++ token :: left')

theorem Reordered.cons {token : String} {left left' : List String}
    (h : j.Reordered moved moved' fresh left left') (htoken : isFlagToken token = false) :
    j.Reordered moved moved' fresh (token :: left) (token :: left') := by
  have hnone : ∀ f ∈ ([] : List TypedFlag), j.Knows f := by simp
  exact .word hnone htoken h

theorem stopsAt_word {token : String} (htoken : isFlagToken token = false) (rest : List String) :
    j.StopsAt false (token :: rest) := by
  simp [StopsAt, htoken]

theorem takeFlags_allWords_eq_none (hknown : ∀ f ∈ before, j.Knows f) {tokens : List String}
    (h : j.takeFlags false tokens = none) :
    j.takeFlags false (TypedFlag.allWords before ++ tokens) = none := by
  rw [takeFlags_allWords hknown, h]
  rfl

/-- How words may begin: with a word that is no flag, with a well typed flag, or with a malformed
one. -/
inductive Front (j : Judge) : List String → Prop where
  | nil : Front j []
  | word {token : String} (rest : List String) : isFlagToken token = false → Front j (token :: rest)
  | flag {f : TypedFlag} (rest : List String) : j.Knows f → Front j (f.words ++ rest)
  | malformed {tokens : List String} : (∀ more, j.takeFlags false (tokens ++ more) = none) →
      Front j tokens

/-- Words of which the last is no flag begin in one of these ways. -/
theorem front {tokens : List String}
    (hlast : ∀ token ∈ tokens.getLast?, isFlagToken token = false) : j.Front tokens := by
  cases tokens with
  | nil => exact .nil
  | cons token rest =>
    cases hflag : isFlagToken token with
    | false => exact .word rest hflag
    | true =>
      cases hlookup : j.flags.lookup token with
      | none => exact .malformed fun more => by simp [takeFlags, hflag, hlookup]
      | some flag =>
        cases hinput : flag.input? with
        | none =>
          have hf : j.Knows ⟨token, flag, none⟩ := ⟨hlookup, .switch hinput⟩
          exact .flag rest hf
        | some type =>
          cases rest with
          | nil =>
            have hfalse := hlast token rfl
            rw [hflag] at hfalse
            cases hfalse
          | cons value rest =>
            cases hfits : j.fits value flag with
            | true =>
              have hf : j.Knows ⟨token, flag, some value⟩ := ⟨hlookup, .value hinput hfits⟩
              exact .flag rest hf
            | false =>
              exact .malformed fun more => by simp [takeFlags, hflag, hlookup, hinput, hfits]

/-- Words between which flags stand in another order differ in that order. The last word before them
is no flag, so none of them is taken for its value. -/
theorem Exchanges.reordered_append (h : j.Exchanges moved moved') (before : List TypedFlag)
    {a b : List String} (hlast : ∀ token ∈ a.getLast?, isFlagToken token = false)
    (hfresh : fresh → ∀ token ∈ a, ∀ f ∈ moved, j.flags.lookup token ≠ some f.bound.flag)
    (hknown : ∀ f ∈ before, j.Knows f)
    (hbefore : fresh → ∀ f ∈ before, f.bound.flag ∉ moved.map (·.bound.flag)) :
    j.Reordered moved moved' fresh
      (TypedFlag.allWords before ++ (a ++ (TypedFlag.allWords moved ++ b)))
      (TypedFlag.allWords before ++ (a ++ (TypedFlag.allWords moved' ++ b))) := by
  -- Along the words before: a flag joins those at the front, and any other word ends them.
  induction hlength : a.length using Nat.strong_induction_on generalizing a before with
  | _ length ih =>
    have hlast' : ∀ {front rest : List String}, a = front ++ rest →
        ∀ token ∈ rest.getLast?, isFlagToken token = false := by
      intro front rest ha token htoken
      refine hlast token ?_
      rw [ha, List.getLast?_append, Option.mem_def, Option.mem_def.1 htoken, Option.some_or]
    cases front (j := j) hlast with
    | nil =>
      simp only [List.nil_append]
      cases htake : j.takeFlags false b with
      | none =>
        exact .malformed
          (takeFlags_allWords_eq_none hknown (takeFlags_allWords_eq_none h.known htake))
          (takeFlags_allWords_eq_none hknown (takeFlags_allWords_eq_none h.symm.known htake))
      | some taken =>
        rcases takeFlags_sound htake with ⟨after, hafter, hstops, -, rfl⟩
        have hrun : j.Reordered moved moved' fresh _ _ := .run hknown hafter hstops hbefore
        simpa [TypedFlag.allWords_append] using hrun
    | malformed hnone =>
      exact .malformed (takeFlags_allWords_eq_none hknown (hnone _))
        (takeFlags_allWords_eq_none hknown (hnone _))
    | @word token rest htoken =>
      have hword := ih rest.length (by simp [← hlength]) [] (hlast' List.singleton_append.symm)
        (fun hf token htoken => hfresh hf token (List.mem_cons_of_mem _ htoken)) (by simp)
        (by simp) rfl
      exact .word hknown htoken hword
    | @flag f rest hf =>
      have hshorter : rest.length < length := by
        simp only [← hlength, TypedFlag.words, List.length_append, List.length_cons]
        omega
      have hjoined := ih rest.length hshorter (before ++ [f]) (hlast' rfl)
        (fun hf token htoken => hfresh hf token (List.mem_append_right _ htoken)) ?_ ?_ rfl
      · simpa [TypedFlag.allWords_append] using hjoined
      · exact List.forall_mem_append.2 ⟨hknown, by simpa using hf⟩
      · refine fun hfresh' => List.forall_mem_append.2 ⟨hbefore hfresh', ?_⟩
        simp only [List.mem_singleton, forall_eq]
        intro hmem
        rcases List.mem_map.1 hmem with ⟨g, hg, heq⟩
        refine hfresh hfresh' f.token (by simp [TypedFlag.words]) g hg ?_
        rw [hf.lookup, heq]

end Judge

/-! ## What is found -/

namespace Finding

/-- Whether something is found in both cases or in neither and, where `same` holds, the values are
the same, and the flags but for the order of those of different names. -/
inductive Alike (same : Prop) : Option Finding → Option Finding → Prop where
  | none : Alike same none none
  | some {x y : Finding} : (same → x.values = y.values ∧ FlagsAlike x.flags y.flags) →
      Alike same (some x) (some y)

variable {same : Prop} {x y x' y' : Option Finding}

theorem Alike.refl (x : Option Finding) : Alike same x x := by
  cases x with
  | none => exact .none
  | some x => exact .some fun _ => ⟨rfl, .refl _⟩

theorem Alike.orElse (h : Alike same x y) (h' : Alike same x' y') :
    Alike same (x <|> x') (y <|> y') := by
  cases h with
  | none => simpa using h'
  | some h => exact .some h

theorem Alike.after (h : Alike same x y) (values : List (Parameter × String))
    {flags flags' : List BoundFlag} (hflags : same → FlagsAlike flags flags') :
    Alike same (x.map (Finding.after values flags)) (y.map (Finding.after values flags')) := by
  cases h with
  | none => exact .none
  | some h =>
    refine .some fun hsame => ?_
    rcases h hsame with ⟨hvalues, hbelow⟩
    exact ⟨congrArg (values ++ ·) hvalues, (hflags hsame).append hbelow⟩

theorem Alike.findSome? {cs : List Node} {f g : Node → Option Finding}
    (h : ∀ c ∈ cs, Alike same (f c) (g c)) : Alike same (cs.findSome? f) (cs.findSome? g) := by
  induction cs with
  | nil => exact .none
  | cons c cs ih =>
    rcases List.forall_mem_cons.1 h with ⟨hc, hcs⟩
    have hboth := hc.orElse (ih hcs)
    rw [List.findSome?_cons, List.findSome?_cons]
    cases hf : f c <;> cases hg : g c <;> simpa [hf, hg] using hboth

theorem Alike.of_iff (hsame : ¬ same) (h : x = Option.none ↔ y = Option.none) :
    Alike same x y := by
  cases x with
  | none =>
    rw [h.1 rfl]
    exact .none
  | some x =>
    cases y with
    | none => cases h.2 rfl
    | some y => exact .some fun hs => absurd hs hsame

end Finding

namespace Judge

open Finding (Alike)

variable {j : Judge} {same : Prop} {c n : Node} {flags : List Parameter}
  {typed typed' : List TypedFlag} {tokens tokens' rest : List String}

theorem alike_seekBelow (hseek : ∀ c ∈ n.children, Alike same (j.seek c tokens) (j.seek c tokens'))
    (hhere : Alike same (j.seekHere n tokens) (j.seekHere n tokens')) :
    Alike same (j.seekBelow n tokens) (j.seekBelow n tokens') := by
  rw [seekBelow, seekBelow, seekAny_eq, seekAny_eq]
  exact (Alike.findSome? hseek).orElse hhere

/-- A node that is no flag finds the same behind the same flags in another order. -/
theorem alike_seek (hflag : c.isFlag = false) (hgreedy : c.isGreedy = false)
    (hknown : ∀ f ∈ typed, j.Knows f) (hknown' : ∀ f ∈ typed', j.Knows f)
    (halike : FlagsAlike (typed.map (·.bound)) (typed'.map (·.bound)))
    (hstops : j.StopsAt false rest) :
    Alike same (j.seek c (TypedFlag.allWords typed ++ rest))
      (j.seek c (TypedFlag.allWords typed' ++ rest)) := by
  rw [seek_of_known hflag hgreedy hknown hstops, seek_of_known hflag hgreedy hknown' hstops]
  exact ((Alike.refl _).after [] fun _ => halike).orElse (.refl _)

theorem alike_pickEnd (halike : FlagsAlike (typed.map (·.bound)) (typed'.map (·.bound)))
    (end? : Option NumberedUsage) :
    Alike same (pickEnd end? typed rest) (pickEnd end? typed' rest) := by
  unfold pickEnd
  split
  · cases end? with
    | none => exact .none
    | some u => exact .some fun _ => ⟨rfl, halike⟩
  · exact .none

theorem alike_pick {kept kept' : List TypedFlag}
    (halike : FlagsAlike (typed.map (·.bound)) (typed'.map (·.bound)))
    (hkept : same → FlagsAlike (kept.map (·.bound)) (kept'.map (·.bound))) (c : Node) :
    Alike same (j.pick flags typed kept rest c) (j.pick flags typed' kept' rest c) := by
  refine ((Alike.refl _).after [] fun _ => halike).orElse ((Alike.refl _).after [] fun hsame => ?_)
  split
  · exact hkept hsame
  · exact .refl _

/-- Below a node that is not passed by flags, the children decide about a word that is no flag. -/
theorem seekBelow_cons {token : String} (htoken : isFlagToken token = false) :
    j.seekBelow n (token :: rest) = j.seekAny n.children (token :: rest) := by
  have hhere : j.seekHere n (token :: rest) = none := by simp [seekHere, takeFlags, htoken]
  rw [seekBelow, hhere]
  simp

/-- A node that is no flag finds the same in front of words in which the same is found below it. -/
theorem alike_seek_word (hflag : c.isFlag = false) (hgreedy : c.isGreedy = false)
    (hknown : ∀ f ∈ typed, j.Knows f) {token : String} (htoken : isFlagToken token = false)
    (htaking : Alike same (j.seekBelow c tokens) (j.seekBelow c tokens'))
    (hpassing : Alike same (j.seekBelow c (token :: tokens)) (j.seekBelow c (token :: tokens'))) :
    Alike same (j.seek c (TypedFlag.allWords typed ++ token :: tokens))
      (j.seek c (TypedFlag.allWords typed ++ token :: tokens')) := by
  rw [seek_of_known hflag hgreedy hknown (stopsAt_word htoken _),
    seek_of_known hflag hgreedy hknown (stopsAt_word htoken _)]
  refine Alike.orElse (Alike.after ?_ [] fun _ => .refl _) ?_
  · simp only [seekTaking]
    split
    · exact htaking.after _ fun _ => .refl _
    · exact .none
  · rw [seekBelow_cons htoken, seekBelow_cons htoken] at hpassing
    simp only [seekPassing]
    split
    · exact hpassing
    · exact .none

/-- A flag node finds nothing where a flag is malformed, if nothing is found below it there. -/
theorem seek_flag_of_malformed (hflag : c.isFlag = true) (hnames : j.NamesFlags flags)
    (hmem : c.parameter ∈ flags) (htake : j.takeFlags false tokens = none)
    (hbelow : ∀ left, j.takeFlags false left = none → j.seekBelow c left = none) :
    j.seek c tokens = none := by
  cases tokens with
  | nil => cases htake
  | cons token rest =>
    have hskip : c.isSkippable = false := by simp [Node.isSkippable, hflag]
    by_cases haccepts : j.accepts c.parameter token = true
    · have hlookup := (hnames token c.parameter).2 ⟨hmem, (accepts_flag_iff hflag).1 haccepts⟩
      cases hbind : j.bindFlag c.parameter rest with
      | none => simp [seek_eq, flagsBefore, hflag, read, consume, hbind, hskip]
      | some found =>
        rcases found with ⟨bound, left⟩
        rcases bindFlag_eq_some hbind with ⟨hbound, hbinds, rfl⟩
        have hf : j.Knows ⟨token, bound⟩ := ⟨by rw [hlookup, hbound], hbinds⟩
        have hone : ∀ f ∈ [(⟨token, bound⟩ : TypedFlag)], j.Knows f := by simpa using hf
        have hleft : j.takeFlags false left = none := by
          have htake' : j.takeFlags false (TypedFlag.allWords [⟨token, bound⟩] ++ left) = none := by
            simpa [TypedFlag.words] using htake
          rw [takeFlags_allWords hone] at htake'
          simpa using htake'
        have hseek := seek_flag hflag hnames hmem hf left
        rw [hbelow left hleft] at hseek
        rw [← List.cons_append]
        refine hseek.trans ?_
        split <;> rfl
    · simp [seek_eq, flagsBefore, hflag, haccepts, hskip]

end Judge

namespace Node

open Finding (Alike)

variable {front flags back left : List Parameter} {distinct fresh : Prop} {cs : List Node}
  {end? : Option NumberedUsage} {n : Node}

/-- Whether the flags below a node are those of a run, and what is no flag leads on into a woven
tree. -/
inductive Led (front flags back : List Parameter) (distinct : Prop) : Node → Prop where
  | intro {n : Node} :
      (∀ c ∈ n.children, c.isFlag = false →
        c.isGreedy = false ∧ Woven front flags back distinct c) →
      (∀ c ∈ n.children, c.isFlag = true → c.parameter ∈ flags) →
      (∀ c ∈ n.children, c.isFlag = true → Led front flags back distinct c) →
      Led front flags back distinct n

theorem Strand.led (h : Strand cs end? left n) (hleft : left ⊆ flags)
    (hcs : ∀ c ∈ cs, c.isGreedy = false ∧ Woven front flags back distinct c) :
    Led front flags back distinct n := by
  induction h with
  | @intro left n hend hkin hsorted hcovers hflag hbelow ih =>
    have hmem := fun c => (Strand.intro hend hkin hsorted hcovers hflag hbelow).mem_kin (c := c)
    refine .intro ?_ ?_ ?_
    · intro c hc hcflag
      exact hcs c ((hmem c).2 ⟨hc, hcflag⟩)
    · intro c hc hcflag
      exact hleft (hflag c hc hcflag)
    · intro c hc hcflag
      exact ih c hc hcflag fun g hg => hleft (List.mem_of_mem_erase hg)

theorem Woven.led (h : Woven front flags back distinct n) : Led front flags back distinct n := by
  cases h with
  | plain hplain hgreedy hbelow =>
    refine .intro (fun c hc _ => ⟨hgreedy c hc, hbelow c hc⟩) ?_ ?_ <;>
    · intro c hc hcflag
      rw [hplain c hc] at hcflag
      cases hcflag
  | fork h hgreedy hbelow _ hcsGreedy hcs =>
    refine .intro (fun c hc hcflag => ⟨hgreedy c hc hcflag, hbelow c hc hcflag⟩) h.flag ?_
    intro c hc hcflag
    exact (h.strand c hc hcflag).led List.erase_subset fun d hd => ⟨hcsGreedy d hd, hcs d hd⟩

variable {j : Judge} {moved moved' : List TypedFlag} {tokens tokens' : List String}

/-- Nothing is found where a flag is malformed. -/
theorem Led.seekBelow_of_malformed (hnames : j.NamesFlags flags)
    (h : Led front flags back distinct n) (htake : j.takeFlags false tokens = none) :
    j.seekBelow n tokens = none := by
  induction h generalizing tokens with
  | intro hplain hflag _ ih =>
    refine Judge.seekBelow_eq_none_iff.2 ⟨?_, by simp [Judge.seekHere, htake]⟩
    intro c hc
    cases hcflag : c.isFlag with
    | false => exact Judge.seek_of_malformed hcflag (hplain c hc hcflag).1 htake
    | true =>
      exact Judge.seek_flag_of_malformed hcflag hnames (hflag c hc hcflag) htake
        fun left hleft => ih c hc hcflag hleft

/-- Flags directly below a node may stand in another order. -/
theorem Woven.alike_run (hnames : j.NamesFlags flags) (hflags : ∀ f ∈ flags, f.isFlag = true)
    (hback : ∀ p ∈ back, p.isFlag = false) (h : Woven front flags back distinct n)
    (hexchanges : j.Exchanges moved moved') {before after : List TypedFlag} {rest : List String}
    (hbefore : ∀ f ∈ before, j.Knows f) (hafter : ∀ f ∈ after, j.Knows f)
    (hstops : j.StopsAt false rest)
    (hfresh : fresh → ∀ f ∈ before, f.bound.flag ∉ moved.map (·.bound.flag)) :
    Alike (distinct ∧ Ranked flags (front ++ back) ∧ fresh)
      (j.seekBelow n (TypedFlag.allWords (before ++ (moved ++ after)) ++ rest))
      (j.seekBelow n (TypedFlag.allWords (before ++ (moved' ++ after)) ++ rest)) := by
  have hknown := hexchanges.known_append hbefore hafter
  have hknown' := hexchanges.symm.known_append hbefore hafter
  have hne : ∀ {moved moved' : List TypedFlag}, j.Exchanges moved moved' →
      before ++ (moved ++ after) ≠ [] := fun h => by simp [h.ne_nil]
  have halike := hexchanges.flagsAlike before after
  cases h with
  | plain hplain hgreedy _ =>
    refine Judge.alike_seekBelow ?_ ?_
    · intro c hc
      exact Judge.alike_seek (hplain c hc) (hgreedy c hc) hknown
        hknown' halike hstops
    · rw [Judge.seekHere_eq_pickEnd hknown hstops,
        Judge.seekHere_eq_pickEnd hknown' hstops]
      exact Judge.alike_pickEnd halike _
  | fork h hgreedy _ _ hcsGreedy _ =>
    by_cases hsame : distinct ∧ Ranked flags (front ++ back) ∧ fresh
    · rcases hsame with ⟨hdistinct, hranked, hf⟩
      have hmem : ∀ f ∈ moved, f.bound.flag ∈ flags := fun f hf =>
        ((hnames _ _).1 (hexchanges.known f hf).lookup).1
      have hclaimed := hexchanges.flagsAlike_claimed hmem (hfresh hf) after
      -- The closed form of the search asks only which flags have been claimed.
      rw [h.seekBelow_eq hnames hflags hback hranked hdistinct hgreedy (hne hexchanges)
          hknown hstops,
        h.seekBelow_eq hnames hflags hback hranked hdistinct hgreedy (hne hexchanges.symm)
          hknown' hstops]
      have hfirst : ∀ cs : List Node, Alike (distinct ∧ Ranked flags (front ++ back) ∧ fresh)
          (cs.findSome? (j.pick flags (before ++ (moved ++ after))
            (claimed flags (before ++ (moved ++ after))) rest))
          (cs.findSome? (j.pick flags (before ++ (moved' ++ after))
            (claimed flags (before ++ (moved' ++ after))) rest)) := fun cs =>
        Alike.findSome? fun c _ => Judge.alike_pick halike (fun _ => hclaimed) c
      have hlater : ∀ cs : List Node, Alike (distinct ∧ Ranked flags (front ++ back) ∧ fresh)
          (cs.findSome? (j.pick flags (before ++ (moved ++ after)) [] rest))
          (cs.findSome? (j.pick flags (before ++ (moved' ++ after)) [] rest)) := fun cs =>
        Alike.findSome? fun c _ => Judge.alike_pick halike (fun _ => .refl _) c
      exact (hfirst _).orElse ((Judge.alike_pickEnd halike _).orElse
        ((hlater _).orElse (Judge.alike_pickEnd halike _)))
    · -- What remains to compare is whether anything is found, and no order of flags decides it.
      refine .of_iff hsame ?_
      rw [h.seekBelow_eq_none_iff hnames hflags hcsGreedy hgreedy (hne hexchanges)
          hknown hstops,
        h.seekBelow_eq_none_iff hnames hflags hcsGreedy hgreedy (hne hexchanges.symm)
          hknown' hstops]

/-- Behind a word, flags may stand in another order if they may below the children. -/
theorem alike_behind_word {same : Prop} (hnames : j.NamesFlags flags)
    (hgreedy : ∀ c ∈ n.children, c.isFlag = false → c.isGreedy = false)
    (hmem : ∀ c ∈ n.children, c.isFlag = true → c.parameter ∈ flags)
    {before : List TypedFlag} (hbefore : ∀ f ∈ before, j.Knows f) {token : String}
    (htoken : isFlagToken token = false)
    (hplain : ∀ c ∈ n.children, c.isFlag = false →
      Alike same (j.seekBelow c tokens) (j.seekBelow c tokens') ∧
        Alike same (j.seekBelow c (token :: tokens)) (j.seekBelow c (token :: tokens')))
    (hflag : ∀ c ∈ n.children, c.isFlag = true → ∀ before, (∀ f ∈ before, j.Knows f) →
      Alike same (j.seekBelow c (TypedFlag.allWords before ++ token :: tokens))
        (j.seekBelow c (TypedFlag.allWords before ++ token :: tokens'))) :
    Alike same (j.seekBelow n (TypedFlag.allWords before ++ token :: tokens))
      (j.seekBelow n (TypedFlag.allWords before ++ token :: tokens')) := by
  refine Judge.alike_seekBelow ?_ ?_
  · intro c hc
    cases hcflag : c.isFlag with
    | false =>
      rcases hplain c hc hcflag with ⟨htaking, hpassing⟩
      exact Judge.alike_seek_word hcflag (hgreedy c hc hcflag) hbefore htoken htaking hpassing
    | true =>
      cases before with
      | nil =>
        have hnone := fun rest => Judge.seek_flag_of_stopsAt hcflag hnames (hmem c hc hcflag)
          (Judge.stopsAt_word htoken rest)
        simp only [TypedFlag.allWords_nil, List.nil_append, hnone]
        exact .none
      | cons f before =>
        rcases List.forall_mem_cons.1 hbefore with ⟨hf, hbefore⟩
        simp only [TypedFlag.allWords_cons, List.append_assoc]
        rw [Judge.seek_flag hcflag hnames (hmem c hc hcflag) hf,
          Judge.seek_flag hcflag hnames (hmem c hc hcflag) hf]
        split
        · exact (hflag c hc hcflag before hbefore).after [] fun _ => .refl _
        · exact .none
  · rw [Judge.seekHere_of_known hbefore (Judge.stopsAt_word htoken _),
      Judge.seekHere_of_known hbefore (Judge.stopsAt_word htoken _)]
    exact .refl _

/-- **Flags in another order.** In words in which flags stand in another order something is found or
not as before; what is found is the same where arguments are distinct, optional ones ranked, and the
flags fresh. -/
theorem Woven.alike (hnames : j.NamesFlags flags) (hflags : ∀ f ∈ flags, f.isFlag = true)
    (hback : ∀ p ∈ back, p.isFlag = false) (hexchanges : j.Exchanges moved moved')
    (h : Woven front flags back distinct n)
    (hwords : j.Reordered moved moved' fresh tokens tokens') :
    Alike (distinct ∧ Ranked flags (front ++ back) ∧ fresh) (j.seekBelow n tokens)
      (j.seekBelow n tokens') := by
  -- Behind a word the order matters only below children, so the two cases go together.
  suffices hboth : (Led front flags back distinct n → ∀ {before token left left'},
      (∀ f ∈ before, j.Knows f) → isFlagToken token = false →
      j.Reordered moved moved' fresh left left' →
      Alike (distinct ∧ Ranked flags (front ++ back) ∧ fresh)
        (j.seekBelow n (TypedFlag.allWords before ++ token :: left))
        (j.seekBelow n (TypedFlag.allWords before ++ token :: left'))) ∧
      (Woven front flags back distinct n → ∀ {tokens tokens'},
        j.Reordered moved moved' fresh tokens tokens' →
        Alike (distinct ∧ Ranked flags (front ++ back) ∧ fresh) (j.seekBelow n tokens)
          (j.seekBelow n tokens')) from hboth.2 h hwords
  clear h hwords
  induction n using Node.induction with
  | step n ih =>
    have hword : Led front flags back distinct n → ∀ {before token left left'},
        (∀ f ∈ before, j.Knows f) → isFlagToken token = false →
        j.Reordered moved moved' fresh left left' →
        Alike (distinct ∧ Ranked flags (front ++ back) ∧ fresh)
          (j.seekBelow n (TypedFlag.allWords before ++ token :: left))
          (j.seekBelow n (TypedFlag.allWords before ++ token :: left')) := by
      intro h before token left left' hbefore htoken hwords
      cases h with
      | intro hplain hmem hbelow =>
        refine alike_behind_word hnames (fun c hc hcflag => (hplain c hc hcflag).1) hmem hbefore
          htoken ?_ ?_
        · intro c hc hcflag
          have hwoven := (hplain c hc hcflag).2
          exact ⟨(ih c hc).2 hwoven hwords, (ih c hc).2 hwoven (hwords.cons htoken)⟩
        · intro c hc hcflag before hbefore
          exact (ih c hc).1 (hbelow c hc hcflag) hbefore htoken hwords
    refine ⟨hword, fun h tokens tokens' hwords => ?_⟩
    cases hwords with
    | malformed htake htake' =>
      rw [h.led.seekBelow_of_malformed hnames htake, h.led.seekBelow_of_malformed hnames htake']
      exact .none
    | run hbefore hafter hstops hfresh =>
      exact h.alike_run hnames hflags hback hexchanges hbefore hafter hstops hfresh
    | word hbefore htoken hwords => exact hword h.led hbefore htoken hwords

end Node

end CommandLanguage
