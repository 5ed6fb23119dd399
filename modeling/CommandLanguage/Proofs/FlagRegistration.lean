import CommandLanguage.Proofs.FlagNames

/-!
# Registering flags

A table of flags is filled by registering parameters one after the other, those of usages first. It
keeps an index of names, in which the first flag that asks for a name has it, and a list of flags with
one for each slot. The two go their own ways: a flag in a slot that is taken is not listed, and still
gets the names that are free.

What comes of a whole sequence of parameters is told without the steps in between. A word stands for
the first registered flag that answers to it (`FlagTable.lookup_registerAll`), whatever its slot, and
the list has each registered flag that is in another slot than all before it
(`FlagTable.flags_registerAll`). So a word that stands for a flag does so for good
(`FlagTable.firstCome_law`).
-/

namespace CommandLanguage

/-- The parameters that are in another slot than every one before them, in `before` or in the list
itself. -/
def Parameter.firstInSlot (before : List Parameter) : List Parameter → List Parameter
  | [] => []
  | p :: ps =>
    if before.any (·.sameSlot p) then firstInSlot (before ++ [p]) ps
    else p :: firstInSlot (before ++ [p]) ps

namespace FlagTable

variable {t : FlagTable} {p : Parameter}

/-! ## Names -/

theorem registerAll_append (ps qs : List Parameter) :
    t.registerAll (ps ++ qs) = (t.registerAll ps).registerAll qs :=
  List.foldl_append

/-- Parameters that are no flags leave the table as it is. -/
theorem registerAll_filter_isFlag (ps : List Parameter) :
    t.registerAll (ps.filter (·.isFlag)) = t.registerAll ps := by
  induction ps generalizing t with
  | nil => rfl
  | cons p ps ih =>
    rw [registerAll_cons, ← ih, List.filter_cons]
    split
    · exact registerAll_cons p _
    · rename_i hp
      have hregister : t.register p = t := if_neg hp
      rw [hregister]

/-- A word stands for what it stood for, or else for the first of the flags that are registered which
answers to it. -/
theorem lookup_registerAll (ps : List Parameter) (token : String) :
    (t.registerAll ps).lookup token = (t.lookup token <|>
      (flagAlias? token).bind fun word => (ps.filter (·.isFlag)).find? (·.answersTo word)) := by
  have hflags : ∀ p ∈ ps.filter (·.isFlag), p.isFlag = true := fun p hp => (List.mem_filter.1 hp).2
  rw [← registerAll_filter_isFlag, lookup, lookup]
  cases flagAlias? token with
  | none => rfl
  | some word => exact owner?_registerAll word _ hflags

/-! ## Slots -/

@[simp] theorem flags_claim (flag : Parameter) (name : String) :
    (t.claim flag name).flags = t.flags := by
  unfold claim
  dsimp only
  split <;> rfl

@[simp] theorem flags_foldl_claim (flag : Parameter) (names : List String) :
    (names.foldl (·.claim flag) t).flags = t.flags := by
  induction names generalizing t with
  | nil => rfl
  | cons name names ih => rw [List.foldl_cons, ih, flags_claim]

/-- A flag is listed unless its slot is taken. -/
theorem flags_register (hp : p.isFlag = true) :
    (t.register p).flags = if t.flags.any (·.sameSlot p) then t.flags else t.flags ++ [p] := by
  rw [register, if_pos hp, flags_foldl_claim, keep]
  split <;> rfl

/-- Whether the slots of some flags are those of others. -/
def SameSlots (ps qs : List Parameter) : Prop :=
  ∀ q, ps.any (·.sameSlot q) = qs.any (·.sameSlot q)

/-- One more flag has a slot of its own, or one that is taken. -/
theorem SameSlots.concat {ps qs : List Parameter} (h : SameSlots ps qs) (p : Parameter) :
    SameSlots (ps ++ [p]) (qs ++ [p]) := by
  intro q
  rw [List.any_append, List.any_append, h q]

theorem SameSlots.concat_of_taken {ps qs : List Parameter} (h : SameSlots ps qs)
    (htaken : qs.any (·.sameSlot p) = true) : SameSlots ps (qs ++ [p]) := by
  intro q
  rw [List.any_append, h q]
  cases hpq : p.sameSlot q with
  | false => simp [hpq]
  | true =>
    -- Whatever has the slot of `p` has that of `q`.
    rcases List.any_eq_true.1 htaken with ⟨r, hr, hrp⟩
    have hq : qs.any (·.sameSlot q) = true :=
      List.any_eq_true.2 ⟨r, hr, Parameter.sameSlot_trans hrp hpq⟩
    rw [hq, Bool.true_or]

/-- The list goes on with the flags that are in another slot than all before them, if before them are
flags with the slots of those that are listed. -/
theorem flags_registerAll {before ps : List Parameter} (hbefore : SameSlots t.flags before)
    (hps : ∀ p ∈ ps, p.isFlag = true) :
    (t.registerAll ps).flags = t.flags ++ Parameter.firstInSlot before ps := by
  induction ps generalizing t before with
  | nil => exact (List.append_nil _).symm
  | cons p ps ih =>
    rcases List.forall_mem_cons.1 hps with ⟨hp, hps⟩
    have hflags := flags_register (t := t) hp
    rw [hbefore p] at hflags
    rw [registerAll_cons, Parameter.firstInSlot]
    cases htaken : before.any (·.sameSlot p) with
    | true =>
      -- `p` is not listed, but it counts among the flags before the rest.
      rw [htaken, if_pos rfl] at hflags
      have hnext : SameSlots (t.register p).flags (before ++ [p]) := by
        rw [hflags]
        exact hbefore.concat_of_taken htaken
      rw [ih hnext hps, hflags, if_pos rfl]
    | false =>
      rw [htaken, if_neg Bool.false_ne_true] at hflags
      have hnext : SameSlots (t.register p).flags (before ++ [p]) := by
        rw [hflags]
        exact hbefore.concat p
      rw [ih hnext hps, hflags, if_neg Bool.false_ne_true, List.append_assoc,
        List.singleton_append]

/-! ## Whole sequences -/

/-- Registering the flags of usages is registering their parameters. -/
theorem ofUsages_eq (usages : List Usage) :
    ofUsages usages = empty.registerAll (usages.flatMap (·.parameters)) := by
  have hdeclared : declared usages = (usages.flatMap (·.parameters)).filter (·.isFlag) :=
    List.filter_flatMap.symm
  rw [ofUsages, hdeclared, registerAll_filter_isFlag]

/-- **First come, first served.** After the parameters of usages and then others have been registered,
a word that is not written as a flag stands for none, and any other for the first registered flag one
of whose names agrees with it up to the case of ASCII letters. The flags that are listed are the
registered ones that are in another slot than all before them. A word that stands for a flag stands
for it whatever is registered later. -/
theorem firstCome_law (usages : List Usage) (ps : List Parameter) :
    let t := (ofUsages usages).registerAll ps
    let registered := (usages.flatMap (·.parameters) ++ ps).filter (·.isFlag)
    (∀ token, isFlagToken token = false → t.lookup token = none) ∧
      (∀ token word, flagAlias? token = some word →
        t.lookup token = registered.find? fun p => p.names.any (Text.sameIgnoringCase · word)) ∧
      t.flags = Parameter.firstInSlot [] registered ∧
      ∀ more token flag, t.lookup token = some flag →
        (t.registerAll more).lookup token = some flag := by
  intro t registered
  have ht : t = empty.registerAll (usages.flatMap (·.parameters) ++ ps) := by
    rw [registerAll_append, ← ofUsages_eq]
  have hlookup : ∀ token, t.lookup token =
      (flagAlias? token).bind fun word => registered.find? (·.answersTo word) := by
    intro token
    have hempty : empty.lookup token = none := by
      rw [lookup]
      cases flagAlias? token <;> rfl
    rw [ht, lookup_registerAll, hempty]
    rfl
  refine ⟨?_, ?_, ?_, ?_⟩
  · intro token htoken
    have hnone : flagAlias? token = none := by
      simpa only [isFlagToken, Option.isSome_eq_false_iff, Option.isNone_iff_eq_none] using htoken
    rw [hlookup, hnone]
    rfl
  · intro token word hword
    rw [hlookup, hword]
    rfl
  · have hflags : ∀ p ∈ registered, p.isFlag = true := fun p hp => (List.mem_filter.1 hp).2
    have hslots : SameSlots empty.flags [] := fun _ => rfl
    rw [ht, ← registerAll_filter_isFlag, flags_registerAll hslots hflags]
    rfl
  · intro more token flag hflag
    rw [lookup_registerAll, hflag]
    rfl

/-- A usage with two flags. -/
def banUsage : Usage :=
  ⟨"ban", [.required "target" .string, .switch "silent" ["s"], .valueFlag "time" ["t"] .int],
    none, none, false⟩

/-- What is registered after it: a flag that asks for an alias which has an owner, no flag, and one in a
slot that is taken. -/
def laterFlags : List Parameter :=
  [.switch "server" ["s"], .literal "quiet" [], .switch "SILENT" ["quiet"]]

/-- A flag that is not listed, since its slot is taken, is found by its own alias all the same, and a
later flag cannot take that from it. -/
theorem firstCome_law_quiet :
    ∃ t : FlagTable, (ofUsages [banUsage]).registerAll laterFlags = t ∧
      isFlagToken "quiet" = false ∧ t.lookup "quiet" = none ∧
      t.lookup "--S" = some (.switch "silent" ["s"]) ∧
      t.lookup "-quiet" = some (.switch "SILENT" ["quiet"]) ∧
      t.flags.map (·.name) = ["silent", "time", "server"] ∧
      (t.registerAll [.switch "mute" ["QUIET"]]).lookup "-quiet" =
        some (.switch "SILENT" ["quiet"]) := by
  obtain ⟨hnone, hfirst, hflags, hkept⟩ := firstCome_law [banUsage] laterFlags
  have hplain : isFlagToken "quiet" = false := by decide +kernel
  have hsilent : ((ofUsages [banUsage]).registerAll laterFlags).lookup "--S" =
      some (.switch "silent" ["s"]) := by
    rw [hfirst "--S" "S" (by decide +kernel)]
    decide +kernel
  have hquiet : ((ofUsages [banUsage]).registerAll laterFlags).lookup "-quiet" =
      some (.switch "SILENT" ["quiet"]) := by
    rw [hfirst "-quiet" "quiet" (by decide +kernel)]
    decide +kernel
  refine ⟨_, rfl, hplain, hnone _ hplain, hsilent, hquiet, ?_, hkept _ _ _ hquiet⟩
  rw [hflags]
  decide +kernel

end FlagTable

end CommandLanguage
