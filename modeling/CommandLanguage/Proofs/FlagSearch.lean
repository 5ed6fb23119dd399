import CommandLanguage.Proofs.FlagRun
import CommandLanguage.Proofs.Seek

/-!
# Seeking through a run of flags

What is found behind typed flags at a strand or a fork. That something is found depends on what
stands behind the flags, and not on the flags (`Node.Strand.seekBelow_eq_none_iff`,
`Node.Fork.seekBelow_eq_none_iff`). What is found is told in a closed form where siblings are
*ranked*: each optional argument stands before all flags of the run, or after them all
(`Node.Strand.seekBelow_eq`, `Node.Fork.seekBelow_eq`). Nodes take the flags from the front for as
long as these have not been typed before (`claimed`). An argument that takes the next word keeps all
flags; one that is passed over keeps what nodes have taken if it stands after the flags, and nothing
if it stands before them.
-/

namespace CommandLanguage

/-- The first flags that are typed, for as long as each is one of those left. -/
def claimed : List Parameter → List TypedFlag → List TypedFlag
  | _, [] => []
  | left, f :: fs =>
    if f.bound.flag ∈ left then f :: claimed (left.erase f.bound.flag) fs else []

/-- Whether each optional parameter that is no flag stands before all flags, or after them all. -/
def Ranked (flags ps : List Parameter) : Prop :=
  ∀ p ∈ ps, p.isOptional = true →
    (∀ f ∈ flags, p.siblingPriority < f.siblingPriority) ∨
      ∀ f ∈ flags, f.siblingPriority < p.siblingPriority

/-- Items of which nothing is told may be left out. -/
theorem findSome?_filter {α β : Type} {f : α → Option β} {keep : α → Bool} {xs : List α}
    (h : ∀ x ∈ xs, keep x = false → f x = none) :
    (xs.filter keep).findSome? f = xs.findSome? f := by
  induction xs with
  | nil => rfl
  | cons x xs ih =>
    rcases List.forall_mem_cons.1 h with ⟨hx, hxs⟩
    cases hkeep : keep x with
    | true => rw [List.filter_cons_of_pos hkeep, List.findSome?_cons, List.findSome?_cons, ih hxs]
    | false =>
      rw [List.filter_cons_of_neg (by simp [hkeep]), List.findSome?_cons, hx hkeep, ih hxs]

theorem findSome?_congr {α β : Type} {f g : α → Option β} {xs : List α} (h : ∀ x ∈ xs, f x = g x) :
    xs.findSome? f = xs.findSome? g := by
  induction xs with
  | nil => rfl
  | cons x xs ih =>
    rcases List.forall_mem_cons.1 h with ⟨hx, hxs⟩
    rw [List.findSome?_cons, List.findSome?_cons, hx, ih hxs]

namespace Judge

variable {j : Judge} {n c : Node} {flags : List Parameter} {typed : List TypedFlag}
  {rest : List String}

/-! ## Whether something is found -/

/-- Whether a node finds nothing in words, whatever flags stand before them. -/
def Misses (j : Judge) (c : Node) (rest : List String) : Prop :=
  j.seekTaking c rest = none ∧ j.seekPassing c rest = none

theorem seek_eq_none_iff (hflag : c.isFlag = false) (hgreedy : c.isGreedy = false)
    (hknown : ∀ f ∈ typed, j.Knows f) (hstops : j.StopsAt false rest) :
    j.seek c (TypedFlag.allWords typed ++ rest) = none ↔ j.Misses c rest := by
  rw [seek_of_known hflag hgreedy hknown hstops, Misses]
  cases j.seekTaking c rest <;> simp

theorem seekBelow_eq_none_iff {tokens : List String} :
    j.seekBelow n tokens = none ↔
      (∀ c ∈ n.children, j.seek c tokens = none) ∧ j.seekHere n tokens = none := by
  rw [seekBelow, seekAny_eq, ← List.findSome?_eq_none_iff]
  cases n.children.findSome? (j.seek · tokens) <;> simp

theorem seekHere_eq_none_iff (hknown : ∀ f ∈ typed, j.Knows f) (hstops : j.StopsAt false rest) :
    j.seekHere n (TypedFlag.allWords typed ++ rest) = none ↔ (rest = [] → n.resolved? = none) := by
  rw [seekHere_of_known hknown hstops]
  by_cases hrest : rest = []
  · simp [hrest]
  · simp [hrest]

end Judge

namespace Node

open Judge (Misses)

variable {j : Judge} {n : Node} {front flags back left : List Parameter} {distinct : Prop}
  {cs : List Node} {end? : Option NumberedUsage} {typed : List TypedFlag} {rest : List String}

theorem Strand.mem_kin (h : Strand cs end? left n) {c : Node} :
    c ∈ cs ↔ c ∈ n.children ∧ c.isFlag = false := by
  cases h with
  | intro _ hkin _ _ _ _ =>
    rw [← hkin, kin, List.mem_filter]
    have hslot : plainSlot c.parameter.slot = !c.isFlag := rfl
    simp [hslot]

/-- A strand finds nothing behind flags exactly if what leads on from it does not, if then its flags do
not either. -/
theorem Strand.seekBelow_eq_none_iff_of_flags (h : Strand cs end? left n)
    (hgreedy : ∀ c ∈ cs, c.isGreedy = false) (hknown : ∀ f ∈ typed, j.Knows f)
    (hstops : j.StopsAt false rest)
    (hflags : (∀ c ∈ cs, j.Misses c rest) → (rest = [] → end? = none) →
      ∀ c ∈ n.children, c.isFlag = true → j.seek c (TypedFlag.allWords typed ++ rest) = none) :
    j.seekBelow n (TypedFlag.allWords typed ++ rest) = none ↔
      (∀ c ∈ cs, j.Misses c rest) ∧ (rest = [] → end? = none) := by
  have hend : n.resolved? = end? := by
    cases h
    assumption
  rw [Judge.seekBelow_eq_none_iff, Judge.seekHere_eq_none_iff hknown hstops, hend]
  refine and_congr_left fun hends => ?_
  constructor
  · intro hnone c hc
    rcases h.mem_kin.1 hc with ⟨hmem, hplain⟩
    exact (Judge.seek_eq_none_iff hplain (hgreedy c hc) hknown hstops).1 (hnone c hmem)
  · intro hmiss c hc
    cases hcflag : c.isFlag with
    | true => exact hflags hmiss hends c hc hcflag
    | false =>
      have hmem := h.mem_kin.2 ⟨hc, hcflag⟩
      exact (Judge.seek_eq_none_iff hcflag (hgreedy c hmem) hknown hstops).2 (hmiss c hmem)

/-- A strand finds nothing behind flags if what leads on from it does not. -/
theorem Strand.seekBelow_eq_none_iff (hnames : j.NamesFlags flags) (h : Strand cs end? left n)
    (hleft : left ⊆ flags) (hgreedy : ∀ c ∈ cs, c.isGreedy = false)
    (hknown : ∀ f ∈ typed, j.Knows f) (hstops : j.StopsAt false rest) :
    j.seekBelow n (TypedFlag.allWords typed ++ rest) = none ↔
      (∀ c ∈ cs, j.Misses c rest) ∧ (rest = [] → end? = none) := by
  induction typed generalizing n left with
  | nil =>
    refine h.seekBelow_eq_none_iff_of_flags hgreedy hknown hstops ?_
    intro _ _ c hc hcflag
    cases h with
    | intro _ _ _ _ hflag _ =>
      exact Judge.seek_flag_of_stopsAt hcflag hnames (hleft (hflag c hc hcflag)) hstops
  | cons f typed ih =>
    rcases List.forall_mem_cons.1 hknown with ⟨hf, hrest⟩
    refine h.seekBelow_eq_none_iff_of_flags hgreedy hknown hstops ?_
    intro hmiss hends c hc hcflag
    cases h with
    | intro _ _ _ _ hflag hbelow =>
      have hbelow := ih (hbelow c hc hcflag) (fun g hg => hleft (List.mem_of_mem_erase hg)) hrest
      rw [TypedFlag.allWords_cons, List.append_assoc,
        Judge.seek_flag hcflag hnames (hleft (hflag c hc hcflag)) hf, hbelow.2 ⟨hmiss, hends⟩]
      split <;> rfl

/-- A fork finds nothing behind flags if neither it nor what leads on from the flags does. -/
theorem Fork.seekBelow_eq_none_iff (hnames : j.NamesFlags flags)
    (hflags : ∀ f ∈ flags, f.isFlag = true)
    (h : Fork front flags back distinct cs end? n) (hgreedy : ∀ c ∈ cs, c.isGreedy = false)
    (hplain : ∀ c ∈ n.children, c.isFlag = false → c.isGreedy = false) (hne : typed ≠ [])
    (hknown : ∀ f ∈ typed, j.Knows f) (hstops : j.StopsAt false rest) :
    j.seekBelow n (TypedFlag.allWords typed ++ rest) = none ↔
      (∀ c ∈ n.children, c.isFlag = false → j.Misses c rest) ∧
        ((∀ c ∈ cs, j.Misses c rest) ∧ (rest = [] → end? = none)) ∧
          (rest = [] → n.resolved? = none) := by
  obtain ⟨f, typed, rfl⟩ := List.exists_cons_of_ne_nil hne
  rcases List.forall_mem_cons.1 hknown with ⟨hf, hrest⟩
  have hseek : ∀ c ∈ n.children, c.isFlag = true →
      j.seek c (TypedFlag.allWords (f :: typed) ++ rest) =
        if c.parameter = f.bound.flag then
          (j.seekBelow c (TypedFlag.allWords typed ++ rest)).map (Finding.after [] [f.bound])
        else none := by
    intro c hc hcflag
    rw [TypedFlag.allWords_cons, List.append_assoc]
    exact Judge.seek_flag hcflag hnames (h.flag c hc hcflag) hf _
  -- The same is missed below every flag.
  have hstrand : ∀ c ∈ n.children, c.isFlag = true →
      (j.seekBelow c (TypedFlag.allWords typed ++ rest) = none ↔
        (∀ c ∈ cs, j.Misses c rest) ∧ (rest = [] → end? = none)) := by
    intro c hc hcflag
    exact (h.strand c hc hcflag).seekBelow_eq_none_iff hnames List.erase_subset hgreedy hrest hstops
  rw [Judge.seekBelow_eq_none_iff, Judge.seekHere_eq_none_iff hknown hstops, ← and_assoc]
  refine and_congr_left fun _ => ?_
  constructor
  · intro hnone
    refine ⟨?_, ?_⟩
    · intro c hc hcflag
      exact (Judge.seek_eq_none_iff hcflag (hplain c hc hcflag) hknown hstops).1 (hnone c hc)
    · -- The first flag has a node of its own.
      have hfmem : f.bound.flag ∈ flags := ((hnames _ _).1 hf.lookup).1
      rcases h.covers _ hfmem with ⟨c, hc, hparameter⟩
      have hcflag : c.isFlag = true := by
        rw [isFlag, hparameter]
        exact hflags _ hfmem
      have hown := hnone c hc
      rw [hseek c hc hcflag, if_pos hparameter, Option.map_eq_none_iff] at hown
      exact (hstrand c hc hcflag).1 hown
  · rintro ⟨hmiss, hlead⟩ c hc
    cases hcflag : c.isFlag with
    | true =>
      rw [hseek c hc hcflag, (hstrand c hc hcflag).2 hlead]
      split <;> rfl
    | false =>
      exact (Judge.seek_eq_none_iff hcflag (hplain c hc hcflag) hknown hstops).2 (hmiss c hc hcflag)

end Node

/-! ## What is found -/

namespace Judge

variable {j : Judge} {c : Node} {flags : List Parameter} {typed kept : List TypedFlag}
  {f : TypedFlag} {rest : List String}

/-- Whether a node stands after all flags. -/
def standsAfter (flags : List Parameter) (c : Node) : Bool :=
  decide (∀ f ∈ flags, c.siblingPriority < f.siblingPriority)

/-- What a node that is no flag finds behind typed flags: it keeps all of them if it takes the next
word. If it is passed over it keeps those that nodes have taken, provided it stands after the flags.
-/
def pick (j : Judge) (flags : List Parameter) (typed kept : List TypedFlag) (rest : List String)
    (c : Node) : Option Finding :=
  (j.seekTaking c rest).map (Finding.after [] (typed.map (·.bound))) <|>
    (j.seekPassing c rest).map
      (Finding.after [] (if standsAfter flags c then kept.map (·.bound) else []))

/-- What is found at an end, behind typed flags. -/
def pickEnd (end? : Option NumberedUsage) (typed : List TypedFlag) (rest : List String) :
    Option Finding :=
  if rest = [] then end?.map fun u => ⟨u, [], typed.map (·.bound)⟩ else none

theorem pick_eq_none_iff : j.pick flags typed kept rest c = none ↔ j.Misses c rest := by
  unfold pick Misses
  cases j.seekTaking c rest <;> simp

/-- Before the flags, a node that is passed over drops them. -/
theorem seek_eq_pick (hflag : c.isFlag = false) (hgreedy : c.isGreedy = false)
    (hafter : standsAfter flags c = false ∨ kept = []) (hknown : ∀ f ∈ typed, j.Knows f)
    (hstops : j.StopsAt false rest) :
    j.seek c (TypedFlag.allWords typed ++ rest) = j.pick flags typed kept rest c := by
  have hdrops :
      (if standsAfter flags c then kept.map (·.bound) else []) = ([] : List BoundFlag) := by
    rcases hafter with hbefore | rfl
    · simp [hbefore]
    · simp
  have hid : (fun x : Finding => x.after [] []) = id := rfl
  rw [seek_of_known hflag hgreedy hknown hstops, pick, hdrops]
  cases j.seekPassing c rest <;> rfl

/-- A flag that a node has taken is kept by what stands after the flags. -/
theorem map_pick (hafter : c.isSkippable = true → standsAfter flags c = true) :
    (j.pick flags typed kept rest c).map (Finding.after [] [f.bound]) =
      j.pick flags (f :: typed) (f :: kept) rest c := by
  unfold pick
  cases htaking : j.seekTaking c rest with
  | some x => simp [Finding.after_after]
  | none =>
    cases hskip : c.isSkippable with
    | true => cases hpassing : j.seekPassing c rest <;> simp [hafter hskip, Finding.after_after]
    | false => simp [seekPassing, hskip]

theorem map_pickEnd (end? : Option NumberedUsage) :
    (pickEnd end? typed rest).map (Finding.after [] [f.bound]) =
      pickEnd end? (f :: typed) rest := by
  unfold pickEnd
  split
  · cases end? <;> simp [Finding.after]
  · rfl

theorem seekHere_eq_pickEnd {n : Node} (hknown : ∀ f ∈ typed, j.Knows f)
    (hstops : j.StopsAt false rest) :
    j.seekHere n (TypedFlag.allWords typed ++ rest) = pickEnd n.resolved? typed rest :=
  seekHere_of_known hknown hstops

end Judge

namespace Node

variable {j : Judge} {n : Node} {front flags back left ps : List Parameter} {distinct : Prop}
  {cs : List Node} {end? : Option NumberedUsage} {typed : List TypedFlag} {rest : List String}

/-- Whether siblings are those before the first node of a flag, that node, and those after it. -/
structure SplitAt (f : Parameter) (children pre : List Node) (c : Node) (post : List Node) :
    Prop where
  eq : children = pre ++ c :: post
  parameter : c.parameter = f
  other : ∀ d ∈ pre, d.parameter ≠ f
  before : ∀ d ∈ pre, f.siblingPriority ≤ d.siblingPriority
  after : ∀ d ∈ post, d.siblingPriority ≤ f.siblingPriority

theorem exists_splitAt {children : List Node} (hsorted : Sorted children) {f : Parameter}
    (hf : ∃ c ∈ children, c.parameter = f) : ∃ pre c post, SplitAt f children pre c post := by
  have hsome : (children.find? fun c => decide (c.parameter = f)).isSome = true := by
    rcases hf with ⟨c, hc, hparameter⟩
    exact List.find?_isSome.2 ⟨c, hc, by simpa using hparameter⟩
  rcases Option.isSome_iff_exists.1 hsome with ⟨c, hfind⟩
  rcases List.find?_eq_some_iff_append.1 hfind with ⟨hparameter, pre, post, rfl, hpre⟩
  obtain rfl : c.parameter = f := by simpa using hparameter
  refine ⟨pre, c, post, rfl, rfl, fun d hd => by simpa using hpre d hd, ?_, ?_⟩
  · intro d hd
    exact (List.pairwise_append.1 hsorted).2.2 d hd c List.mem_cons_self
  · intro d hd
    exact (List.pairwise_cons.1 (List.pairwise_append.1 hsorted).2.1).1 d hd

theorem isOptional_of_isSkippable {c : Node} (h : c.isSkippable = true) : c.isOptional = true := by
  simp only [isSkippable, Bool.and_eq_true] at h
  exact h.1

/-- The siblings that are no flags. -/
def plainOf (cs : List Node) : List Node :=
  cs.filter fun c => plainSlot c.parameter.slot

theorem mem_plainOf {cs : List Node} {c : Node} : c ∈ plainOf cs ↔ c ∈ cs ∧ c.isFlag = false := by
  have hslot : plainSlot c.parameter.slot = !c.isFlag := rfl
  simp [plainOf, hslot]

/-- Siblings of which no flag finds anything find what those find that are no flags. -/
theorem findSome?_plainOf {cs : List Node} {tokens : List String}
    (h : ∀ c ∈ cs, c.isFlag = true → j.seek c tokens = none) :
    (plainOf cs).findSome? (j.seek · tokens) = cs.findSome? (j.seek · tokens) := by
  refine findSome?_filter fun c hc hslot => h c hc ?_
  have hflag : plainSlot c.parameter.slot = !c.isFlag := rfl
  simpa [hflag] using hslot

section SplitAt

variable {f : Parameter} {children pre post : List Node} {c : Node}

theorem SplitAt.plainOf_eq (h : SplitAt f children pre c post) (hf : f.isFlag = true) :
    plainOf children = plainOf pre ++ plainOf post := by
  have hslot : plainSlot c.parameter.slot = false := by
    have hflag : c.parameter.slot.isFlag = true := by
      rw [h.parameter]
      exact hf
    simp [plainSlot, hflag]
  rw [h.eq, plainOf, List.filter_append, List.filter_cons_of_neg (by simp [hslot])]
  rfl

theorem SplitAt.mem_of_plainOf (h : SplitAt f children pre c post) {d : Node}
    (hd : d ∈ plainOf pre ∨ d ∈ plainOf post) : d ∈ children ∧ d.isFlag = false := by
  rw [mem_plainOf, mem_plainOf, ← or_and_right] at hd
  rw [h.eq, List.mem_append, List.mem_cons]
  exact ⟨hd.1.imp_right .inr, hd.2⟩

/-- A node before the node of a flag does not stand after all flags. -/
theorem SplitAt.standsAfter_pre (h : SplitAt f children pre c post) (hf : f ∈ flags) {d : Node}
    (hd : d ∈ plainOf pre) : Judge.standsAfter flags d = false := by
  rw [Judge.standsAfter, decide_eq_false_iff_not]
  intro hall
  exact absurd (hall f hf) (Int.not_lt.2 (h.before d (mem_plainOf.1 hd).1))

/-- A ranked node after the node of a flag stands after all flags, if it may be passed over. -/
theorem SplitAt.standsAfter_post (h : SplitAt f children pre c post) (hf : f ∈ flags)
    (hranked : Ranked flags ps) {d : Node} (hd : d ∈ plainOf post) (hps : d.parameter ∈ ps)
    (hoptional : d.isOptional = true) : Judge.standsAfter flags d = true := by
  rcases hranked d.parameter hps hoptional with hafter | hbefore
  · exact decide_eq_true hafter
  · exact absurd (hbefore f hf) (Int.not_lt.2 (h.after d (mem_plainOf.1 hd).1))

end SplitAt

/-- What siblings find behind a flag: what stands before the node of the flag comes first, then what
is below that node, and then what stands after it. -/
theorem SplitAt.seekAny_eq {f : TypedFlag} {tokens : List String} {children pre post : List Node}
    {c : Node} {x : Option Finding} (h : SplitAt f.bound.flag children pre c post)
    (hnames : j.NamesFlags flags) (hf : j.Knows f) (hfflag : f.bound.flag.isFlag = true)
    (hmem : ∀ d ∈ children, d.isFlag = true → d.parameter ∈ flags)
    (hbelow : ∀ d ∈ children, d.isFlag = true → d.parameter = f.bound.flag →
      j.seekBelow d tokens = x) :
    j.seekAny children (f.words ++ tokens) =
      ((plainOf pre).findSome? (j.seek · (f.words ++ tokens)) <|>
        (x.map (Finding.after [] [f.bound]) <|>
          (plainOf post).findSome? (j.seek · (f.words ++ tokens)))) := by
  have hseek : ∀ d ∈ children, d.isFlag = true → j.seek d (f.words ++ tokens) =
      if d.parameter = f.bound.flag then x.map (Finding.after [] [f.bound]) else none := by
    intro d hd hdflag
    rw [Judge.seek_flag hdflag hnames (hmem d hd hdflag) hf]
    split
    · rename_i hown
      rw [hbelow d hd hdflag hown]
    · rfl
  have hcflag : c.isFlag = true := by rw [isFlag, h.parameter, hfflag]
  have hpreNone : ∀ d ∈ pre, d.isFlag = true → j.seek d (f.words ++ tokens) = none := by
    intro d hd hdflag
    rw [hseek d (by simp [h.eq, hd]) hdflag, if_neg (h.other d hd)]
  rw [Judge.seekAny_eq, h.eq, List.findSome?_append, List.findSome?_cons,
    ← findSome?_plainOf hpreNone, hseek c (by simp [h.eq]) hcflag, if_pos h.parameter]
  cases hx : x.map (Finding.after [] [f.bound]) with
  | some y => simp
  | none =>
    have hpostNone : ∀ d ∈ post, d.isFlag = true → j.seek d (f.words ++ tokens) = none := by
      intro d hd hdflag
      rw [hseek d (by simp [h.eq, hd]) hdflag, hx]
      split <;> rfl
    simp [findSome?_plainOf hpostNone]

/-- What siblings find nothing behind some flags find nothing behind others. -/
theorem findSome?_pick_eq_none {cs : List Node} {kept : List TypedFlag}
    (h : cs.findSome? (j.pick flags typed kept rest) = none) (typed' kept' : List TypedFlag) :
    cs.findSome? (j.pick flags typed' kept' rest) = none := by
  rw [List.findSome?_eq_none_iff] at h ⊢
  exact fun c hc => Judge.pick_eq_none_iff.2 (Judge.pick_eq_none_iff.1 (h c hc))

/-- A node that has taken a flag finds what is found below it. Of what leads on from it, the first
part finds nothing, and the rest stands after the flags. -/
theorem map_findSome?_pick {f : TypedFlag} {first later : List Node}
    (hfirst : first.findSome? (j.pick flags typed kept rest) = none)
    (hlater : ∀ c ∈ later, c.isSkippable = true → Judge.standsAfter flags c = true) :
    ((first ++ later).findSome? (j.pick flags typed kept rest) <|>
        Judge.pickEnd end? typed rest).map (Finding.after [] [f.bound]) =
      (later.findSome? (j.pick flags (f :: typed) (f :: kept) rest) <|>
        Judge.pickEnd end? (f :: typed) rest) := by
  have hpick : (later.findSome? (j.pick flags typed kept rest)).map (Finding.after [] [f.bound]) =
      later.findSome? (j.pick flags (f :: typed) (f :: kept) rest) := by
    rw [List.map_findSome?]
    exact findSome?_congr fun c hc => Judge.map_pick (hlater c hc)
  rw [List.findSome?_append, hfirst, ← hpick, ← Judge.map_pickEnd]
  cases later.findSome? (j.pick flags typed kept rest) <;> simp

/-- Siblings of which all miss find nothing behind flags. -/
theorem findSome?_seek_eq_none {cs : List Node} {kept : List TypedFlag}
    (hplain : ∀ c ∈ cs, c.isFlag = false ∧ c.isGreedy = false)
    (hknown : ∀ f ∈ typed, j.Knows f) (hstops : j.StopsAt false rest)
    (h : cs.findSome? (j.pick flags typed kept rest) = none) :
    cs.findSome? (j.seek · (TypedFlag.allWords typed ++ rest)) = none := by
  rw [List.findSome?_eq_none_iff] at h ⊢
  intro c hc
  exact (Judge.seek_eq_none_iff (hplain c hc).1 (hplain c hc).2 hknown hstops).2
    (Judge.pick_eq_none_iff.1 (h c hc))

/-- What siblings find behind typed flags, if all nodes of the first flag lead on alike. Of what
they lead on to, the first part stands before these nodes too, and the rest after all flags. -/
theorem SplitAt.seekAny_pick {f : TypedFlag} {kept : List TypedFlag}
    {children pre post first later : List Node} {c : Node}
    (h : SplitAt f.bound.flag children pre c post) (hnames : j.NamesFlags flags)
    (hflags : ∀ f ∈ flags, f.isFlag = true) (hknown : ∀ g ∈ f :: typed, j.Knows g)
    (hstops : j.StopsAt false rest) (hmem : ∀ d ∈ children, d.isFlag = true → d.parameter ∈ flags)
    (hgreedy : ∀ d ∈ children, d.isFlag = false → d.isGreedy = false)
    (hfirst : ∀ d ∈ first, d ∈ plainOf pre)
    (hlater : ∀ d ∈ later, d.isSkippable = true → Judge.standsAfter flags d = true)
    (hbelow : ∀ d ∈ children, d.isFlag = true → d.parameter = f.bound.flag →
      j.seekBelow d (TypedFlag.allWords typed ++ rest) =
        ((first ++ later).findSome? (j.pick flags typed kept rest) <|>
          Judge.pickEnd end? typed rest)) :
    j.seekAny children (TypedFlag.allWords (f :: typed) ++ rest) =
      ((plainOf pre).findSome? (j.pick flags (f :: typed) (f :: kept) rest) <|>
        (later.findSome? (j.pick flags (f :: typed) (f :: kept) rest) <|>
          (Judge.pickEnd end? (f :: typed) rest <|>
            (plainOf post).findSome? (j.seek · (TypedFlag.allWords (f :: typed) ++ rest))))) := by
  have hf := hknown f List.mem_cons_self
  have hfmem : f.bound.flag ∈ flags := ((hnames _ _).1 hf.lookup).1
  have hpre : (plainOf pre).findSome? (j.seek · (TypedFlag.allWords (f :: typed) ++ rest)) =
      (plainOf pre).findSome? (j.pick flags (f :: typed) (f :: kept) rest) := by
    refine findSome?_congr fun d hd => ?_
    rcases h.mem_of_plainOf (.inl hd) with ⟨hdmem, hdflag⟩
    exact Judge.seek_eq_pick hdflag (hgreedy d hdmem hdflag) (.inl (h.standsAfter_pre hfmem hd))
      hknown hstops
  have hany := h.seekAny_eq hnames hf (hflags _ hfmem) hmem hbelow
  rw [← List.append_assoc, ← TypedFlag.allWords_cons, hpre] at hany
  rw [hany]
  -- What stands before the nodes of the flag comes first in any case.
  cases hpick : (plainOf pre).findSome? (j.pick flags (f :: typed) (f :: kept) rest) with
  | some x => simp
  | none =>
    have hnone : first.findSome? (j.pick flags typed kept rest) = none := by
      have hall := findSome?_pick_eq_none hpick typed kept
      rw [List.findSome?_eq_none_iff] at hall ⊢
      exact fun d hd => hall d (hfirst d hd)
    rw [map_findSome?_pick hnone hlater]
    cases later.findSome? (j.pick flags (f :: typed) (f :: kept) rest) <;> simp

/-- Where no node takes the first flag, the others find what they find behind the flags. -/
theorem Strand.seekBelow_of_stuck (h : Strand cs end? left n)
    (hgreedy : ∀ c ∈ cs, c.isGreedy = false) (hknown : ∀ f ∈ typed, j.Knows f)
    (hstops : j.StopsAt false rest)
    (hnone : ∀ c ∈ n.children, c.isFlag = true →
      j.seek c (TypedFlag.allWords typed ++ rest) = none) :
    j.seekBelow n (TypedFlag.allWords typed ++ rest) =
      (cs.findSome? (j.pick flags typed [] rest) <|> Judge.pickEnd end? typed rest) := by
  have hkin := fun c => h.mem_kin (c := c)
  cases h with
  | intro hend hcs _ _ _ _ =>
    have hplain : plainOf n.children = cs := hcs
    rw [Judge.seekBelow, Judge.seekAny_eq, Judge.seekHere_eq_pickEnd hknown hstops, hend,
      ← findSome?_plainOf hnone, hplain]
    congr 1
    exact findSome?_congr fun c hc =>
      Judge.seek_eq_pick ((hkin c).1 hc).2 (hgreedy c hc) (.inr rfl) hknown hstops

/-- **Seeking at a strand.** The first sibling that finds something tells what is found; if there is
none, the end of the usage does. -/
theorem Strand.seekBelow_eq (hnames : j.NamesFlags flags)
    (hflags : ∀ f ∈ flags, f.isFlag = true) (hranked : Ranked flags ps)
    (h : Strand cs end? left n) (hleft : left ⊆ flags) (hcs : ∀ c ∈ cs, c.parameter ∈ ps)
    (hgreedy : ∀ c ∈ cs, c.isGreedy = false) (hknown : ∀ f ∈ typed, j.Knows f)
    (hstops : j.StopsAt false rest) :
    j.seekBelow n (TypedFlag.allWords typed ++ rest) =
      (cs.findSome? (j.pick flags typed (claimed left typed) rest) <|>
        Judge.pickEnd end? typed rest) := by
  induction typed generalizing n left with
  | nil =>
    refine h.seekBelow_of_stuck hgreedy hknown hstops fun c hc hcflag => ?_
    cases h with
    | intro _ _ _ _ hflag _ =>
      exact Judge.seek_flag_of_stopsAt hcflag hnames (hleft (hflag c hc hcflag)) hstops
  | cons f typed ih =>
    rcases List.forall_mem_cons.1 hknown with ⟨hf, hrest⟩
    by_cases hfleft : f.bound.flag ∈ left
    · rw [claimed, if_pos hfleft]
      have hkin := fun c => h.mem_kin (c := c)
      cases h with
      | intro hend hkinEq hsorted hcovers hflag hbelow =>
        rcases exists_splitAt hsorted (hcovers _ hfleft) with ⟨pre, c, post, hsplit⟩
        -- The others split at the node of the flag: what it leads to comes between them.
        have hparts : cs = plainOf pre ++ plainOf post := by
          rw [← hkinEq, ← hsplit.plainOf_eq (hflags _ (hleft hfleft))]
          rfl
        have hpost : ∀ d ∈ plainOf post, d.isSkippable = true →
            Judge.standsAfter flags d = true := fun d hd hskip =>
          hsplit.standsAfter_post (hleft hfleft) hranked hd (hcs d (by simp [hparts, hd]))
            (isOptional_of_isSkippable hskip)
        have hdown : ∀ d ∈ n.children, d.isFlag = true → d.parameter = f.bound.flag →
            j.seekBelow d (TypedFlag.allWords typed ++ rest) =
              ((plainOf pre ++ plainOf post).findSome?
                  (j.pick flags typed (claimed (left.erase f.bound.flag) typed) rest) <|>
                Judge.pickEnd end? typed rest) := by
          intro d hd hdflag hown
          have hstrand := hbelow d hd hdflag
          rw [hown] at hstrand
          rw [← hparts]
          exact ih hstrand (fun g hg => hleft (List.mem_of_mem_erase hg)) hrest
        rw [Judge.seekBelow, Judge.seekHere_eq_pickEnd hknown hstops, hend, hparts,
          hsplit.seekAny_pick hnames hflags hknown hstops
            (fun d hd hdflag => hleft (hflag d hd hdflag))
            (fun d hd hdflag => hgreedy d ((hkin d).2 ⟨hd, hdflag⟩)) (fun d hd => hd) hpost hdown,
          List.findSome?_append]
        -- The later ones are asked below the node and beside it: what is not found below is not
        -- found beside.
        cases hlater : (plainOf post).findSome?
            (j.pick flags (f :: typed) (f :: claimed (left.erase f.bound.flag) typed) rest) with
        | some x => simp
        | none =>
          have hplain : ∀ d ∈ plainOf post, d.isFlag = false ∧ d.isGreedy = false := fun d hd =>
            ⟨(mem_plainOf.1 hd).2, hgreedy d (by simp [hparts, hd])⟩
          rw [findSome?_seek_eq_none hplain hknown hstops hlater]
          cases Judge.pickEnd end? (f :: typed) rest <;> simp
    · rw [claimed, if_neg hfleft]
      -- The flag is no longer among those of the strand, so none of its nodes takes it.
      refine h.seekBelow_of_stuck hgreedy hknown hstops fun c hc hcflag => ?_
      cases h with
      | intro _ _ _ _ hflag _ =>
        have hcleft := hflag c hc hcflag
        have hne : c.parameter ≠ f.bound.flag := by
          intro heq
          exact hfleft (heq ▸ hcleft)
        rw [TypedFlag.allWords_cons, List.append_assoc,
          Judge.seek_flag hcflag hnames (hleft hcleft) hf, if_neg hne]

/-- Whether a node comes first at a fork: it leads on from the flags too, or it does not stand after
them all. -/
def comesFirst (flags back : List Parameter) (c : Node) : Bool :=
  slotAmong back c.parameter.slot || !Judge.standsAfter flags c

/-- What leads on from the flags are the siblings at the fork that are in the slots of what follows
the run. -/
theorem Fork.eq_filter (hback : ∀ p ∈ back, p.isFlag = false)
    (h : Fork front flags back distinct cs end? n) (hdistinct : distinct) :
    cs = (plainOf n.children).filter fun d => slotAmong back d.parameter.slot := by
  rw [plainOf, List.filter_filter]
  refine (h.kin hdistinct).symm.trans (List.filter_congr fun d _ => ?_)
  cases hamong : slotAmong back d.parameter.slot with
  | true =>
    rcases List.mem_map.1 (of_decide_eq_true hamong) with ⟨p, hp, hslot⟩
    have hplain : d.parameter.slot.isFlag = false := by
      rw [← hslot]
      exact hback p hp
    simp [plainSlot, hplain]
  | false => rfl

/-- Behind the node of a flag those siblings come first that lead on from the flags. -/
theorem Fork.comesFirst_post (hranked : Ranked flags (front ++ back))
    (h : Fork front flags back distinct cs end? n) (hdistinct : distinct) {f : Parameter}
    (hf : f ∈ flags) {pre post : List Node} {c : Node} (hsplit : SplitAt f n.children pre c post)
    {d : Node} (hd : d ∈ plainOf post) :
    comesFirst flags back d = slotAmong back d.parameter.slot := by
  unfold comesFirst
  cases hamong : slotAmong back d.parameter.slot with
  | true => rfl
  | false =>
    rcases hsplit.mem_of_plainOf (.inr hd) with ⟨hdmem, hdflag⟩
    have hafter := hsplit.standsAfter_post hf hranked hd (h.plain d hdmem hdflag)
      (h.optional hdistinct d hdmem hdflag hamong)
    simp [hafter]

/-- **Seeking at a fork.** First come the siblings that do not stand after the flags and those that
lead on from the flags too, then the end of the usage after the flags, then what is left, and then
the fork itself. -/
theorem Fork.seekBelow_eq (hnames : j.NamesFlags flags) (hflags : ∀ f ∈ flags, f.isFlag = true)
    (hback : ∀ p ∈ back, p.isFlag = false) (hranked : Ranked flags (front ++ back))
    (h : Fork front flags back distinct cs end? n) (hdistinct : distinct)
    (hgreedy : ∀ c ∈ n.children, c.isFlag = false → c.isGreedy = false) (hne : typed ≠ [])
    (hknown : ∀ f ∈ typed, j.Knows f) (hstops : j.StopsAt false rest) :
    j.seekBelow n (TypedFlag.allWords typed ++ rest) =
      (((plainOf n.children).filter (comesFirst flags back)).findSome?
            (j.pick flags typed (claimed flags typed) rest) <|>
        (Judge.pickEnd end? typed rest <|>
          (((plainOf n.children).filter (!comesFirst flags back ·)).findSome?
              (j.pick flags typed [] rest) <|>
            Judge.pickEnd n.resolved? typed rest))) := by
  obtain ⟨f, typed, rfl⟩ := List.exists_cons_of_ne_nil hne
  rcases List.forall_mem_cons.1 hknown with ⟨hf, hrest⟩
  have hfmem : f.bound.flag ∈ flags := ((hnames _ _).1 hf.lookup).1
  rcases exists_splitAt h.sorted (h.covers _ hfmem) with ⟨pre, c, post, hsplit⟩
  have hcs := h.eq_filter hback hdistinct
  have hcsMem : ∀ d ∈ cs, d ∈ n.children ∧ d.isFlag = false := by
    intro d hd
    rw [hcs] at hd
    exact mem_plainOf.1 (List.mem_filter.1 hd).1
  have hchildren := hsplit.plainOf_eq (hflags _ hfmem)
  rw [hchildren, List.filter_append] at hcs
  -- Before the node of the flag all siblings come first, behind it those that lead on from it.
  have hpreFirst : ∀ d ∈ plainOf pre, comesFirst flags back d = true := fun d hd => by
    simp [comesFirst, hsplit.standsAfter_pre hfmem hd]
  have hpostFirst : ∀ d ∈ plainOf post,
      comesFirst flags back d = slotAmong back d.parameter.slot := fun d hd =>
    h.comesFirst_post hranked hdistinct hfmem hsplit hd
  have hfirst : (plainOf n.children).filter (comesFirst flags back) =
      plainOf pre ++ (plainOf post).filter fun d => slotAmong back d.parameter.slot := by
    rw [hchildren, List.filter_append, List.filter_eq_self.2 hpreFirst,
      List.filter_congr hpostFirst]
  have hleft : (plainOf n.children).filter (!comesFirst flags back ·) =
      (plainOf post).filter fun d => !slotAmong back d.parameter.slot := by
    have hnone : (plainOf pre).filter (!comesFirst flags back ·) = [] :=
      List.filter_eq_nil_iff.2 fun d hd => by simp [hpreFirst d hd]
    rw [hchildren, List.filter_append, hnone, List.nil_append]
    exact List.filter_congr fun d hd => by rw [hpostFirst d hd]
  have hlater : ∀ d ∈ (plainOf post).filter (fun d => slotAmong back d.parameter.slot),
      d.isSkippable = true → Judge.standsAfter flags d = true := by
    intro d hd hskip
    have hd' := (List.mem_filter.1 hd).1
    rcases hsplit.mem_of_plainOf (.inr hd') with ⟨hdmem, hdflag⟩
    exact hsplit.standsAfter_post hfmem hranked hd' (h.plain d hdmem hdflag)
      (isOptional_of_isSkippable hskip)
  have hdown : ∀ d ∈ n.children, d.isFlag = true → d.parameter = f.bound.flag →
      j.seekBelow d (TypedFlag.allWords typed ++ rest) =
        (((plainOf pre).filter (fun d => slotAmong back d.parameter.slot) ++
            (plainOf post).filter (fun d => slotAmong back d.parameter.slot)).findSome?
            (j.pick flags typed (claimed (flags.erase f.bound.flag) typed) rest) <|>
          Judge.pickEnd end? typed rest) := by
    intro d hd hdflag hown
    have hstrand := h.strand d hd hdflag
    rw [hown] at hstrand
    rw [← hcs]
    exact hstrand.seekBelow_eq hnames hflags hranked List.erase_subset
      (fun e he => h.plain e (hcsMem e he).1 (hcsMem e he).2)
      (fun e he => hgreedy e (hcsMem e he).1 (hcsMem e he).2) hrest hstops
  rw [Judge.seekBelow, Judge.seekHere_eq_pickEnd hknown hstops,
    hsplit.seekAny_pick hnames hflags hknown hstops h.flag hgreedy
      (fun d hd => (List.mem_filter.1 hd).1) hlater hdown,
    hfirst, hleft, List.findSome?_append, claimed, if_pos hfmem]
  cases hlead : ((plainOf post).filter fun d => slotAmong back d.parameter.slot).findSome?
      (j.pick flags (f :: typed) (f :: claimed (flags.erase f.bound.flag) typed) rest) with
  | some x => simp
  | none =>
    -- What leads on from the flags has found nothing, so what is left decides.
    have hmissed : ∀ d ∈ plainOf post, (!slotAmong back d.parameter.slot) = false →
        j.seek d (TypedFlag.allWords (f :: typed) ++ rest) = none := by
      intro d hd hamong
      rcases hsplit.mem_of_plainOf (.inr hd) with ⟨hdmem, hdflag⟩
      have hamong' : slotAmong back d.parameter.slot = true := by simpa using hamong
      rw [List.findSome?_eq_none_iff] at hlead
      exact (Judge.seek_eq_none_iff hdflag (hgreedy d hdmem hdflag) hknown hstops).2
        (Judge.pick_eq_none_iff.1 (hlead d (List.mem_filter.2 ⟨hd, hamong'⟩)))
    have hseek : (plainOf post).findSome? (j.seek · (TypedFlag.allWords (f :: typed) ++ rest)) =
        ((plainOf post).filter fun d => !slotAmong back d.parameter.slot).findSome?
          (j.pick flags (f :: typed) [] rest) := by
      rw [← findSome?_filter hmissed]
      refine findSome?_congr fun d hd => ?_
      rcases hsplit.mem_of_plainOf (.inr (List.mem_filter.1 hd).1) with ⟨hdmem, hdflag⟩
      exact Judge.seek_eq_pick hdflag (hgreedy d hdmem hdflag) (.inr rfl) hknown hstops
    rw [hseek]
    cases Judge.pickEnd end? (f :: typed) rest <;> simp [Option.or_assoc]

end Node

end CommandLanguage
