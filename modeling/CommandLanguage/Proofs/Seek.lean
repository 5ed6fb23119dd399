import CommandLanguage.Proofs.Answer
import CommandLanguage.Proofs.Laying

/-!
# Seeking

What a walk finds where nothing is denied, without the places that it goes through: which usage,
which words for which parameters, and which flags (`Judge.seek`, `Judge.descend_tells`). This
depends on nothing but the bare tree (`Judge.seek_bare`).

A node that is no flag takes the flags in front of it whatever they are, so what it finds behind
them does not depend on them (`Judge.seek_of_known`): it keeps them if it takes the next word, and
drops them if it is passed over.
-/

namespace CommandLanguage

/-! ## Findings -/

/-- What a path that ends at a usage has found. -/
structure Finding where
  usage : NumberedUsage
  values : List (Parameter × String)
  flags : List BoundFlag

/-- A finding with what was bound before it. -/
def Finding.after (values : List (Parameter × String)) (flags : List BoundFlag) (x : Finding) :
    Finding :=
  ⟨x.usage, values ++ x.values, flags ++ x.flags⟩

theorem Finding.after_after (values values' : List (Parameter × String))
    (flags flags' : List BoundFlag) (x : Finding) :
    (x.after values' flags').after values flags =
      x.after (values ++ values') (flags ++ flags') := by
  simp [Finding.after]

/-- What a binding binds to what. -/
def Binding.plain (b : Binding) : Parameter × String := (b.node.parameter, b.value)

/-- Whether a finding is that of a walk. -/
inductive Tells {ε : Type} : Except ε Hit → Option Finding → Prop where
  | hit {h : Hit} {u : NumberedUsage} : h.ending = .complete u →
      Tells (.ok h) (some ⟨u, h.bindings.map Binding.plain, h.flags⟩)
  | miss {e : ε} : Tells (.error e) none

namespace Tells

variable {ε ε' : Type} {found : Except ε Hit} {x : Option Finding}

theorem after (h : Tells found x) (bindings : List Binding) (flags : List BoundFlag) :
    Tells (found.map (Hit.after bindings flags))
      (x.map (Finding.after (bindings.map Binding.plain) flags)) := by
  cases h with
  | @hit h u hending =>
    have htells := Tells.hit (ε := ε) (h := h.after bindings flags) hending
    simpa [Except.map, Finding.after, Hit.after] using htells
  | miss => exact .miss

/-- What is tried after something else is tried only if that misses. -/
theorem orElse {y : Option Finding} {all : Except ε' Hit} (h : Tells found x)
    (hown : ∀ own, found = .ok own → all = .ok own) (hother : ∀ e, found = .error e → Tells all y) :
    Tells all (x <|> y) := by
  cases h with
  | hit hending =>
    rw [hown _ rfl]
    exact .hit hending
  | miss => simpa using hother _ rfl

theorem mapError (h : Tells found x) (f : ε → ε') : Tells (found.mapError f) x := by
  cases h with
  | hit hending => exact .hit hending
  | miss => exact .miss

/-- Walks that find the same tell the same. -/
theorem of_ok_iff {found' : Except ε' Hit} (h : Tells found x)
    (hok : ∀ own, found' = .ok own ↔ found = .ok own) : Tells found' x := by
  cases h with
  | hit hending =>
    rw [(hok _).2 rfl]
    exact .hit hending
  | miss =>
    cases found' with
    | ok own => cases (hok own).1 rfl
    | error e => exact .miss

end Tells

namespace Judge

variable {j : Judge}

/-! ## Seeking -/

/-- Bind a node to words that it takes, without the node. -/
def read (j : Judge) (n : Node) (taken : List BoundFlag) (token : String) (rest : List String) :
    Option (List (Parameter × String) × List BoundFlag × List String) :=
  (j.consume n taken token rest).map fun (bindings, flags, left) =>
    (bindings.map Binding.plain, flags, left)

/-- What is found at a node itself: its usage, if only flags are left. -/
def seekHere (j : Judge) (n : Node) (tokens : List String) : Option Finding :=
  match j.takeFlags false tokens with
  | some (flags, []) => n.resolved?.map fun u => ⟨u, [], flags⟩
  | _ => none

mutual

/-- What is found by trying a node. -/
def seek (j : Judge) : Node → List String → Option Finding
  | node@⟨_, children⟩, tokens =>
    match j.flagsBefore node tokens with
    | some (taken, token :: rest) =>
      (if j.accepts node.parameter token then
        (j.read node taken token rest).bind fun (values, flags, left) =>
          (seekAny j children left <|> j.seekHere node left).map (Finding.after values flags)
      else none) <|>
        if node.isSkippable then seekAny j children (token :: rest) else none
    | _ => none

/-- What is found by trying siblings in turn. -/
def seekAny (j : Judge) : List Node → List String → Option Finding
  | [], _ => none
  | c :: cs, tokens => seek j c tokens <|> seekAny j cs tokens

end

/-- What is found below a node. -/
def seekBelow (j : Judge) (n : Node) (tokens : List String) : Option Finding :=
  j.seekAny n.children tokens <|> j.seekHere n tokens

theorem seek_eq (n : Node) (tokens : List String) :
    j.seek n tokens =
      match j.flagsBefore n tokens with
      | some (taken, token :: rest) =>
        (if j.accepts n.parameter token then
          (j.read n taken token rest).bind fun (values, flags, left) =>
            (j.seekBelow n left).map (Finding.after values flags)
        else none) <|>
          if n.isSkippable then j.seekAny n.children (token :: rest) else none
      | _ => none := by
  rcases n with ⟨data, children⟩
  rw [seek]
  rfl

theorem seekAny_eq (cs : List Node) (tokens : List String) :
    j.seekAny cs tokens = cs.findSome? (j.seek · tokens) := by
  induction cs with
  | nil => rfl
  | cons c cs ih =>
    rw [seekAny, ih, List.findSome?_cons]
    cases j.seek c tokens <;> rfl

/-- Nothing is found where no word is left to take. -/
theorem seekAny_nil (cs : List Node) : j.seekAny cs [] = none := by
  rw [seekAny_eq, List.findSome?_eq_none_iff]
  intro c _
  have hflags : j.flagsBefore c [] = some ([], []) := by simp [flagsBefore, takeFlags]
  rw [seek_eq, hflags]

/-! ## Walks and seeking -/

theorem tells_finish (hpermits : ∀ gate, j.permits gate = true) {p : Place}
    {flags : List BoundFlag} {hit : Hit} (h : j.finish? p = some hit) :
    Tells (Except.ok (hit.after [] flags) : Except Miss Hit)
      (p.node.resolved?.map fun u => ⟨u, [], flags⟩) := by
  unfold finish? at h
  rcases Option.map_eq_some_iff.1 h with ⟨u, hu, rfl⟩
  rw [hu]
  have htells := Tells.hit (ε := Miss)
    (h := Hit.after [] flags ⟨p, .complete u, [], []⟩) (u := u) rfl
  simpa [hpermits, Hit.after] using htells

/-- Siblings tell what each of them tells. -/
theorem explore_tells {cs : List Node}
    (h : ∀ c ∈ cs, ∀ parent tokens, Tells (j.visit parent c tokens) (j.seek c tokens))
    (parent : Place) (tokens : List String) :
    Tells (j.explore parent cs tokens) (j.seekAny cs tokens) := by
  induction cs with
  | nil => exact .miss
  | cons c cs ih =>
    rcases List.forall_mem_cons.1 h with ⟨hc, hcs⟩
    rw [explore, seekAny]
    refine (hc parent tokens).orElse (fun own hown => by rw [hown]) fun miss hmiss => ?_
    rw [hmiss]
    exact (ih hcs).mapError _

theorem close_tells (hpermits : ∀ gate, j.permits gate = true) (p : Place) (tokens : List String)
    (astray : Option Miss) : Tells (j.close p tokens astray) (j.seekHere p.node tokens) := by
  unfold close seekHere
  split
  · rename_i flags htake
    simp only [htake]
    cases hfinish : j.finish? p with
    | some hit => exact tells_finish hpermits hfinish
    | none =>
      have hnone : p.node.resolved? = none := by simpa [finish?] using hfinish
      rw [hnone]
      exact .miss
  · rename_i htake
    simp only [htake]
    exact .miss
  · rename_i htake
    simp only [htake]
    exact .miss

/-- A walk below a place tells what its children and its end tell. -/
theorem descend_tells_of (hpermits : ∀ gate, j.permits gate = true) {p : Place}
    (h : ∀ c ∈ p.node.children, ∀ parent tokens,
      Tells (j.visit parent c tokens) (j.seek c tokens)) (tokens : List String) :
    Tells (j.descend p tokens) (j.seekBelow p.node tokens) := by
  rw [descend, seekBelow]
  refine (explore_tells h p tokens).orElse (fun own hown => by rw [hown]) fun astray hastray => ?_
  rw [hastray]
  exact close_tells hpermits p tokens astray

/-- A node that takes the next word tells what is told below it. -/
theorem enter_tells (hpermits : ∀ gate, j.permits gate = true) {parent : Place} {n : Node}
    (h : ∀ left, Tells (j.descend (parent.child n) left) (j.seekBelow n left))
    (taken : List BoundFlag) (token : String) (rest : List String) :
    Tells (j.enter parent n taken token rest)
      (if j.accepts n.parameter token then
        (j.read n taken token rest).bind fun (values, flags, left) =>
          (j.seekBelow n left).map (Finding.after values flags)
      else none) := by
  unfold enter read
  cases haccepts : j.accepts n.parameter token with
  | false => simpa [haccepts] using .miss
  | true =>
    cases hconsume : j.consume n taken token rest with
    | none => simpa [haccepts, hpermits] using .miss
    | some found =>
      rcases found with ⟨bindings, flags, left⟩
      have honward : Tells
          (if left.isEmpty then j.arrive parent (parent.child n)
            else j.descend (parent.child n) left)
          (j.seekBelow n left) := (h left).of_ok_iff fun _ => onward_eq_ok_iff
      simpa [haccepts, hpermits] using honward.after bindings flags

/-- Where nothing is denied, trying a node finds what seeking does. -/
theorem visit_tells (hpermits : ∀ gate, j.permits gate = true) (n : Node) (parent : Place)
    (tokens : List String) : Tells (j.visit parent n tokens) (j.seek n tokens) := by
  induction n using Node.induction generalizing parent tokens with
  | step n ih =>
    rw [visit_eq, seek_eq]
    split
    · rename_i hflags
      simpa [hflags] using .miss
    · rename_i hflags
      simpa [hflags] using .miss
    · rename_i taken token rest hflags
      simp only [hflags]
      have hbelow : ∀ left, Tells (j.descend (parent.child n) left) (j.seekBelow n left) :=
        descend_tells_of (p := parent.child n) hpermits ih
      refine (enter_tells hpermits hbelow taken token rest).orElse (fun own hown => by rw [hown])
        fun miss hmiss => ?_
      rw [hmiss]
      cases n.isSkippable with
      | false => exact .miss
      | true => exact (explore_tells ih (parent.child n) (token :: rest)).mapError _

/-- **Walks and seeking.** Where nothing is denied, a walk finds what seeking does. -/
theorem descend_tells (hpermits : ∀ gate, j.permits gate = true) (p : Place)
    (tokens : List String) : Tells (j.descend p tokens) (j.seekBelow p.node tokens) :=
  descend_tells_of hpermits (fun c _ => visit_tells hpermits c) tokens

/-! ## Bare trees -/

theorem flagsBefore_bare (n : Node) (tokens : List String) :
    j.flagsBefore n.bare tokens = j.flagsBefore n tokens := by
  simp [flagsBefore]

theorem read_bare (n : Node) (taken : List BoundFlag) (token : String) (rest : List String) :
    j.read n.bare taken token rest = j.read n taken token rest := by
  simp only [read, consume, Node.isFlag_bare, Node.isGreedy_bare, Node.parameter_bare]
  split
  · rfl
  · split <;> simp [Binding.plain]

/-- What is found depends on nothing but the bare tree. -/
theorem seek_bare (n : Node) (tokens : List String) : j.seek n.bare tokens = j.seek n tokens := by
  induction n using Node.induction generalizing tokens with
  | step n ih =>
    have hany : ∀ tokens, j.seekAny n.bare.children tokens = j.seekAny n.children tokens := by
      intro tokens
      rw [Node.children_bare]
      have hall : ∀ cs ⊆ n.children, j.seekAny (cs.map Node.bare) tokens = j.seekAny cs tokens := by
        intro cs hcs
        induction cs with
        | nil => rfl
        | cons c cs ihcs =>
          rw [List.map_cons, seekAny, seekAny, ih c (hcs List.mem_cons_self),
            ihcs fun d hd => hcs (List.mem_cons_of_mem _ hd)]
      exact hall n.children fun _ hc => hc
    have hbelow : ∀ tokens, j.seekBelow n.bare tokens = j.seekBelow n tokens := by
      intro tokens
      rw [seekBelow, seekBelow, hany, seekHere, seekHere, Node.resolved?_bare]
    rw [seek_eq, seek_eq, flagsBefore_bare]
    simp only [read_bare, hany, hbelow, Node.parameter_bare, Node.isSkippable_bare]

theorem seekBelow_bare (n : Node) (tokens : List String) :
    j.seekBelow n.bare tokens = j.seekBelow n tokens := by
  rw [seekBelow, seekBelow, seekAny_eq, seekAny_eq, Node.children_bare, List.findSome?_map,
    seekHere, seekHere, Node.resolved?_bare]
  simp only [Function.comp_def, seek_bare]

/-! ## Behind flags -/

/-- What is found if a node takes the next word. -/
def seekTaking (j : Judge) (c : Node) : List String → Option Finding
  | [] => none
  | token :: rest =>
    if j.accepts c.parameter token then
      (j.seekBelow c rest).map (Finding.after [(c.parameter, token)] [])
    else none

/-- What is found if a node is passed over. -/
def seekPassing (j : Judge) (c : Node) (tokens : List String) : Option Finding :=
  if c.isSkippable then j.seekAny c.children tokens else none

variable {c n : Node} {typed : List TypedFlag} {rest : List String}

/-- What a node finds behind flags does not depend on them: it keeps them if it takes the next word,
and drops them if it is passed over. -/
theorem seek_of_known (hflag : c.isFlag = false) (hgreedy : c.isGreedy = false)
    (hknown : ∀ f ∈ typed, j.Knows f) (hstops : j.StopsAt false rest) :
    j.seek c (TypedFlag.allWords typed ++ rest) =
      ((j.seekTaking c rest).map (Finding.after [] (typed.map (·.bound))) <|>
        j.seekPassing c rest) := by
  have hflags : j.flagsBefore c (TypedFlag.allWords typed ++ rest) =
      some (typed.map (·.bound), rest) := by
    rw [flagsBefore, hflag, hgreedy]
    exact takeFlags_complete hknown hstops
  rw [seek_eq, hflags]
  cases rest with
  | nil => simp [seekTaking, seekPassing, seekAny_nil]
  | cons token rest =>
    simp only [seekTaking, seekPassing, read, consume, hflag, hgreedy, Bool.false_eq_true, if_false,
      Option.map_some, Option.bind_some, List.map_cons, List.map_nil, Binding.plain]
    cases j.accepts c.parameter token with
    | false => rfl
    | true =>
      simp only [if_true, Option.map_map]
      congr 2

/-- A node finds nothing behind a malformed flag. -/
theorem seek_of_malformed (hflag : c.isFlag = false) (hgreedy : c.isGreedy = false)
    {tokens : List String} (htake : j.takeFlags false tokens = none) : j.seek c tokens = none := by
  have hflags : j.flagsBefore c tokens = none := by
    rw [flagsBefore, hflag, hgreedy]
    exact htake
  rw [seek_eq, hflags]

theorem seekHere_of_known (hknown : ∀ f ∈ typed, j.Knows f) (hstops : j.StopsAt false rest) :
    j.seekHere n (TypedFlag.allWords typed ++ rest) =
      if rest = [] then n.resolved?.map fun u => ⟨u, [], typed.map (·.bound)⟩ else none := by
  rw [seekHere, takeFlags_complete hknown hstops]
  cases rest <;> simp

/-! ## Flags -/

/-- Whether a table knows the flags of a run by their names, and no others. -/
def NamesFlags (j : Judge) (flags : List Parameter) : Prop :=
  ∀ token f, j.flags.lookup token = some f ↔ f ∈ flags ∧ (flagAlias? token).any f.answersTo = true

variable {flags : List Parameter} {f : TypedFlag} {tokens : List String}

theorem accepts_flag_iff (hflag : c.isFlag = true) {token : String} :
    j.accepts c.parameter token = true ↔ (flagAlias? token).any c.parameter.answersTo = true := by
  have hkind : c.parameter.isFlag = true := hflag
  unfold Parameter.isFlag at hkind
  unfold accepts
  split at hkind
  · rename_i hk
    rw [hk]
  · cases hkind

/-- A flag node takes no word that is no flag. -/
theorem seek_flag_of_stopsAt (hflag : c.isFlag = true) (hread : j.NamesFlags flags)
    (hmem : c.parameter ∈ flags) (hstops : j.StopsAt false rest) : j.seek c rest = none := by
  have hflags : j.flagsBefore c rest = some ([], rest) := by rw [flagsBefore, hflag]; rfl
  rw [seek_eq, hflags]
  cases rest with
  | nil => rfl
  | cons token rest =>
    have hskip : c.isSkippable = false := by simp [Node.isSkippable, hflag]
    have hrejects : j.accepts c.parameter token = false := by
      rw [Bool.eq_false_iff]
      intro haccepts
      have hlookup := (hread token c.parameter).2 ⟨hmem, (accepts_flag_iff hflag).1 haccepts⟩
      have hstop := stopsAt_cons.1 hstops (isFlagToken_of_lookup hlookup)
      exact absurd hstop.1 Bool.false_ne_true
    simp [hrejects, hskip]

/-- A flag node takes a typed flag if it is its own. -/
theorem seek_flag (hflag : c.isFlag = true) (hread : j.NamesFlags flags)
    (hmem : c.parameter ∈ flags) (hf : j.Knows f) (tokens : List String) :
    j.seek c (f.words ++ tokens) =
      if c.parameter = f.bound.flag then
        (j.seekBelow c tokens).map (Finding.after [] [f.bound])
      else none := by
  have hflags : j.flagsBefore c (f.words ++ tokens) = some ([], f.words ++ tokens) := by
    rw [flagsBefore, hflag]
    rfl
  have hskip : c.isSkippable = false := by simp [Node.isSkippable, hflag]
  rw [seek_eq, hflags]
  simp only [TypedFlag.words, List.cons_append, hskip, Bool.false_eq_true, if_false]
  by_cases hown : c.parameter = f.bound.flag
  · have haccepts : j.accepts c.parameter f.token = true := by
      refine (accepts_flag_iff hflag).2 ?_
      rw [hown]
      exact ((hread f.token f.bound.flag).1 hf.lookup).2
    have hbind := bindFlag_of_binds hf.binds tokens
    rw [haccepts, if_pos rfl, read, consume, hflag, if_pos rfl, if_pos hown, hown, hbind]
    simp
  · have hrejects : j.accepts c.parameter f.token = false := by
      rw [Bool.eq_false_iff]
      intro haccepts
      have hlookup := (hread f.token c.parameter).2 ⟨hmem, (accepts_flag_iff hflag).1 haccepts⟩
      rw [hf.lookup] at hlookup
      exact hown (Option.some.inj hlookup).symm
    simp [hown, hrejects]

end Judge

end CommandLanguage
