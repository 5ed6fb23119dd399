import CommandLanguage.Proofs.FirstWord
import Mathlib.Data.List.Shortlex

/-!
# The nearest usage

Where words lead astray, the answer names the usage that is nearest to the place. Below a place there is
an address for every node: which child to go to, at each step. The nearest usage is the one at the
least address, where shorter addresses come first, and of those of one length the one further left.

* A tree by its levels lists addresses in that order (`Place.exists_least_of_byDepth`).
* So does a queue: it holds what is left of one level and what has been reached of the next, and going
  on with it goes through the levels (`Node.firstInQueue_eq`).

`CommandTree.closest_nearest` says of every answer that words were not understood which usage it names.
-/

namespace CommandLanguage

/-! ## First answers -/

section

variable {α β γ : Type} {f : β → Option γ} {answer : γ}

theorem findSome?_flatMap (g : α → List β) (xs : List α) :
    (xs.flatMap g).findSome? f = xs.findSome? fun x => (g x).findSome? f := by
  induction xs with
  | nil => rfl
  | cons x xs ih =>
    rw [List.flatMap_cons, List.findSome?_append, List.findSome?_cons, ih]
    cases (g x).findSome? f <;> rfl

/-- The first answer of lists, one behind the other, is that of the first list that has one. -/
theorem exists_of_findSome?_flatten {xss : List (List β)}
    (h : xss.flatten.findSome? f = some answer) :
    ∃ k : Nat, (xss[k]?.getD []).findSome? f = some answer ∧
      ∀ j < k, (xss[j]?.getD []).findSome? f = none := by
  induction xss with
  | nil => cases h
  | cons xs xss ih =>
    rw [List.flatten_cons, List.findSome?_append] at h
    cases hfirst : xs.findSome? f with
    | some found =>
      rw [hfirst] at h
      exact ⟨0, by simpa [hfirst] using h, by simp⟩
    | none =>
      rw [hfirst] at h
      rcases ih h with ⟨k, hk, hbefore⟩
      refine ⟨k + 1, hk, fun j hj => ?_⟩
      cases j with
      | zero => exact hfirst
      | succ j => exact hbefore j (Nat.lt_of_succ_lt_succ hj)

end

/-! ## Levels -/

namespace Node

/-- The nodes at a depth below a node, in sibling order. -/
def level : Nat → Node → List Node
  | 0, n => [n]
  | k + 1, n => n.children.flatMap (level k)

@[simp] theorem joinLevels_nil {α : Type} (xss : List (List α)) : joinLevels xss [] = xss := by
  cases xss <;> rfl

theorem getD_joinLevels {α : Type} (xss yss : List (List α)) (k : Nat) :
    (joinLevels xss yss)[k]?.getD [] = xss[k]?.getD [] ++ yss[k]?.getD [] := by
  induction xss, yss using joinLevels.induct generalizing k with
  | case1 yss => simp [joinLevels]
  | case2 xss hne => simp
  | case3 xs xss ys yss ih =>
    rw [joinLevels]
    cases k with
    | zero => rfl
    | succ k => exact ih k

theorem joinLevels_assoc {α : Type} (xss yss zss : List (List α)) :
    joinLevels (joinLevels xss yss) zss = joinLevels xss (joinLevels yss zss) := by
  induction xss, yss using joinLevels.induct generalizing zss with
  | case1 yss => rfl
  | case2 xss hne => simp [joinLevels]
  | case3 xs xss ys yss ih =>
    cases zss with
    | nil => simp
    | cons zs zss => simp [joinLevels, ih]

theorem levels_eq (n : Node) : n.levels = [n] :: levels.levelsBelow n.children := by
  rcases n with ⟨data, children⟩
  rw [levels]

theorem levelsBelow_append (cs ds : List Node) :
    levels.levelsBelow (cs ++ ds) = joinLevels (levels.levelsBelow cs) (levels.levelsBelow ds) := by
  induction cs with
  | nil => rfl
  | cons c cs ih =>
    rw [List.cons_append, levels.levelsBelow, levels.levelsBelow, ih, joinLevels_assoc]

/-- The first level below a place is that of its children, and those below it are those below them. -/
theorem flatten_levelsBelow (cs : List Node) :
    (levels.levelsBelow cs).flatten =
      cs ++ (levels.levelsBelow (cs.flatMap fun c => c.children)).flatten := by
  have hcons : ∀ c cs, levels.levelsBelow (c :: cs) =
      (c :: cs) :: levels.levelsBelow ((c :: cs).flatMap fun c => c.children) := by
    intro c cs
    induction cs generalizing c with
    | nil => simp [levels.levelsBelow, levels_eq]
    | cons d cs ih =>
      rw [levels.levelsBelow, ih d, levels_eq, joinLevels, ← levelsBelow_append]
      rfl
  cases cs with
  | nil => rfl
  | cons c cs => rw [hcons, List.flatten_cons]

theorem getD_levels (n : Node) (k : Nat) : n.levels[k]?.getD [] = level k n := by
  induction n using Node.induction generalizing k with
  | step n ih =>
    rw [levels_eq]
    cases k with
    | zero => rfl
    | succ k =>
      rw [List.getElem?_cons_succ, level]
      generalize n.children = cs at ih
      induction cs with
      | nil => rfl
      | cons c cs ihcs =>
        rcases List.forall_mem_cons.1 ih with ⟨hc, hcs⟩
        rw [levels.levelsBelow, getD_joinLevels, hc, ihcs hcs, List.flatMap_cons]

/-! ### The queue -/

variable {α : Type}

/-- A queue that holds what is left of one level and what has been reached of the next goes through both
and the levels below. -/
theorem firstInQueue_eq (ask : Node → Option α) (front back : List Node) :
    firstInQueue ask (front ++ back) =
      (front ++ (levels.levelsBelow (back ++ front.flatMap fun c => c.children)).flatten).findSome?
        ask := by
  generalize hqueue : front ++ back = queue
  -- What is asked next is the front of `front`, or of `back` if nothing is left of the first level.
  fun_induction firstInQueue ask queue generalizing front back with
  | case1 =>
    rcases List.append_eq_nil_iff.1 hqueue with ⟨rfl, rfl⟩
    rfl
  | case2 n queue answer hanswer =>
    have hn : ∀ cs, (n :: cs).findSome? ask = some answer := by
      intro cs
      rw [List.findSome?_cons, hanswer]
    cases front with
    | nil =>
      obtain rfl : back = n :: queue := hqueue
      rw [flatten_levelsBelow]
      exact (hn _).symm
    | cons m front =>
      obtain ⟨rfl, -⟩ := List.cons.inj hqueue
      exact (hn _).symm
  | case3 n queue hanswer ih =>
    have hn : ∀ cs, (n :: cs).findSome? ask = cs.findSome? ask := by
      intro cs
      rw [List.findSome?_cons, hanswer]
    cases front with
    | nil =>
      obtain rfl : back = n :: queue := hqueue
      rw [ih queue n.children rfl, List.nil_append, List.flatMap_nil, List.append_nil,
        flatten_levelsBelow (n :: queue), List.cons_append, hn]
      rfl
    | cons m front =>
      obtain ⟨rfl, rfl⟩ := List.cons.inj hqueue
      rw [ih front (back ++ m.children) (by simp), List.cons_append, hn, List.flatMap_cons,
        List.append_assoc]

/-- The queue finds what is first by depth. -/
theorem firstInQueue_singleton (ask : Node → Option α) (n : Node) :
    firstInQueue ask [n] = n.byDepth.findSome? ask := by
  have h := firstInQueue_eq ask [n] []
  rw [byDepth, levels_eq]
  simpa using h

end Node

/-! ## Addresses -/

namespace Place

variable {p q : Place} {a b : List Nat} {k : Nat} {γ : Type} {ask : Node → Option γ} {answer : γ}

/-- The place at an address below a place, which tells the child to go to at each step. -/
def at? (p : Place) : List Nat → Option Place
  | [] => some p
  | i :: address => p.node.children[i]?.bind fun c => (p.child c).at? address

theorem at?_cons_eq_some {i : Nat} (h : p.at? (i :: a) = some q) :
    ∃ c, p.node.children[i]? = some c ∧ (p.child c).at? a = some q :=
  Option.bind_eq_some_iff.1 h

/-- Addresses lead to the nodes at the depth that is their length. -/
theorem mem_level_of_at? (h : p.at? a = some q) : q.node ∈ Node.level a.length p.node := by
  induction a generalizing p with
  | nil =>
    obtain rfl := Option.some.inj h
    exact List.mem_singleton_self _
  | cons i a ih =>
    rcases at?_cons_eq_some h with ⟨c, hc, hbelow⟩
    exact List.mem_flatMap.2 ⟨c, List.mem_of_getElem? hc, ih hbelow⟩

theorem ask_eq_none_of_level (h : (Node.level a.length p.node).findSome? ask = none)
    (hat : p.at? a = some q) : ask q.node = none :=
  List.findSome?_eq_none_iff.1 h _ (mem_level_of_at? hat)

/-- The first node of a level that has an answer is at the leftmost address of that length. -/
theorem exists_least_of_level (h : (Node.level k p.node).findSome? ask = some answer) :
    ∃ a q, a.length = k ∧ p.at? a = some q ∧ ask q.node = some answer ∧
      ∀ b r, b.length = k → p.at? b = some r → ask r.node ≠ none →
        b = a ∨ List.Lex (· < ·) a b := by
  induction k generalizing p with
  | zero =>
    refine ⟨[], p, rfl, rfl, by simpa [Node.level] using h, ?_⟩
    intro b r hlength _ _
    exact .inl (List.length_eq_zero_iff.1 hlength)
  | succ k ih =>
    rw [Node.level, findSome?_flatMap] at h
    rcases List.findSome?_eq_some_iff.1 h with ⟨left, c, right, hchildren, hc, hleft⟩
    rcases ih (p := p.child c) hc with ⟨a, q, rfl, hat, hask, hleast⟩
    refine ⟨left.length :: a, q, rfl, ?_, hask, ?_⟩
    · simp [at?, hchildren, hat]
    · intro b r hlength hb hr
      cases b with
      | nil => cases hlength
      | cons i b =>
        have hshort : b.length = a.length := Nat.succ.inj hlength
        rcases at?_cons_eq_some hb with ⟨d, hd, hbelow⟩
        rw [hchildren] at hd
        rcases Nat.lt_trichotomy i left.length with hlt | rfl | hgt
        · -- Further left there is no answer in the level.
          rw [List.getElem?_append_left hlt] at hd
          have hnone := hleft d (List.mem_of_getElem? hd)
          rw [← hshort] at hnone
          exact absurd (ask_eq_none_of_level (p := p.child d) hnone hbelow) hr
        · obtain rfl : c = d := by simpa using hd
          rcases hleast b r hshort hbelow hr with rfl | hlex
          · exact .inl rfl
          · exact .inr (.cons hlex)
        · exact .inr (.rel hgt)

/-- The first node by depth that has an answer is at the least address of one. -/
theorem exists_least_of_byDepth (h : p.node.byDepth.findSome? ask = some answer) :
    ∃ a q, p.at? a = some q ∧ ask q.node = some answer ∧
      ∀ b r, p.at? b = some r → ask r.node ≠ none → b = a ∨ List.Shortlex (· < ·) a b := by
  rcases exists_of_findSome?_flatten h with ⟨k, hk, hbefore⟩
  rw [Node.getD_levels] at hk
  rcases exists_least_of_level hk with ⟨a, q, rfl, hat, hask, hleast⟩
  refine ⟨a, q, hat, hask, fun b r hb hr => ?_⟩
  rcases Nat.lt_trichotomy b.length a.length with hlt | heq | hgt
  · have hnone := hbefore b.length hlt
    rw [Node.getD_levels] at hnone
    exact absurd (ask_eq_none_of_level hnone hb) hr
  · exact (hleast b r heq hb hr).imp_right (.of_lex heq.symm)
  · exact .inr (.of_length_lt hgt)

/-- Where no node has an answer by depth, none has at any address. -/
theorem ask_eq_none_of_byDepth (h : p.node.byDepth.findSome? ask = none) (hat : p.at? a = some q) :
    ask q.node = none := by
  have hlevel : ∀ n ∈ Node.level a.length p.node, ask n = none := by
    intro n hn
    rw [← Node.getD_levels] at hn
    refine List.findSome?_eq_none_iff.1 h n ?_
    cases hlevels : p.node.levels[a.length]? with
    | none => simp [hlevels] at hn
    | some ns =>
      rw [hlevels] at hn
      exact List.mem_flatten.2 ⟨ns, List.mem_of_getElem? hlevels, hn⟩
  exact hlevel _ (mem_level_of_at? hat)

/-! ## The nearest usage -/

/-- Whether a usage ends in an argument or flag at an address below a place. -/
def EndsAt (p : Place) (address : List Nat) (u : NumberedUsage) : Prop :=
  ∃ q, p.at? address = some q ∧ q.node.isLiteral = false ∧ q.node.terminal = some u

/-- Whether a usage is the nearest below a place of those that end in an argument or flag. -/
def NearestBelow (p : Place) (u : NumberedUsage) : Prop :=
  ∃ a, p.EndsAt a u ∧ ∀ b v, p.EndsAt b v → b = a ∨ List.Shortlex (· < ·) a b

end Place

/-- Whether a usage is that of a literal: its terminal, or else its fallback. -/
def Node.Provides (n : Node) (u : NumberedUsage) : Prop :=
  n.isLiteral = true ∧ (n.terminal <|> n.fallback) = some u

namespace Place

variable {p : Place} {u : NumberedUsage}

/-- Whether a usage is that of the first literal that has one on the way from a place up to the root. -/
def FirstAbove (p : Place) (u : NumberedUsage) : Prop :=
  ∃ nearer n further, p.lineage = nearer ++ n :: further ∧ n.Provides u ∧
    ∀ m ∈ nearer, ∀ v, ¬ m.Provides v

/-- The usage of a node that is an argument or a flag. -/
def ending? (n : Node) : Option NumberedUsage :=
  if n.isLiteral then none else n.terminal

/-- The usage of a node that is a literal. -/
def provided? (n : Node) : Option NumberedUsage :=
  if n.isLiteral then n.terminal <|> n.fallback else none

theorem ending?_eq_some {n : Node} :
    ending? n = some u ↔ n.isLiteral = false ∧ n.terminal = some u := by
  unfold ending?
  cases n.isLiteral <;> simp

theorem provided?_eq_some {n : Node} : provided? n = some u ↔ n.Provides u := by
  unfold provided? Node.Provides
  cases n.isLiteral <;> simp

theorem closestUsage_eq (p : Place) :
    p.closestUsage = (p.node.byDepth.findSome? ending? <|> p.lineage.findSome? provided?) := rfl

/-- The queue names the same usage as the levels do. -/
theorem closestInQueue_eq (p : Place) : p.closestInQueue = p.closestUsage := by
  rw [closestInQueue, Node.firstInQueue_singleton]
  rfl

theorem endsAt_iff {a : List Nat} :
    p.EndsAt a u ↔ ∃ q, p.at? a = some q ∧ ending? q.node = some u := by
  simp only [EndsAt, ending?_eq_some]

theorem byDepth_eq_none_iff :
    p.node.byDepth.findSome? ending? = none ↔ ∀ a v, ¬ p.EndsAt a v := by
  constructor
  · intro h a v hends
    rcases endsAt_iff.1 hends with ⟨q, hat, hask⟩
    rw [ask_eq_none_of_byDepth h hat] at hask
    cases hask
  · intro h
    cases hfound : p.node.byDepth.findSome? ending? with
    | none => rfl
    | some v =>
      rcases exists_least_of_byDepth hfound with ⟨a, q, hat, hask, -⟩
      exact absurd (endsAt_iff.2 ⟨q, hat, hask⟩) (h a v)

/-- What comes first by depth is the nearest. -/
theorem nearestBelow_of_byDepth (h : p.node.byDepth.findSome? ending? = some u) :
    p.NearestBelow u := by
  rcases exists_least_of_byDepth h with ⟨a, q, hat, hask, hleast⟩
  refine ⟨a, endsAt_iff.2 ⟨q, hat, hask⟩, fun b v hends => ?_⟩
  rcases endsAt_iff.1 hends with ⟨r, hb, hr⟩
  exact hleast b r hb (by simp [hr])

/-- There is one nearest usage at most. -/
theorem NearestBelow.unique {v : NumberedUsage} (hu : p.NearestBelow u) (hv : p.NearestBelow v) :
    u = v := by
  rcases hu with ⟨a, hends, hleast⟩
  rcases hv with ⟨b, hends', hleast'⟩
  have heq : b = a := by
    rcases hleast b v hends' with heq | hab
    · exact heq
    · rcases hleast' a u hends with heq | hba
      · exact heq.symm
      · exact absurd hba (Std.Asymm.asymm _ _ hab)
  subst heq
  rcases hends with ⟨q, hat, -, hterminal⟩
  rcases hends' with ⟨r, hat', -, hterminal'⟩
  rw [← Option.some.inj (hat.symm.trans hat')] at hterminal'
  exact Option.some.inj (hterminal.symm.trans hterminal')

theorem byDepth_eq_some_iff : p.node.byDepth.findSome? ending? = some u ↔ p.NearestBelow u := by
  constructor
  · exact nearestBelow_of_byDepth
  · intro h
    cases hfound : p.node.byDepth.findSome? ending? with
    | none =>
      rcases h with ⟨a, hends, -⟩
      exact absurd hends (byDepth_eq_none_iff.1 hfound a u)
    | some v => rw [(nearestBelow_of_byDepth hfound).unique h]

theorem lineage_eq_some_iff : p.lineage.findSome? provided? = some u ↔ p.FirstAbove u := by
  simp only [List.findSome?_eq_some_iff, FirstAbove, provided?_eq_some, Option.eq_none_iff_forall_ne_some, Ne]

theorem lineage_eq_none_iff :
    p.lineage.findSome? provided? = none ↔ ∀ n ∈ p.lineage, ∀ v, ¬ n.Provides v := by
  rw [List.findSome?_eq_none_iff]
  simp only [Option.eq_none_iff_forall_ne_some, Ne, provided?_eq_some]

end Place

/-! ## Answers -/

/-- A way astray ends at a place of the tree. -/
theorem Judge.Way.last_mem {j : Judge} {root : Node} {p : Place} {tokens : List String} {m : Miss}
    (h : j.Way p tokens m) (hp : p ∈ root.places) : m.last ∈ root.places := by
  induction h with
  | leaf => exact hp
  | rejected hc hattempt =>
    rw [Judge.last_mark]
    rcases Judge.last_of_rejected hattempt with hlast | hlast
    · rwa [hlast]
    · rw [hlast]
      exact Node.child_mem_placesFrom hp hc
  | onward hc _ _ ih =>
    rw [Judge.last_mark]
    exact ih (Node.child_mem_placesFrom hp hc)

namespace CommandTree

variable {Source : Type} {t : CommandTree} {caps : Capabilities Source} {source : Source}
  {tokens : List String}

/-- Words that were not understood have led a walk astray at a place of the tree. -/
theorem exists_miss (h : (t.dispatch caps source tokens).status = .unknown ∨
      (t.dispatch caps source tokens).status = .failure) :
    ∃ miss, t.dispatch caps source tokens = .ofWalk (.error miss) ∧ miss.last ∈ t.root.places := by
  cases hroot : caps.permits source t.root.permission with
  | false =>
    have hpause : (t.dispatch caps source tokens).status = .pause := by
      have hjudge : (t.judge caps source).permits t.root.permission = false := hroot
      simp [dispatch, hjudge]
    rw [hpause] at h
    rcases h with h | h <;> cases h
  | true =>
    rw [dispatch_eq_walk t caps source tokens hroot, walk] at h ⊢
    cases hdescend : (t.judge caps source).descend (.root t.root) tokens with
    | error miss =>
      refine ⟨miss, rfl, ?_⟩
      rcases (Judge.descend_merges hdescend).attained with ⟨way, hway, hlast⟩
      rw [← hlast]
      exact hway.last_mem (Node.root_mem_places t.root)
    | ok hit =>
      -- What a walk finds is an answer of another kind.
      rw [hdescend] at h
      rcases hit with ⟨last, ending, bindings, flags⟩
      cases ending <;> rcases h with h | h <;> cases h

/-- **The nearest usage.** Where words were not understood, the answer is about a place of the tree. If
some usage ends in an argument or flag at or below the place, the answer names the nearest of these:
least deep, and of those as deep the leftmost. Otherwise it names that of the first literal that has
one on the way up to the root, and none only if there is none either. A queue finds the same. -/
theorem closest_nearest (h : (t.dispatch caps source tokens).status = .unknown ∨
      (t.dispatch caps source tokens).status = .failure) :
    let s := t.dispatch caps source tokens
    s.last ∈ t.root.places ∧
      (∀ u, s.closest = some u ↔
        s.last.NearestBelow u ∨ (∀ a v, ¬ s.last.EndsAt a v) ∧ s.last.FirstAbove u) ∧
      (s.closest = none ↔
        (∀ a v, ¬ s.last.EndsAt a v) ∧ ∀ n ∈ s.last.lineage, ∀ v, ¬ n.Provides v) ∧
      s.closest = s.last.closestInQueue := by
  intro s
  obtain ⟨miss, hdispatch, hplace⟩ := exists_miss h
  have hlast : s.last = miss.last := by rw [show s = _ from hdispatch]; rfl
  have hclosest : s.closest = s.last.closestUsage := by rw [hlast, show s = _ from hdispatch]; rfl
  rw [← hlast] at hplace
  refine ⟨hplace, fun u => ?_, ?_, by rw [hclosest, Place.closestInQueue_eq]⟩
  · rw [hclosest, Place.closestUsage_eq, ← Place.byDepth_eq_some_iff, ← Place.byDepth_eq_none_iff,
      ← Place.lineage_eq_some_iff]
    cases s.last.node.byDepth.findSome? Place.ending? <;> simp
  · rw [hclosest, Place.closestUsage_eq, ← Place.byDepth_eq_none_iff, ← Place.lineage_eq_none_iff]
    cases s.last.node.byDepth.findSome? Place.ending? <;> simp

/-- Of two usages that end as deep, the answer to words that could become either names the one whose
literal stands to the left. -/
theorem closest_nearest_give :
    ∃ t, ofUsages "kit" [
        ⟨"one", [.literal "give" [], .required "kit" .string, .required "count" .string],
          none, none, false⟩,
        ⟨"draw", [.literal "give" [], .literal "random" [], .required "seed" .string],
          none, none, false⟩] = .ok t ∧
      let s := t.dispatch .builtin () ["give", "pvp"]
      s.status = .unknown ∧
        ∃ u, s.closest = some u ∧ u.usage.handler = "draw" ∧ s.last.NearestBelow u := by
  refine ⟨_, rfl, ?_⟩
  intro s
  have hstatus : s.status = .unknown := by decide
  refine ⟨hstatus, _, rfl, rfl, ?_⟩
  rcases ((closest_nearest (.inl hstatus)).2.1 _).1 rfl with hnearest | ⟨hnone, -⟩
  · exact hnearest
  · -- A usage ends in the first child of the first child.
    exact (hnone [0, 0] _ ⟨_, rfl, rfl, rfl⟩).elim

end CommandTree

end CommandLanguage
