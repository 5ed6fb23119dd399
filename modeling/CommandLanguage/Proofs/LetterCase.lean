import Mathlib.Data.List.Forall2
import CommandLanguage.Proofs.Answer
import CommandLanguage.Proofs.AsciiLetters
import CommandLanguage.Proofs.FlagNames

/-!
# Letter case

Words are compared, and flags are looked up, without regard to the case of ASCII letters. Each
reader of words is followed through the change of a word to small letters: numerals, types, names of
parameters, the marks of a flag, the table. Then so is each function of a walk, which finds in
folded words what it finds in the words themselves, with folded values (`Judge.descend_foldCase`),
wherever what fits does not depend on case (`Judge.IgnoresCase`).

* `CommandTree.dispatch_alikeButCase`: with the built-in types, words that differ only in letter
  case have answers that differ only in the letter case of values.
-/

namespace CommandLanguage

namespace Text

/-! ## Characters -/

theorem isAlphabetic_lowerAscii (c : Char) : isAlphabetic (lowerAscii c) = isAlphabetic c :=
  apply_lowerAscii isAlphabetic (by decide +kernel) c

theorem isDigit_lowerAscii (c : Char) : isDigit (lowerAscii c) = isDigit c :=
  apply_lowerAscii isDigit (by decide +kernel) c

theorem lowerAscii_of_isDigit {c : Char} (h : isDigit c = true) : lowerAscii c = c := by
  unfold lowerAscii
  split
  · rename_i hcapital
    have hlow : 65 ≤ c.toNat := hcapital.1
    have hhigh : c.toNat ≤ 57 := (by simpa [isDigit] using h : '0' ≤ c ∧ c ≤ '9').2
    omega
  · rfl

/-! ## Texts -/

/-- Joining words and folding them may be done in any order. -/
theorem foldCase_intercalate (ws : List String) :
    foldCase (" ".intercalate ws) = " ".intercalate (ws.map foldCase) := by
  have hblank : foldCase " " = " " := by decide
  induction ws with
  | nil => rfl
  | cons w ws ih =>
    cases ws with
    | nil => simp
    | cons w' ws =>
      rw [List.map_cons, List.map_cons, String.intercalate_cons_cons, String.intercalate_cons_cons,
        foldCase_append, foldCase_append, hblank, ih, List.map_cons]

/-! ## Numerals -/

theorem map_lowerAscii_of_digits {cs : List Char} (h : cs.all isDigit = true) :
    cs.map lowerAscii = cs := by
  have hsame : ∀ c ∈ cs, lowerAscii c = id c :=
    fun c hc => lowerAscii_of_isDigit (List.all_eq_true.1 h c hc)
  rw [List.map_congr_left hsame, List.map_id]

theorem takeSign_map_lowerAscii (cs : List Char) :
    takeSign (cs.map lowerAscii) = ((takeSign cs).1, (takeSign cs).2.map lowerAscii) := by
  have hminus : ∀ c, lowerAscii c = '-' ↔ c = '-' := fun c => lowerAscii_eq_iff (by decide +kernel)
  have hplus : ∀ c, lowerAscii c = '+' ↔ c = '+' := fun c => lowerAscii_eq_iff (by decide +kernel)
  cases cs with
  | nil => rfl
  | cons c cs =>
    by_cases hc : c = '-'
    · subst hc
      rfl
    · by_cases hc' : c = '+'
      · subst hc'
        rfl
      · have hsign : ∀ (d : Char) (ds : List Char), d ≠ '-' → d ≠ '+' →
            takeSign (d :: ds) = (false, d :: ds) := by
          intro d ds hd hd'
          unfold takeSign
          split <;> simp_all
        rw [List.map_cons, hsign _ _ (by simpa [hminus] using hc) (by simpa [hplus] using hc'),
          hsign _ _ hc hc', List.map_cons]

theorem readInt?_map_lowerAscii (cs : List Char) : readInt? (cs.map lowerAscii) = readInt? cs := by
  have hall : (takeSign cs).2.all (isDigit ∘ lowerAscii) = (takeSign cs).2.all isDigit := by
    simp only [Function.comp_def, isDigit_lowerAscii]
  unfold readInt?
  simp only [takeSign_map_lowerAscii, List.isEmpty_map, List.all_map, hall]
  split
  · rename_i hdigits
    rw [map_lowerAscii_of_digits (by simpa using (Bool.and_eq_true_iff.1 hdigits).2)]
  · rfl

theorem readExponent?_map_lowerAscii (cs : List Char) :
    readExponent? (cs.map lowerAscii) = readExponent? cs := by
  cases cs with
  | nil => rfl
  | cons c cs =>
    simp only [List.map_cons, readExponent?, lowerAscii_lowerAscii, readInt?_map_lowerAscii]

theorem takeWhile_isDigit_map_lowerAscii (cs : List Char) :
    (cs.map lowerAscii).takeWhile isDigit = cs.takeWhile isDigit := by
  have hcomp : isDigit ∘ lowerAscii = isDigit := funext isDigit_lowerAscii
  rw [List.takeWhile_map, hcomp]
  exact map_lowerAscii_of_digits List.all_takeWhile

theorem dropWhile_isDigit_map_lowerAscii (cs : List Char) :
    (cs.map lowerAscii).dropWhile isDigit = (cs.dropWhile isDigit).map lowerAscii := by
  have hcomp : isDigit ∘ lowerAscii = isDigit := funext isDigit_lowerAscii
  rw [List.dropWhile_map, hcomp]

/-- The digits behind a point, if there is one, and the rest. -/
def takePlaces : List Char → List Char × List Char
  | '.' :: cs => (cs.takeWhile isDigit, cs.dropWhile isDigit)
  | cs => ([], cs)

theorem takePlaces_of_ne {c : Char} (h : c ≠ '.') (cs : List Char) :
    takePlaces (c :: cs) = ([], c :: cs) := by
  unfold takePlaces
  split
  · rename_i heq
    exact absurd (List.cons.inj heq).1 h
  · rfl

theorem takePlaces_map_lowerAscii (cs : List Char) :
    takePlaces (cs.map lowerAscii) = ((takePlaces cs).1, (takePlaces cs).2.map lowerAscii) := by
  have hpoint : ∀ c, lowerAscii c = '.' ↔ c = '.' := fun c => lowerAscii_eq_iff (by decide +kernel)
  cases cs with
  | nil => rfl
  | cons c cs =>
    by_cases hc : c = '.'
    · subst hc
      exact Prod.ext (takeWhile_isDigit_map_lowerAscii cs) (dropWhile_isDigit_map_lowerAscii cs)
    · rw [List.map_cons, takePlaces_of_ne (by simpa [hpoint] using hc), takePlaces_of_ne hc,
        List.map_cons]

theorem readDecimal?_eq (cs : List Char) :
    readDecimal? cs =
      let places := takePlaces (cs.dropWhile isDigit)
      if (cs.takeWhile isDigit).isEmpty && places.1.isEmpty then none
      else (readExponent? places.2).map fun e =>
        ⟨digitsValue (cs.takeWhile isDigit ++ places.1), e - places.1.length⟩ := rfl

theorem readDecimal?_map_lowerAscii (cs : List Char) :
    readDecimal? (cs.map lowerAscii) = readDecimal? cs := by
  simp only [readDecimal?_eq, takeWhile_isDigit_map_lowerAscii, dropWhile_isDigit_map_lowerAscii,
    takePlaces_map_lowerAscii, readExponent?_map_lowerAscii]

theorem isWhole_foldCase (bits : Nat) (s : String) :
    isWhole bits (foldCase s) = isWhole bits s := by
  rw [isWhole, isWhole, toList_foldCase, readInt?_map_lowerAscii]

theorem isFiniteIn_foldCase (precision top : Nat) (s : String) :
    isFiniteIn precision top (foldCase s) = isFiniteIn precision top s := by
  simp only [isFiniteIn, toList_foldCase, takeSign_map_lowerAscii, readDecimal?_map_lowerAscii]

theorem sameIgnoringCase_foldCase (s t : String) :
    sameIgnoringCase (foldCase s) t = sameIgnoringCase s t := by
  rw [Bool.eq_iff_iff, sameIgnoringCase_iff, sameIgnoringCase_iff, foldCase_foldCase]

end Text

/-! ## Words -/

theorem ValueType.admits_foldCase (t : ValueType) (token : String) :
    t.admits (Text.foldCase token) = t.admits token := by
  simp only [admits, Text.isSingle, Text.isDouble, Text.isWhole_foldCase, Text.isFiniteIn_foldCase,
    Text.sameIgnoringCase_foldCase]

namespace Parameter

theorem answersTo_foldCase (p : Parameter) (word : String) :
    p.answersTo (Text.foldCase word) = p.answersTo word := by
  rw [Bool.eq_iff_iff, answersTo_iff, answersTo_iff, Text.foldCase_foldCase]

theorem admits_foldCase (p : Parameter) (token : String) :
    p.admits (Text.foldCase token) = p.admits token := by
  unfold admits
  split
  · exact p.answersTo_foldCase token
  · exact p.valueType.admits_foldCase token

end Parameter

/-- What follows one dash or two at the front of a word. -/
def afterDashes : List Char → Option (List Char)
  | '-' :: '-' :: cs => some cs
  | '-' :: cs => some cs
  | _ => none

theorem afterDashes_map_lowerAscii (cs : List Char) :
    afterDashes (cs.map Text.lowerAscii) = (afterDashes cs).map (·.map Text.lowerAscii) := by
  have hdash : ∀ c, Text.lowerAscii c = '-' ↔ c = '-' :=
    fun c => Text.lowerAscii_eq_iff (by decide +kernel)
  have hnone : ∀ (c : Char) (cs : List Char), c ≠ '-' → afterDashes (c :: cs) = none := by
    intro c cs hc
    unfold afterDashes
    split <;> simp_all
  have hone : ∀ (d : Char) (cs : List Char), d ≠ '-' →
      afterDashes ('-' :: d :: cs) = some (d :: cs) := by
    intro d cs hd
    unfold afterDashes
    split <;> simp_all
  rcases cs with _ | ⟨c, cs⟩
  · rfl
  by_cases hc : c = '-'
  · subst hc
    rcases cs with _ | ⟨d, cs⟩
    · rfl
    by_cases hd : d = '-'
    · subst hd
      rfl
    · exact (hone _ _ (by simpa [hdash] using hd)).trans (by rw [hone _ _ hd]; rfl)
  · rw [List.map_cons, hnone _ _ (by simpa [hdash] using hc), hnone _ _ hc]
    rfl

theorem flagAlias?_eq (token : String) :
    flagAlias? token = ((afterDashes token.toList).filter fun cs =>
      cs.head?.any Text.isAlphabetic).map String.ofList := rfl

/-- A flag in other letter case has its name in that case. -/
theorem flagAlias?_foldCase (token : String) :
    flagAlias? (Text.foldCase token) = (flagAlias? token).map Text.foldCase := by
  have hhead : ∀ cs : List Char, (cs.map Text.lowerAscii).head?.any Text.isAlphabetic =
      cs.head?.any Text.isAlphabetic := by
    intro cs
    cases cs <;> simp [Text.isAlphabetic_lowerAscii]
  rw [flagAlias?_eq, flagAlias?_eq, Text.toList_foldCase, afterDashes_map_lowerAscii]
  cases afterDashes token.toList with
  | none => rfl
  | some cs =>
    rw [Option.map_some, Option.filter_some, Option.filter_some, hhead]
    split <;> simp [Text.foldCase_ofList]

theorem isFlagToken_foldCase (token : String) :
    isFlagToken (Text.foldCase token) = isFlagToken token := by
  simp [isFlagToken, flagAlias?_foldCase]

theorem FlagTable.lookup_foldCase (t : FlagTable) (token : String) :
    t.lookup (Text.foldCase token) = t.lookup token := by
  rw [lookup, lookup, flagAlias?_foldCase]
  cases flagAlias? token <;> simp [Text.foldCase_foldCase]

/-! ## Walks -/

/-- A binding with its value in small letters. -/
def Binding.folded (b : Binding) : Binding :=
  ⟨b.node, Text.foldCase b.value⟩

/-- A bound flag with its value in small letters. -/
def BoundFlag.folded (f : BoundFlag) : BoundFlag :=
  ⟨f.flag, f.value.map Text.foldCase⟩

/-- A hit with all values in small letters. -/
def Hit.folded (h : Hit) : Hit :=
  { h with bindings := h.bindings.map Binding.folded, flags := h.flags.map BoundFlag.folded }

theorem Hit.folded_after (bindings : List Binding) (flags : List BoundFlag) (h : Hit) :
    (h.after bindings flags).folded =
      h.folded.after (bindings.map Binding.folded) (flags.map BoundFlag.folded) := by
  simp [Hit.folded, Hit.after]

/-- What is bound before a hit is folded with it. -/
theorem map_folded_after (bindings : List Binding) (flags : List BoundFlag)
    (found : Except Miss Hit) :
    (found.map Hit.folded).map
        (Hit.after (bindings.map Binding.folded) (flags.map BoundFlag.folded)) =
      (found.map (Hit.after bindings flags)).map Hit.folded := by
  cases found with
  | ok hit => simp only [Except.map, Hit.folded_after]
  | error miss => rfl

namespace Judge

/-- Whether the case of letters does not matter for what fits. -/
def IgnoresCase (j : Judge) : Prop :=
  ∀ token p, j.fits (Text.foldCase token) p = j.fits token p

/-- Whether a walk below a place finds in folded words what it finds in the words themselves. -/
def FoldsBelow (j : Judge) (p : Place) : Prop :=
  ∀ tokens, j.explore p p.node.children (tokens.map Text.foldCase) =
    (j.explore p p.node.children tokens).map Hit.folded

variable {j : Judge}

theorem finish?_folded {p : Place} {hit : Hit} (h : j.finish? p = some hit) : hit.folded = hit := by
  rcases Option.map_eq_some_iff.1 h with ⟨u, -, rfl⟩
  rfl

theorem arrive_folded (parent here : Place) :
    (j.arrive parent here).map Hit.folded = j.arrive parent here := by
  unfold arrive
  split
  · rename_i hit hfinish
    rw [Except.map, finish?_folded hfinish]
  · rfl

section IgnoresCase

variable (hfits : j.IgnoresCase)
include hfits

theorem accepts_foldCase (p : Parameter) (token : String) :
    j.accepts p (Text.foldCase token) = j.accepts p token := by
  unfold accepts
  split
  · exact p.answersTo_foldCase token
  · rw [flagAlias?_foldCase, Option.any_map]
    exact congrArg (Option.any · _) (funext p.answersTo_foldCase)
  · rw [hfits]

theorem bindFlag_foldCase (flag : Parameter) (rest : List String) :
    j.bindFlag flag (rest.map Text.foldCase) =
      (j.bindFlag flag rest).map fun (f, left) => (f.folded, left.map Text.foldCase) := by
  unfold bindFlag
  cases flag.input? with
  | none => rfl
  | some type =>
    cases rest with
    | nil => rfl
    | cons value rest =>
      simp only [List.map_cons, hfits value flag]
      split <;> rfl

theorem takeFlags_foldCase (stop : Bool) (tokens : List String) :
    j.takeFlags stop (tokens.map Text.foldCase) =
      (j.takeFlags stop tokens).map fun (flags, left) =>
        (flags.map BoundFlag.folded, left.map Text.foldCase) := by
  have hflag := isFlagToken_foldCase
  have hlookup := j.flags.lookup_foldCase
  fun_induction takeFlags j stop tokens with
  | case1 => rfl
  | case2 token rest hlooks hnone hstop | case3 token rest hlooks hnone hstop =>
    simp [takeFlags, hflag, hlookup, hlooks, hnone, hstop]
  | case4 token hlooks flag hsome rest hinput ih =>
    simp [takeFlags, hflag, hlookup, hlooks, hsome, hinput, ih, Function.comp_def, BoundFlag.folded]
  | case5 token hlooks flag hsome type hinput =>
    simp [takeFlags, hflag, hlookup, hlooks, hsome, hinput]
  | case6 token hlooks flag hsome type value rest hinput hvalue ih =>
    simp [takeFlags, hflag, hlookup, hlooks, hsome, hinput, hfits value flag, hvalue, ih,
      Function.comp_def, BoundFlag.folded]
  | case7 token hlooks flag hsome type value rest hinput hvalue =>
    simp [takeFlags, hflag, hlookup, hlooks, hsome, hinput, hfits value flag, hvalue]
  | case8 token rest hlooks => simp [takeFlags, hflag, hlooks]

theorem flagsBefore_foldCase (n : Node) (tokens : List String) :
    j.flagsBefore n (tokens.map Text.foldCase) =
      (j.flagsBefore n tokens).map fun (flags, left) =>
        (flags.map BoundFlag.folded, left.map Text.foldCase) := by
  unfold flagsBefore
  split
  · rfl
  · exact takeFlags_foldCase hfits _ tokens

theorem consume_foldCase (n : Node) (taken : List BoundFlag) (token : String)
    (rest : List String) :
    j.consume n (taken.map BoundFlag.folded) (Text.foldCase token) (rest.map Text.foldCase) =
      (j.consume n taken token rest).map fun (bindings, flags, left) =>
        (bindings.map Binding.folded, flags.map BoundFlag.folded, left.map Text.foldCase) := by
  unfold consume
  split
  · rw [bindFlag_foldCase hfits]
    cases j.bindFlag n.parameter rest <;> rfl
  · split
    · rw [← List.map_cons, ← Text.foldCase_intercalate]
      rfl
    · rfl

theorem close_foldCase (p : Place) (tokens : List String) (astray : Option Miss) :
    j.close p (tokens.map Text.foldCase) astray = (j.close p tokens astray).map Hit.folded := by
  unfold close
  rw [takeFlags_foldCase hfits]
  rcases j.takeFlags false tokens with _ | ⟨flags, _ | ⟨token, rest⟩⟩
  · rfl
  · simp only [Option.map_some, List.map_nil]
    cases hfinish : j.finish? p with
    | none => rfl
    | some hit =>
      simp only [Except.map, Hit.folded_after, finish?_folded hfinish, List.map_nil]
  · rfl

theorem FoldsBelow.descend {p : Place} (hp : j.FoldsBelow p) (tokens : List String) :
    j.descend p (tokens.map Text.foldCase) = (j.descend p tokens).map Hit.folded := by
  rw [Judge.descend, Judge.descend, hp]
  cases j.explore p p.node.children tokens with
  | ok hit => rfl
  | error astray => exact close_foldCase hfits p tokens astray

theorem FoldsBelow.enter {parent : Place} {n : Node} (hn : j.FoldsBelow (parent.child n))
    (taken : List BoundFlag) (token : String) (rest : List String) :
    j.enter parent n (taken.map BoundFlag.folded) (Text.foldCase token) (rest.map Text.foldCase) =
      (j.enter parent n taken token rest).map Hit.folded := by
  unfold Judge.enter
  rw [accepts_foldCase hfits, consume_foldCase hfits]
  dsimp only
  split
  · rfl
  · split
    · rfl
    · rcases j.consume n taken token rest with _ | ⟨bindings, flags, left⟩
      · rfl
      · simp only [Option.map_some, List.isEmpty_map]
        rw [← map_folded_after]
        split
        · rw [arrive_folded]
        · rw [hn.descend hfits]

/-- Trying a node finds in folded words what it finds in the words themselves. -/
theorem FoldsBelow.visit {parent : Place} {n : Node} (hn : j.FoldsBelow (parent.child n))
    (tokens : List String) :
    j.visit parent n (tokens.map Text.foldCase) = (j.visit parent n tokens).map Hit.folded := by
  rw [visit_eq, visit_eq, flagsBefore_foldCase hfits]
  rcases j.flagsBefore n tokens with _ | ⟨taken, _ | ⟨token, rest⟩⟩
  · rfl
  · rfl
  · simp only [Option.map_some, List.map_cons, hn.enter hfits]
    cases j.enter parent n taken token rest with
    | ok hit => rfl
    | error miss =>
      simp only [Except.map]
      split
      · have hpassed : j.explore (parent.child n) n.children
            (Text.foldCase token :: rest.map Text.foldCase) =
            (j.explore (parent.child n) n.children (token :: rest)).map Hit.folded :=
          hn (token :: rest)
        rw [hpassed]
        cases j.explore (parent.child n) n.children (token :: rest) <;> rfl
      · rfl

theorem explore_foldCase {parent : Place} {cs : List Node}
    (hbelow : ∀ c ∈ cs, j.FoldsBelow (parent.child c)) (tokens : List String) :
    j.explore parent cs (tokens.map Text.foldCase) =
      (j.explore parent cs tokens).map Hit.folded := by
  induction cs with
  | nil => rfl
  | cons c cs ih =>
    rcases List.forall_mem_cons.1 hbelow with ⟨hc, hcs⟩
    rw [explore, explore, hc.visit hfits, ih hcs]
    cases j.visit parent c tokens with
    | ok hit => rfl
    | error miss => cases j.explore parent cs tokens <;> rfl

theorem foldsBelow (p : Place) : j.FoldsBelow p := by
  rcases p with ⟨n, above⟩
  induction n using Node.induction generalizing above with
  | step n ih => exact explore_foldCase hfits fun c hc => ih c hc _

/-- **Walks and letter case.** Where the case of letters does not matter for what fits, a walk finds
in folded words what it finds in the words themselves, with folded values. -/
theorem descend_foldCase (p : Place) (tokens : List String) :
    j.descend p (tokens.map Text.foldCase) = (j.descend p tokens).map Hit.folded :=
  (foldsBelow hfits p).descend hfits tokens

end IgnoresCase

end Judge

/-! ## Answers -/

/-- Whether answers differ only in the case of letters in the values of bindings and flags. -/
structure Search.AlikeButCase (s s' : Search) : Prop where
  status : s.status = s'.status
  last : s.last = s'.last
  usage : s.usage = s'.usage
  closest : s.closest = s'.closest
  bindings : List.Forall₂ (fun b b' : Binding =>
    b.node = b'.node ∧ Text.sameIgnoringCase b.value b'.value = true) s.bindings s'.bindings
  flags : List.Forall₂ (fun f f' : BoundFlag =>
    f.flag = f'.flag ∧ f.value.map Text.foldCase = f'.value.map Text.foldCase) s.flags s'.flags

/-- An answer with all values in small letters. -/
def Search.folded (s : Search) : Search :=
  { s with bindings := s.bindings.map Binding.folded, flags := s.flags.map BoundFlag.folded }

/-- Lists that are mapped to the same are related element by element. -/
theorem forall₂_of_map_eq {α β : Type} {f : α → β} {xs ys : List α} (h : xs.map f = ys.map f) :
    List.Forall₂ (fun x y => f x = f y) xs ys := by
  rw [← List.forall₂_map_left_iff (R := fun b y => b = f y),
    ← List.forall₂_map_right_iff (R := Eq), h]
  exact List.forall₂_refl _

theorem Search.alikeButCase_of_folded_eq {s s' : Search} (h : s.folded = s'.folded) :
    s.AlikeButCase s' := by
  rcases s with ⟨status, last, usage, closest, bindings, flags⟩
  rcases s' with ⟨status', last', usage', closest', bindings', flags'⟩
  obtain ⟨rfl, rfl, rfl, rfl, hbindings, hflags⟩ := Search.mk.inj h
  refine ⟨rfl, rfl, rfl, rfl, ?_, ?_⟩
  · refine (forall₂_of_map_eq hbindings).imp fun b b' hb => ?_
    obtain ⟨hnode, hvalue⟩ := Binding.mk.inj hb
    exact ⟨hnode, Text.sameIgnoringCase_iff.2 hvalue⟩
  · refine (forall₂_of_map_eq hflags).imp fun f f' hf => ?_
    exact BoundFlag.mk.inj hf

theorem Search.ofWalk_folded (found : Except Miss Hit) :
    ofWalk (found.map Hit.folded) = (ofWalk found).folded := by
  cases found with
  | error miss => rfl
  | ok hit =>
    rcases hit with ⟨last, ending, bindings, flags⟩
    cases ending <;> rfl

namespace CommandTree

variable {Source : Type} {t : CommandTree} {caps : Capabilities Source} {source : Source}

/-- In folded words an answer is the same, with folded values. -/
theorem dispatch_map_foldCase (hfits : (t.judge caps source).IgnoresCase) (tokens : List String) :
    t.dispatch caps source (tokens.map Text.foldCase) = (t.dispatch caps source tokens).folded := by
  have hfirst : t.refusesFirst (t.judge caps source) (tokens.map Text.foldCase) =
      t.refusesFirst (t.judge caps source) tokens := by
    cases tokens with
    | nil => rfl
    | cons token tokens =>
      simp only [List.map_cons, refusesFirst, isFlagToken_foldCase, Judge.accepts_foldCase hfits]
  simp only [dispatch, hfirst, walk, Judge.descend_foldCase hfits, Search.ofWalk_folded]
  split
  · rfl
  · split <;> rfl

/-- **Letter case.** With the built-in types, words that differ only in the case of ASCII letters
have answers that differ only in the case of the letters of their values. -/
theorem dispatch_alikeButCase (t : CommandTree) (caps : Capabilities Source)
    (hfits : caps.fits = Parameter.admits) (source : Source) {tokens tokens' : List String}
    (hcase : List.Forall₂ (fun w w' => Text.sameIgnoringCase w w' = true) tokens tokens') :
    (t.dispatch caps source tokens).AlikeButCase (t.dispatch caps source tokens') := by
  have hjudge : (t.judge caps source).IgnoresCase := by
    intro token p
    have hsame : (t.judge caps source).fits = Parameter.admits := hfits
    rw [hsame]
    exact p.admits_foldCase token
  have hwords : tokens.map Text.foldCase = tokens'.map Text.foldCase := by
    induction hcase with
    | nil => rfl
    | cons hword _ ih => rw [List.map_cons, List.map_cons, Text.sameIgnoringCase_iff.1 hword, ih]
  refine Search.alikeButCase_of_folded_eq ?_
  rw [← dispatch_map_foldCase hjudge, hwords, dispatch_map_foldCase hjudge]

/-- A literal, a number with an exponent, a flag and a truth value, all of them in capitals. -/
theorem dispatch_alikeButCase_pay :
    ∃ t words words', words = ["PAY", "1E3", "-N", "TRUE"] ∧ words' = ["pay", "1e3", "-n", "true"] ∧
      ofUsages "bank" [⟨"pay", [.literal "pay" [], .optional "sum" .float,
        .valueFlag "notify" ["n"] .boolean], none, none, false⟩] = .ok t ∧
      List.Forall₂ (fun w w' => Text.sameIgnoringCase w w' = true) words words' ∧
      (t.dispatch .builtin () words).status = .complete ∧
      (t.dispatch .builtin () words).AlikeButCase (t.dispatch .builtin () words') := by
  have hcase : List.Forall₂ (fun w w' => Text.sameIgnoringCase w w' = true)
      ["PAY", "1E3", "-N", "TRUE"] ["pay", "1e3", "-n", "true"] := by decide
  exact ⟨_, _, _, rfl, rfl, rfl, hcase, rfl, dispatch_alikeButCase _ .builtin rfl () hcase⟩

end CommandTree

end CommandLanguage
