import CommandLanguage.FlagTable
import Mathlib.Data.List.Pairwise

/-!
# The names of flags

Which flag a typed word stands for: the first declared one that answers to its name
(`FlagTable.lookup_ofUsages`). Where no two flags share a name, every flag answers to all of its
names (`FlagTable.lookup_eq_some_iff`).
-/

namespace CommandLanguage

namespace Parameter

variable {p q : Parameter}

theorem answersTo_iff {word : String} :
    p.answersTo word = true ↔ ∃ name ∈ p.names, Text.foldCase name = Text.foldCase word := by
  simp [answersTo, Text.sameIgnoringCase_iff]

/-- Whether two parameters share no name, in any case of ASCII letters. -/
def NamedApart (p q : Parameter) : Prop :=
  ∀ x ∈ p.names, ∀ y ∈ q.names, Text.sameIgnoringCase x y = false

theorem NamedApart.symm (h : p.NamedApart q) : q.NamedApart p := by
  intro y hy x hx
  have hxy := h x hx y hy
  rw [Bool.eq_false_iff, Ne, Text.sameIgnoringCase_iff] at hxy ⊢
  exact fun heq => hxy heq.symm

instance : Std.Symm NamedApart := ⟨fun _ _ h => h.symm⟩

/-- No word names two parameters that share no name. -/
theorem NamedApart.not_answersTo (h : p.NamedApart q) {word : String}
    (hp : p.answersTo word = true) : q.answersTo word = false := by
  rcases answersTo_iff.1 hp with ⟨x, hx, hxword⟩
  rw [Bool.eq_false_iff]
  intro hq
  rcases answersTo_iff.1 hq with ⟨y, hy, hyword⟩
  have hxy := h x hx y hy
  rw [Text.sameIgnoringCase_iff.2 (hxword.trans hyword.symm)] at hxy
  cases hxy

end Parameter

namespace FlagTable

variable {t : FlagTable} {key : String}

/-- A name that a flag asks for is its own unless it has an owner. -/
theorem owner?_claim (flag : Parameter) (name : String) :
    (t.claim flag name).owner? key =
      (t.owner? key <|> if Text.foldCase name = key then some flag else none) := by
  by_cases howned : (t.owner? (Text.foldCase name)).isSome = true
  · have hclaim : t.claim flag name = t := by simp [claim, howned]
    rw [hclaim]
    by_cases hkey : Text.foldCase name = key
    · subst hkey
      rcases Option.isSome_iff_exists.1 howned with ⟨owner, howner⟩
      simp [howner]
    · simp [hkey]
  · have hclaim : t.claim flag name =
        { t with owners := t.owners ++ [(Text.foldCase name, flag)] } := by simp [claim, howned]
    rw [hclaim, owner?, List.lookup_append]
    by_cases hkey : Text.foldCase name = key
    · subst hkey
      simp [owner?]
    · have hne : (key == Text.foldCase name) = false := by simpa using Ne.symm hkey
      simp [owner?, List.lookup_cons, hne, hkey]

/-- A flag that asks for names gets those that are free. -/
theorem owner?_foldl_claim (flag : Parameter) (names : List String) :
    (names.foldl (·.claim flag) t).owner? key =
      (t.owner? key <|>
        if ∃ name ∈ names, Text.foldCase name = key then some flag else none) := by
  induction names generalizing t with
  | nil => simp
  | cons name names ih =>
    rw [List.foldl_cons, ih, owner?_claim]
    by_cases hname : Text.foldCase name = key
    · cases t.owner? key <;> simp [hname]
    · cases t.owner? key <;> simp [hname]

theorem registerAll_cons (p : Parameter) (ps : List Parameter) :
    t.registerAll (p :: ps) = (t.register p).registerAll ps := rfl

/-- A name belongs to its owner, or else to the first of the flags that are registered which has it.
-/
theorem owner?_registerAll (word : String) (ps : List Parameter) (hps : ∀ p ∈ ps, p.isFlag = true) :
    (t.registerAll ps).owner? (Text.foldCase word) =
      (t.owner? (Text.foldCase word) <|> ps.find? (·.answersTo word)) := by
  induction ps generalizing t with
  | nil => simp [registerAll]
  | cons p ps ih =>
    rcases List.forall_mem_cons.1 hps with ⟨hp, hps⟩
    have hkeep : (t.keep p).owner? (Text.foldCase word) = t.owner? (Text.foldCase word) := by
      unfold keep
      split <;> rfl
    have hregister : (t.register p).owner? (Text.foldCase word) =
        (t.owner? (Text.foldCase word) <|> if p.answersTo word then some p else none) := by
      rw [register, if_pos hp, owner?_foldl_claim, hkeep]
      simp only [Parameter.answersTo_iff]
    rw [registerAll_cons, ih hps, hregister, List.find?_cons]
    cases t.owner? (Text.foldCase word) <;> cases p.answersTo word <;> simp

/-- A word stands for the first declared flag that answers to it. -/
theorem lookup_ofUsages (usages : List Usage) (token : String) :
    (ofUsages usages).lookup token =
      (flagAlias? token).bind fun word => (declared usages).find? (·.answersTo word) := by
  have hflags : ∀ p ∈ declared usages, p.isFlag = true := by
    intro p hp
    rcases List.mem_flatMap.1 hp with ⟨u, -, hpu⟩
    exact (List.mem_filter.1 hpu).2
  unfold lookup ofUsages
  congr 1
  funext word
  rw [owner?_registerAll word _ hflags]
  simp [empty, owner?]

/-- Where no two flags share a name, a word stands for a flag if it names it. -/
theorem lookup_eq_some_iff {usages : List Usage}
    (hapart : (declared usages).Pairwise Parameter.NamedApart) {token : String} {f : Parameter} :
    (ofUsages usages).lookup token = some f ↔
      f ∈ declared usages ∧ (flagAlias? token).any f.answersTo = true := by
  rw [lookup_ofUsages, Option.bind_eq_some_iff]
  constructor
  · rintro ⟨word, hword, hfind⟩
    exact ⟨List.mem_of_find?_eq_some hfind, by simpa [hword] using List.find?_some hfind⟩
  · rintro ⟨hf, hany⟩
    rcases (Option.any_eq_true _ _).1 hany with ⟨word, hword, hanswers⟩
    refine ⟨word, hword, ?_⟩
    have hsome : ((declared usages).find? (·.answersTo word)).isSome = true :=
      List.find?_isSome.2 ⟨f, hf, hanswers⟩
    rcases Option.isSome_iff_exists.1 hsome with ⟨g, hg⟩
    have hganswers : g.answersTo word = true := by simpa using List.find?_some hg
    -- Another flag would have a name in common with `f`.
    by_cases hfg : f = g
    · rw [hg, hfg]
    · have hnot := hapart.forall hf (List.mem_of_find?_eq_some hg) hfg
      rw [hnot.not_answersTo hanswers] at hganswers
      cases hganswers

end FlagTable

end CommandLanguage
