import CommandLanguage.Program.Request
import CommandLanguage.Proofs.AsciiLetters

/-!
# Grants and the parts of permissions

A permission is named by parts with points between them, and a grant that ends in `.*` is meant for
the permissions below a name (`Gives`). It is checked without parts: the permission is cut at as many
bytes as the name has, if it can be cut there, what stands before the cut is compared with the name,
and a point has to follow. The two come to the same, for parts that are empty and characters of any
length as well, and the permission is never cut where it cannot be (`checkGrant_cases`).

`Caller.check_law` tells so of all the grants of a caller.
-/

namespace CommandLanguage

/-! ## Parts -/

/-- The parts of a name between its points. -/
def components (s : String) : List String :=
  (s.toList.splitOn '.').map String.ofList

/-- The parts of a name, without regard to the case of ASCII letters. -/
def foldedComponents (s : String) : List String :=
  (components s).map Text.foldCase

/-- What a grant gives: all permissions, the one of its name, or those whose first parts are the parts
of a name and that have more of them. -/
inductive Gives : String → String → Prop where
  | everything {permission : String} : Gives "*" permission
  | named {grant permission : String} :
      Text.foldCase grant = Text.foldCase permission → Gives grant permission
  | below {stem permission : String} :
      foldedComponents stem <+: foldedComponents permission →
      foldedComponents stem ≠ foldedComponents permission → Gives (stem ++ ".*") permission

theorem components_ne_nil (s : String) : components s ≠ [] := by
  intro h
  exact List.splitOn_ne_nil '.' s.toList (List.map_eq_nil_iff.1 h)

theorem components_append (s t : String) :
    components (s ++ "." ++ t) = components s ++ components t := by
  have hpoint : (s ++ "." ++ t).toList = s.toList ++ '.' :: t.toList := by simp
  rw [components, hpoint, List.splitOn_append_cons_self, List.map_append]
  rfl

theorem intercalate_components (s : String) : ".".intercalate (components s) = s := by
  have hparts : (components s).map String.toList = s.toList.splitOn '.' := by
    simp [components, Function.comp_def]
  rw [← String.toList_inj, String.toList_intercalate, hparts]
  exact List.intercalate_splitOn '.'

/-- A point is no letter. -/
theorem lowerAscii_eq_point_iff {c : Char} : Text.lowerAscii c = '.' ↔ c = '.' :=
  Text.lowerAscii_eq_iff (by decide +kernel)

/-- Letters are folded part by part. -/
theorem foldedComponents_eq (s : String) : foldedComponents s = components (Text.foldCase s) := by
  -- Folding makes no points and takes none away, so it can be done before or after the split.
  have hsplit : ∀ cs : List Char, (cs.map Text.lowerAscii).splitOn '.' =
      (cs.splitOn '.').map (·.map Text.lowerAscii) := by
    intro cs
    induction cs with
    | nil => rfl
    | cons c cs ih =>
      rw [List.map_cons, List.splitOn_cons_eq_if_modifyHead, List.splitOn_cons_eq_if_modifyHead, ih]
      obtain ⟨part, parts, hparts⟩ := List.exists_cons_of_ne_nil (List.splitOn_ne_nil '.' cs)
      rw [hparts]
      by_cases hc : c = '.'
      · simp [hc, lowerAscii_eq_point_iff.2]
      · simp [hc, lowerAscii_eq_point_iff]
  rw [foldedComponents, components, components, Text.toList_foldCase, hsplit, List.map_map,
    List.map_map]
  exact List.map_congr_left fun part _ => Text.foldCase_ofList part

/-- A folded name that has a point comes from a name that has one there. -/
theorem exists_append_of_foldCase_eq {s front rest : String}
    (h : Text.foldCase s = front ++ "." ++ rest) :
    ∃ front' rest', s = front' ++ "." ++ rest' ∧ Text.foldCase front' = front := by
  have hlist : s.toList.map Text.lowerAscii = front.toList ++ '.' :: rest.toList := by
    rw [← Text.toList_foldCase, h]
    simp
  obtain ⟨cs, ds, hs, hcs, hds⟩ := List.map_eq_append_iff.1 hlist
  obtain ⟨d, es, rfl, hd, hes⟩ := List.map_eq_cons_iff.1 hds
  obtain rfl := lowerAscii_eq_point_iff.1 hd
  refine ⟨String.ofList cs, String.ofList es, ?_, ?_⟩
  · rw [← String.toList_inj, hs]
    simp
  · rw [Text.foldCase_ofList, hcs, String.ofList_toList]

/-- A name has the parts of another and more exactly if it begins with the other and a point
follows. -/
theorem properPrefix_iff {stem permission : String} :
    foldedComponents stem <+: foldedComponents permission ∧
        foldedComponents stem ≠ foldedComponents permission ↔
      ∃ front rest, permission = front ++ "." ++ rest ∧
        Text.foldCase front = Text.foldCase stem := by
  constructor
  · rintro ⟨⟨more, hmore⟩, hne⟩
    -- The parts that are left over make up what follows the point.
    have hmore_ne : more ≠ [] := by
      rintro rfl
      exact hne (by simpa using hmore)
    rw [foldedComponents_eq, foldedComponents_eq] at hmore
    refine exists_append_of_foldCase_eq
      (?_ : Text.foldCase permission = Text.foldCase stem ++ "." ++ ".".intercalate more)
    calc Text.foldCase permission
        = ".".intercalate (components (Text.foldCase permission)) :=
          (intercalate_components _).symm
      _ = ".".intercalate (components (Text.foldCase stem) ++ more) := by rw [hmore]
      _ = Text.foldCase stem ++ "." ++ ".".intercalate more := by
          rw [String.intercalate_append_of_ne_nil (components_ne_nil _) hmore_ne,
            intercalate_components]
  · rintro ⟨front, rest, rfl, hfront⟩
    have hparts : foldedComponents (front ++ "." ++ rest) =
        foldedComponents stem ++ foldedComponents rest := by
      rw [foldedComponents, components_append, List.map_append, ← foldedComponents,
        ← foldedComponents, foldedComponents_eq front, hfront, ← foldedComponents_eq]
    rw [hparts]
    refine ⟨List.prefix_append _ _, ?_⟩
    -- Nothing behind the point is a part too, an empty one.
    intro heq
    have hnil : foldedComponents rest = [] := List.append_right_eq_self.1 heq.symm
    exact components_ne_nil rest (List.map_eq_nil_iff.1 hnil)

/-! ## Checks -/

theorem wildcardStem?_eq_some_iff {grant stem : String} :
    wildcardStem? grant = some stem ↔ grant = stem ++ ".*" := by
  unfold wildcardStem?
  constructor
  · intro h
    split at h
    · rename_i cs hreverse
      obtain rfl := Option.some.inj h
      rw [← String.toList_inj, ← List.reverse_inj, hreverse]
      simp
    · cases h
  · rintro rfl
    simp

/-- Where a permission has a point behind what agrees with a name, it can be cut at the length of the
name. -/
theorem cut?_of_foldCase_eq {stem front rest : String}
    (h : Text.foldCase front = Text.foldCase stem) :
    Text.cut? (front ++ "." ++ rest) stem.utf8ByteSize = some (front, "." ++ rest) := by
  have hbytes : front.utf8ByteSize = stem.utf8ByteSize := by
    rw [← Text.utf8ByteSize_foldCase front, h, Text.utf8ByteSize_foldCase]
  exact Text.cut?_eq_some_iff.2 ⟨String.append_assoc, hbytes⟩

theorem head?_eq_point_iff {s : String} :
    (s.toList.head? == some '.') = true ↔ ∃ rest, s = "." ++ rest := by
  rw [beq_iff_eq, List.head?_eq_some_iff]
  constructor
  · rintro ⟨cs, hcs⟩
    refine ⟨String.ofList cs, ?_⟩
    rw [← String.toList_inj, hcs]
    simp
  · rintro ⟨rest, rfl⟩
    exact ⟨rest.toList, by simp⟩

/-- Whether a permission is below a name can always be checked, and it is if a point follows something
that agrees with the name. -/
theorem checkBelow_cases (stem permission : String) :
    ∃ below, checkBelow stem permission = .ok below ∧
      (below = true ↔ ∃ front rest, permission = front ++ "." ++ rest ∧
        Text.foldCase front = Text.foldCase stem) := by
  rw [checkBelow, Text.before?, Text.behind]
  cases hcut : Text.cut? permission stem.utf8ByteSize with
  | none =>
    -- What agrees with the name has its length, and there would be a cut behind it.
    refine ⟨false, rfl, iff_of_false Bool.false_ne_true ?_⟩
    rintro ⟨front, rest, rfl, hfront⟩
    rw [cut?_of_foldCase_eq hfront] at hcut
    cases hcut
  | some parts =>
    rcases parts with ⟨front, rest⟩
    have hunique : ∀ front' rest', permission = front' ++ "." ++ rest' →
        Text.foldCase front' = Text.foldCase stem → front = front' ∧ rest = "." ++ rest' := by
      rintro front' rest' rfl hfront'
      rw [cut?_of_foldCase_eq hfront'] at hcut
      exact (Prod.mk.inj (Option.some.inj hcut)).imp Eq.symm Eq.symm
    dsimp only [Option.map_some]
    cases hsame : Text.sameIgnoringCase front stem with
    | false =>
      refine ⟨false, rfl, iff_of_false Bool.false_ne_true ?_⟩
      rintro ⟨front', rest', hpermission, hfront'⟩
      obtain ⟨rfl, -⟩ := hunique front' rest' hpermission hfront'
      rw [Text.sameIgnoringCase_iff.2 hfront'] at hsame
      cases hsame
    | true =>
      -- The cut at which the front was found is the one that what follows is asked for.
      refine ⟨rest.toList.head? == some '.', rfl, ?_⟩
      rw [head?_eq_point_iff]
      constructor
      · rintro ⟨rest', rfl⟩
        refine ⟨front, rest', ?_, Text.sameIgnoringCase_iff.1 hsame⟩
        rw [String.append_assoc]
        exact (Text.cut?_eq_some_iff.1 hcut).1
      · rintro ⟨front', rest', hpermission, hfront'⟩
        exact ⟨rest', (hunique front' rest' hpermission hfront').2⟩

theorem gives_iff {grant permission : String} :
    Gives grant permission ↔ grant = "*" ∨ Text.foldCase grant = Text.foldCase permission ∨
      ∃ stem, grant = stem ++ ".*" ∧ foldedComponents stem <+: foldedComponents permission ∧
        foldedComponents stem ≠ foldedComponents permission := by
  constructor
  · intro h
    cases h with
    | everything => exact .inl rfl
    | named hsame => exact .inr (.inl hsame)
    | below hbegins hmore => exact .inr (.inr ⟨_, rfl, hbegins, hmore⟩)
  · rintro (rfl | hsame | ⟨stem, rfl, hbegins, hmore⟩)
    · exact .everything
    · exact .named hsame
    · exact .below hbegins hmore

/-- A grant can always be checked, and the check tells what the grant gives. -/
theorem checkGrant_cases (grant permission : String) :
    ∃ gives, checkGrant grant permission = .ok gives ∧ (gives = true ↔ Gives grant permission) := by
  rw [checkGrant, gives_iff]
  by_cases hplain : grant = "*" ∨ Text.foldCase grant = Text.foldCase permission
  · have hcheck : (grant == "*" || Text.sameIgnoringCase grant permission) = true := by
      rwa [Bool.or_eq_true, beq_iff_eq, Text.sameIgnoringCase_iff]
    rw [if_pos hcheck]
    exact ⟨true, rfl, iff_of_true rfl (hplain.imp_right .inl)⟩
  · have hcheck : ¬ (grant == "*" || Text.sameIgnoringCase grant permission) = true := by
      rwa [Bool.or_eq_true, beq_iff_eq, Text.sameIgnoringCase_iff]
    rw [if_neg hcheck, ← or_assoc, or_iff_right hplain]
    simp only [← wildcardStem?_eq_some_iff, properPrefix_iff]
    cases wildcardStem? grant with
    | none => exact ⟨false, rfl, by simp⟩
    | some stem =>
      obtain ⟨below, hbelow, hiff⟩ := checkBelow_cases stem permission
      exact ⟨below, hbelow, by simpa using hiff⟩

/-! ## Callers -/

/-- A list of grants can always be checked. -/
theorem anyM_checkGrant (grants : List String) (permission : String) :
    ∃ granted, grants.anyM (checkGrant · permission) = .ok granted ∧
      (granted = true ↔ ∃ grant ∈ grants, Gives grant permission) := by
  induction grants with
  | nil => exact ⟨false, rfl, by simp⟩
  | cons grant grants ih =>
    obtain ⟨gives, hgives, hiff⟩ := checkGrant_cases grant permission
    rw [List.anyM, hgives]
    cases gives with
    | true => exact ⟨true, rfl, by simp [hiff.1 rfl]⟩
    | false =>
      obtain ⟨granted, hgranted, hgranted_iff⟩ := ih
      have hnot : ¬ Gives grant permission := fun h => Bool.false_ne_true (hiff.2 h)
      exact ⟨granted, hgranted, by simp [hgranted_iff, hnot]⟩

namespace Caller

/-- **What grants give.** Whether a caller has a permission can always be checked: the permission is
never cut inside a character or past its end. The caller has it exactly if one of the grants is `*`,
or agrees with it up to the case of ASCII letters, or is a name with `.*` behind it whose parts are the
first of the permission's parts, up to the same case, and not all of them. Who has more grants has
the permission too. -/
theorem check_law (c : Caller) (permission : String) :
    c.check permission = .ok (c.has permission) ∧
      (c.has permission = true ↔ ∃ grant ∈ c.grants, Gives grant permission) ∧
      ∀ c' : Caller, c.grants ⊆ c'.grants → c.has permission = true → c'.has permission = true := by
  have hcheck : ∀ c : Caller, c.check permission = .ok (c.has permission) ∧
      (c.has permission = true ↔ ∃ grant ∈ c.grants, Gives grant permission) := by
    intro c
    obtain ⟨granted, hgranted, hiff⟩ := anyM_checkGrant c.grants permission
    have hhas : c.has permission = granted := by
      rw [has, check, hgranted]
      rfl
    rw [hhas]
    exact ⟨hgranted, hiff⟩
  refine ⟨(hcheck c).1, (hcheck c).2, ?_⟩
  intro c' hmore hgranted
  obtain ⟨grant, hgrant, hgives⟩ := (hcheck c).2.1 hgranted
  exact (hcheck c').2.2 ⟨grant, hmore hgrant, hgives⟩

/-- A caller whose grants are of each form but `*`. -/
def moderator : Caller := ⟨"steve", ["kit.*", "SERVER.ban", "é.*", ".*"]⟩

/-- A wildcard gives what has an empty part, but not the name before it. The bytes of `é` end inside a
character of a permission, and there is no cut. -/
theorem check_law_moderator :
    moderator.check "KIT..é" = .ok true ∧ moderator.check "kit" = .ok false ∧
      Text.cut? "aé.b" "é".utf8ByteSize = none ∧
      moderator.check "aé.b" = .ok false ∧
      (⟨"alex", "*" :: moderator.grants⟩ : Caller).has "KIT..é" = true := by
  obtain ⟨hcheck, hgives, hmore⟩ := check_law moderator "KIT..é"
  have hhas : moderator.has "KIT..é" = true := by
    apply hgives.2
    refine ⟨"kit.*", by decide, gives_iff.2 (.inr (.inr ⟨"kit", by decide, ?_, ?_⟩))⟩
    · decide +kernel
    · decide +kernel
  have hname : moderator.has "kit" = false := by decide +kernel
  have hinside : moderator.has "aé.b" = false := by decide +kernel
  refine ⟨hhas ▸ hcheck, ?_, by decide +kernel, ?_, hmore _ (List.subset_cons_self _ _) hhas⟩
  · rw [(check_law moderator "kit").1, hname]
  · rw [(check_law moderator "aé.b").1, hinside]

end Caller

end CommandLanguage
