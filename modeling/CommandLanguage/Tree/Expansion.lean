import CommandLanguage.Arrangement
import CommandLanguage.Usage

/-!
# Expansions

The ways of typing a list of parameters. An optional argument may be left out, and a run of
neighbouring flags stands for each of its selections in each order. `expansions` lists them all:
they are the paths that a usage takes through a tree.
-/

namespace CommandLanguage

/-- A stretch of a parameter list: one parameter that is no flag, or a maximal run of flags. -/
inductive Segment where
  | single (p : Parameter)
  | run (flags : List Parameter)
deriving DecidableEq

namespace Segment

/-- The stretches of a parameter list, in order. -/
def ofParameters : List Parameter → List Segment
  | [] => []
  | p :: ps =>
    if p.isFlag then
      match ofParameters ps with
      | .run flags :: rest => .run (p :: flags) :: rest
      | rest => .run [p] :: rest
    else .single p :: ofParameters ps

/-- The parameters of a stretch. -/
def parameters : Segment → List Parameter
  | .single p => [p]
  | .run flags => flags

/-- The ways of typing stretches: those that keep an optional argument before those that leave it
out, and the selections of a run in their order. -/
def expansions : List Segment → List (List Parameter)
  | [] => [[]]
  | .run flags :: rest =>
    (Arrangement.selections flags).flatMap fun chosen => (expansions rest).map (chosen ++ ·)
  | .single p :: rest =>
    (expansions rest).map (p :: ·) ++ if p.isOptional then expansions rest else []

theorem flatMap_parameters_ofParameters (ps : List Parameter) :
    (ofParameters ps).flatMap parameters = ps := by
  induction ps with
  | nil => rfl
  | cons p ps ih =>
    unfold ofParameters
    split
    · split
      · next h => simpa [h, parameters] using ih
      · simp [parameters, ih]
    · simp [parameters, ih]

end Segment

/-- The ways of typing a list of parameters. -/
def expansions (ps : List Parameter) : List (List Parameter) :=
  Segment.expansions (Segment.ofParameters ps)

end CommandLanguage
