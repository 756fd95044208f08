import Clausal.Target.Prolog

/-!
# ProbLog notation

ProbLog adds weights before clauses and observations of ground atoms to the notation of Prolog.
-/

namespace Clausal

namespace ProbLog

/-- The sentence below some negations, with the truth value that it gets from them. -/
def observed : Sentence → Bool → Sentence × Bool
  | .neg s, holds => observed s (!holds)
  | s, holds => (s, holds)

/-- A directive that a sentence has been observed to hold or not to hold. The sentence has to be a
ground atom or a negation of one. -/
def evidence (r : Option Registry) (s : Sentence) (holds : Bool) : Except TargetFault Text := do
  let (atom, holds) := observed s holds
  if !(atom.isTerm && atom.isGround) then .error (.refused (.evidenceNotGround atom))
  else
    TargetFault.ofError (Registry.checkArity? r atom)
    return "evidence(" ++ (← Prolog.literal atom) ++ ", " ++ Value.boolText holds ++ ")."

def weightMark : Option Binary64 → Text
  | some w => w.text ++ "::"
  | none => []

end ProbLog

end Clausal
