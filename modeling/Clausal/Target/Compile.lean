import Clausal.Theory.Document
import Clausal.Target.LogicProgram
import Clausal.Target.SouffleProgram
import Clausal.Target.Prover

/-!
# Compilation

A theory, or one group of it, in any of the formats.
-/

namespace Clausal

namespace Format

def compile (format : Format) (choices : Choices) (t : Theory) : Except TargetFault Compiled :=
  match format with
  | .prolog => LogicProgram.prolog.compile choices t
  | .problog => LogicProgram.problog.compile choices t
  | .souffle => Souffle.compile choices t
  | .tptp => .ok (Prover.tptp.compile t)
  | .prover9 => .ok (Prover.prover9.compile t)
  | .sexpr => .ok ⟨t.document ++ "\n", []⟩
  | .record => .error (.noWriter format)

/-- The text of a group in a format, against the declarations of a theory. -/
def compileGroup (format : Format) (t : Theory) (g : SentenceGroup) :
    Except TargetFault Compiled :=
  match format with
  | .prolog => LogicProgram.prolog.compileGroup t.registry g
  | .problog => LogicProgram.problog.compileGroup t.registry g
  | .souffle => Souffle.compileGroup t.registry g
  | .tptp => .ok (Prover.tptp.compileGroup t g)
  | .prover9 => .ok (Prover.prover9.compileGroup t g)
  | .sexpr => .ok ⟨g.document [] ++ "\n", []⟩
  | .record => .error (.noWriter format)

end Format

end Clausal
