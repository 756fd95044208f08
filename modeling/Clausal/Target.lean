import Clausal.Theory

/-!
# Target languages

The formats into which a theory can be compiled, the choices that shape the output, and the
outcome of a compilation: a text with reports on the sentences that the language cannot express.
-/

namespace Clausal

inductive Format where
  | prolog
  | souffle
  | tptp
  | prover9
  | problog
  | sexpr
  | record
deriving DecidableEq, Inhabited

namespace Format

def all : List Format := [.prolog, .souffle, .tptp, .prover9, .problog, .sexpr, .record]

def name : Format → Text
  | .prolog => "prolog"
  | .souffle => "souffle"
  | .tptp => "tptp"
  | .prover9 => "prover9"
  | .problog => "problog"
  | .sexpr => "sexpr"
  | .record => "record"

/-- The end of the names of files in a format. -/
def suffix : Format → Text
  | .prolog => ".pl"
  | .souffle => ".dl"
  | .tptp => ".p"
  | .prover9 => ".in"
  | .problog => ".problog"
  | .sexpr => ".sexpr"
  | .record => ".json"

/-- The format of a name, in any case. -/
def ofName? (name : Text) : Option Format := all.find? fun f => f.name = name.toLower

end Format

/-- Parts of the output that can be left out. -/
structure Choices where
  /-- Queries for the declared predicates. -/
  queries : Bool
  /-- Comments on the declared predicates. -/
  comments : Bool
  /-- Directives that print the derived relations. -/
  outputs : Bool
deriving DecidableEq, Inhabited

def Choices.full : Choices := ⟨true, true, true⟩

/-- A text in a target language with reports on what it leaves out. -/
structure Compiled where
  text : Text
  diagnostics : List Diagnostic
deriving DecidableEq, Inhabited

/-- Why a theory cannot be compiled at all. -/
inductive TargetFault where
  /-- An operation was refused outside any sentence. -/
  | refused (e : Error)
  /-- A sentence that the output needs cannot be built. -/
  | unbuildable (fault : BuildFault)
  /-- A sentence stands where a term of Prolog has to stand. -/
  | notPrologArgument (kind : SentenceKind)
  /-- The format is known by name only. -/
  | noWriter (format : Format)

/-- A result whose refusal stops the compilation. -/
def TargetFault.ofError {α : Type} : Except Error α → Except TargetFault α
  | .ok a => .ok a
  | .error e => .error (.refused e)

/-- A result whose fault stops the compilation. -/
def TargetFault.ofBuild {α : Type} : Except BuildFault α → Except TargetFault α
  | .ok a => .ok a
  | .error fault => .error (.unbuildable fault)

def TargetFault.message : TargetFault → Text
  | .refused e => e.line
  | .unbuildable fault => fault.message
  | .notPrologArgument kind => kind.name ++ " cannot be a Prolog argument"
  | .noWriter format => "no writer for the format " ++ format.name

end Clausal
