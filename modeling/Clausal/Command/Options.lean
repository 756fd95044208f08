import Clausal.Target

/-!
# Command-line options

Options are read from left to right, and the first one that makes no sense ends the reading.
-/

namespace Clausal

/-- What a run is asked to do. -/
structure Options where
  /-- The path of the theory. -/
  input : Text
  /-- The formats to compile to, in the order of the request. -/
  targets : List Format
  /-- The directory for output files. Without one the output is printed. -/
  outputDir : Text
  /-- Whether reports make the run fail. -/
  strict : Bool
  checkExclusive : Bool
  inferParents : Bool
  noQueries : Bool
  threads : Nat
  selfTest : Bool
  help : Bool
  verbose : Bool
deriving DecidableEq, Inhabited

/-- Why a command line makes no sense. -/
inductive UsageError where
  | noFormat
  | unknownFormat (name : Text)
  | noDirectory
  | noThreads
  | notThreads (text : Text)
  | negativeThreads
  | unknownOption (text : Text)
  | manyInputs
  | noInput
deriving DecidableEq

def UsageError.message : UsageError → Text
  | .noFormat => "--to requires a format argument"
  | .unknownFormat name => "unknown target format: " ++ name
  | .noDirectory => "--output requires a directory argument"
  | .noThreads => "--threads requires a number argument"
  | .notThreads text => "--threads expects a number, got " ++ text
  | .negativeThreads => "--threads must be >= 0"
  | .unknownOption text => "unknown option: " ++ text
  | .manyInputs => "multiple input files not supported"
  | .noInput => "no input file specified (use --help for usage)"

namespace Options

def initial : Options := ⟨[], [], [], false, false, false, false, 0, false, false, false⟩

/-- Adds a target unless it is there already. -/
def addTarget (o : Options) (format : Format) : Options :=
  if o.targets.contains format then o else { o with targets := o.targets ++ [format] }

/-- Adds the targets that a word names. -/
def addNamed (o : Options) (word : Text) : Except UsageError Options :=
  if word.isEmpty then .ok o
  else if word.toLower = "all" then .ok (Format.all.foldl addTarget o)
  else
    match Format.ofName? word with
    | some format => .ok (o.addTarget format)
    | none => .error (.unknownFormat word)

def addAll : List Text → Options → Except UsageError Options
  | [], o => .ok o
  | word :: words, o => do addAll words (← o.addNamed word)

/-- Adds the targets of a list with commas. -/
def addTargets (list : Text) (o : Options) : Except UsageError Options :=
  addAll ((Text.split (ascii ',') list).map Text.trim) o

/-- The integer at the start of a text, after blanks and a sign; whatever follows is ignored. It
has to fit into 32 bits. -/
def leadingInt? (text : Text) : Option Int :=
  let text := text.dropWhile Byte.isSpace
  let unsigned :=
    match text with
    | b :: rest => if b = ascii '-' || b = ascii '+' then rest else text
    | [] => []
  let digits := unsigned.takeWhile Byte.isDigit
  let n : Int := if text.head? = some (ascii '-') then -(Text.toNat digits) else Text.toNat digits
  if digits.isEmpty || n < Int32.minValue.toInt || Int32.maxValue.toInt < n then none else some n

def setThreads (text : Text) (o : Options) : Except UsageError Options :=
  match leadingInt? text with
  | none => .error (.notThreads text)
  | some n => if n < 0 then .error .negativeThreads else .ok { o with threads := n.toNat }

def setInput (text : Text) (o : Options) : Except UsageError Options :=
  if o.input.isEmpty then .ok { o with input := text } else .error .manyInputs

/-- An option without argument. -/
def flag? (word : Text) : Option (Options → Options) :=
  if word = "--selftest" then some fun o => { o with selfTest := true }
  else if word = "--help" || word = "-h" then some fun o => { o with help := true }
  else if word = "--verbose" || word = "-v" then some fun o => { o with verbose := true }
  else if word = "--strict" then some fun o => { o with strict := true }
  else if word = "--check-exclusive" then some fun o => { o with checkExclusive := true }
  else if word = "--infer-parents" then some fun o => { o with inferParents := true }
  else if word = "--no-queries" then some fun o => { o with noQueries := true }
  else none

/-- What an option does with its argument, and the error if there is none. -/
abbrev Setter := (Text → Options → Except UsageError Options) × UsageError

/-- An option with an argument. -/
def setter? (word : Text) : Option Setter :=
  if word = "--to" then some (addTargets, .noFormat)
  else if word = "--output" || word = "-o" then
    some (fun text o => .ok { o with outputDir := text }, .noDirectory)
  else if word = "--threads" || word = "-j" then some (setThreads, .noThreads)
  else none

/-- A word that is neither an option on its own nor one with an argument in the next word. -/
def readWord (word : Text) (o : Options) : Except UsageError Options :=
  if (Text.ofString "--to=").isPrefixOf word then o.addTargets (word.drop 5)
  else if (Text.ofString "-").isPrefixOf word then .error (.unknownOption word)
  else o.setInput word

def readWords : List Text → Options → Except UsageError Options
  | [], o => .ok o
  | word :: words, o =>
    match flag? word with
    | some set => readWords words (set o)
    | none =>
      match setter? word with
      | none => do readWords words (← o.readWord word)
      | some (set, missing) =>
        match words with
        | [] => .error missing
        | argument :: words => do readWords words (← set argument o)

/-- The options of a command line. Without targets, Prolog is the target. -/
def parse (words : List Text) : Except UsageError Options := do
  let o ← readWords words initial
  if !o.selfTest && !o.help && o.input.isEmpty then .error .noInput
  else return if o.targets.isEmpty then { o with targets := [.prolog] } else o

def usage (program : Text) : Text :=
  "Usage: " ++ program ++ " [OPTIONS] <theory.sexpr|theory.json>\n" ++
  "       " ++ program ++ " --selftest\n" ++
  "\n" ++
  "Compile a typed logic theory to solver input.\n" ++
  "\n" ++
  "Options:\n" ++
  "  --to FMT          Target format, repeatable or comma separated (default: prolog)\n" ++
  "                    prolog, souffle, tptp, prover9, problog, sexpr, record, all\n" ++
  "  --output DIR      Write <theory><suffix> files into DIR (default: stdout)\n" ++
  "  --strict          Exit with status 1 if any diagnostic is reported\n" ++
  "  --check-exclusive Check with Z3 that ladder branches are mutually exclusive\n" ++
  "  --infer-parents   Add subsumption axioms for predicate parents\n" ++
  "  --no-queries      Omit query sections (prolog, problog)\n" ++
  "  --threads N, -j N Set number of OpenMP threads (0 = auto, default)\n" ++
  "  --verbose, -v     Print progress to stderr\n" ++
  "  --selftest        Run built-in tests\n" ++
  "  --help, -h        Show this message\n" ++
  "\n" ++
  "Input format:\n" ++
  "  - .json files are read as record documents\n" ++
  "  - anything else is read as an s-expression theory\n"

end Options

end Clausal
