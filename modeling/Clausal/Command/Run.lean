import Clausal.Theory.Document
import Clausal.Theory.Parents
import Clausal.Target.Compile
import Clausal.Command.Files
import Clausal.Command.Options

/-!
# A run of the program

The theory is read, completed by what follows from the parents of its predicates, and compiled to
every target. Texts are printed or written to files; reports and errors are printed beside them.
-/

namespace Clausal

/-- What a run has done so far: the texts it has printed, the number of reports, and whether
anything failed. -/
structure Transcript where
  output : Text
  errors : Text
  reported : Nat
  failed : Bool
deriving DecidableEq, Inhabited

namespace Transcript

def empty : Transcript := ⟨[], [], 0, false⟩

def append (x y : Transcript) : Transcript :=
  ⟨x.output ++ y.output, x.errors ++ y.errors, x.reported + y.reported, x.failed || y.failed⟩

instance : Append Transcript := ⟨append⟩

def print (text : Text) : Transcript := { empty with output := text }

/-- A line about the progress, if such lines are wanted. -/
def progress (wanted : Bool) (line : Text) : Transcript :=
  if wanted then { empty with errors := "[tlogic] " ++ line ++ "\n" } else empty

/-- Reports under a common heading. -/
def reports (heading : Text) (lines : List Text) : Transcript :=
  let line (text : Text) : Text := heading ++ ": " ++ text ++ "\n"
  { empty with errors := lines.flatMap line, reported := lines.length }

def failure (message : Text) : Transcript :=
  { empty with errors := "ERROR: " ++ message ++ "\n", failed := true }

end Transcript

/-- What a run leaves behind, apart from files. -/
structure Outcome where
  status : Nat
  output : Text
  errors : Text
deriving DecidableEq, Inhabited

namespace Outcome

def stopped (t : Transcript) : Outcome := ⟨1, t.output, t.errors⟩

/-- The outcome of a run to the end. With the option for it, reports count as failures. -/
def finished (strict : Bool) (t : Transcript) : Outcome :=
  ⟨if t.failed || (strict && t.reported > 0) then 1 else 0, t.output, t.errors⟩

end Outcome

namespace Options

/-- The theory in a document. Messages end at a zero byte. -/
def theoryOf (path document : Text) : Except Text Theory :=
  if (Text.ofString ".json").isSuffixOf path then .error "no reader for record documents"
  else
    match Theory.parse document with
    | .ok t => .ok t
    | .error e => .error e.line.beforeNul

/-- The theory with what follows from the parents of predicates. -/
def withParents (o : Options) (t : Theory) : Transcript × Theory :=
  let (group, diagnostics) := t.parentGroup
  let reports := Transcript.reports "input" (diagnostics.map Diagnostic.line)
  if group.sentences.isEmpty then (reports, t)
  else
    let count := Text.ofNat group.sentences.length
    (reports ++ .progress o.verbose ("inferred " ++ count ++ " parent axiom(s)"), t.addGroup group)

/-- What is said about the theory that was read, and the theory to compile. -/
def prepare (o : Options) (t : Theory) : Transcript × Theory :=
  let groups := Text.ofNat t.groups.length ++ " group(s)"
  let facts := Text.ofNat t.facts.length ++ " fact(s)"
  let opening := .progress o.verbose ("read " ++ o.input ++ ": " ++ groups ++ ", " ++ facts) ++
    Transcript.reports "input" t.skipped
  if o.inferParents then
    let (more, t) := o.withParents t
    (opening ++ more, t)
  else (opening, t)

def choices (o : Options) : Choices := { Choices.full with queries := !o.noQueries }

variable {m : Type → Type} [Monad m] [Files m]

/-- Writes the text of a target to its file. -/
def storeText (o : Options) (stem : Text) (format : Format) (c : Compiled) : m Transcript := do
  let path := Path.within o.outputDir (stem ++ format.suffix)
  if ← Files.store path c.text then
    let count := Text.ofNat c.diagnostics.length
    return .progress o.verbose ("wrote " ++ path ++ " (" ++ count ++ " diagnostic(s))")
  else return .failure (Text.beforeNul ("cannot write file: " ++ path))

/-- Prints or writes the text of a target. -/
def deliver (o : Options) (stem : Text) (format : Format) (c : Compiled) : m Transcript :=
  if o.outputDir.isEmpty then
    let heading := if o.targets.length > 1 then "==> " ++ format.name ++ " <==\n" else []
    return .print (heading ++ c.text)
  else o.storeText stem format c

def runTarget (o : Options) (t : Theory) (stem : Text) (format : Format) : m Transcript :=
  match format.compile o.choices t with
  | .error fault => return .failure (format.name ++ ": " ++ fault.message.beforeNul)
  | .ok c => do
    let reports := Transcript.reports format.name (c.diagnostics.map Diagnostic.line)
    return reports ++ (← o.deliver stem format c)

def runTargets (o : Options) (t : Theory) (stem : Text) : List Format → m Transcript
  | [] => return .empty
  | format :: formats => do
    let first ← o.runTarget t stem format
    return first ++ (← o.runTargets t stem formats)

/-- Makes the output directory, if there is to be one. -/
def openOutput (o : Options) : m Bool :=
  if o.outputDir.isEmpty then return true else Files.ensureDirectory o.outputDir

def runTheory (o : Options) (t : Theory) : m Outcome := do
  let (opening, t) := o.prepare t
  if ← o.openOutput then
    let rest ← o.runTargets t (Path.outputStem t.name o.input) o.targets
    return .finished o.strict (opening ++ rest)
  else
    return .stopped (opening ++ .failure ("cannot create output directory: " ++ o.outputDir))

def run (o : Options) : m Outcome := do
  if o.input.isEmpty then
    return .stopped (.failure "no input specified (use --help for usage)")
  else
    match ← Files.content? o.input with
    | none => return .stopped (.failure (Text.beforeNul ("cannot open file: " ++ o.input)))
    | some document =>
      match theoryOf o.input document with
      | .error message => return .stopped (.failure message)
      | .ok t => o.runTheory t

end Options

def runCommand {m : Type → Type} [Monad m] [Files m] (program : Text) (words : List Text) :
    m Outcome :=
  match Options.parse words with
  | .error e => return ⟨1, [], "ERROR: " ++ e.message ++ "\n" ++ Options.usage program⟩
  | .ok o => if o.help then return ⟨0, [], Options.usage program⟩ else o.run

end Clausal
