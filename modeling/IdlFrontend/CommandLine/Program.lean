import IdlFrontend.CommandLine.Arguments
import IdlFrontend.Frontend
import IdlFrontend.Syntax.Outline

/-!
# The program

The program reads one source file and prints its outline or its preprocessed text. It
reaches files and standard input through its surroundings only.

Results:

* `run_refused`: arguments that are refused are answered without reading anything.
* `readSource_file`: a file is known by the path on the command line.
-/

namespace IdlFrontend.CommandLine

/-- What the program can reach. -/
structure Surroundings (m : Type → Type) where
  read : Text → m (Except ReadFault Text)
  input : m (Except ReadFault Text)

/-- What a run leaves behind. -/
structure Outcome where
  code : UInt32 := 0
  output : Text := []
  diagnostics : Text := []
deriving DecidableEq, Repr

/-! ## Texts about the program -/

/-- The name of the program and its version. -/
def versionText : String := "omgidl 0.1.0\n"

/-- How the program is called. -/
def usageText : String := "Usage: omgidl [OPTIONS] <FILE>\n"

/-- The text that explains the arguments. -/
def helpText : String :=
  "Preprocess and parse OMG IDL, printing an outline of the definitions\n\n" ++ usageText ++
  "\nArguments:\n" ++
  "  <FILE>  Input file, or a hyphen for standard input\n" ++
  "\nOptions:\n" ++
  "      --webidl           Use the dialect that leans towards WebIDL\n" ++
  "  -I <DIR>               Add a directory to the search path of includes\n" ++
  "  -D <NAME[=VALUE]>      Predefine a macro\n" ++
  "  -E                     Print the preprocessed text and stop\n" ++
  "  -v, --verbose          Accepted without effect\n" ++
  "  -h, --help             Print help\n" ++
  "  -V, --version          Print version\n"

/-- The text on a topic. -/
def Topic.text : Topic → String
  | help => helpText
  | version => versionText

/-- The outcome of arguments that ask for no run. -/
def Stop.outcome : Stop → Outcome
  | tell t => { output := t.text.toList }
  | refuse e => { code := 2, diagnostics := s!"error: {e.message}\n\n{usageText}".toList }

/-! ## Runs -/

variable {m : Type → Type} [Monad m]

/-- The source file that a command line names. Standard input has no name. Model of
    `read_source`. -/
def Surroundings.readSource (s : Surroundings m) (file : Text) : m (Except Error SourceFile) := do
  let isInput := file == ['-']
  match ← if isInput then s.input else s.read file with
  | .error fault => return .error (.unreadable file fault)
  | .ok contents => return .ok ⟨if isInput then [] else file, contents⟩

/-- What a file is turned into. -/
def Invocation.print (inv : Invocation) (s : Surroundings m) (file : SourceFile) :
    m (Except Error Text) := do
  let store := SourceStore.search s.read inv.options.includeDirs
  if inv.preprocessOnly then
    return (← preprocess store inv.options.defines file).mapError .preprocess
  else
    return (← parse store inv.options file).map fun spec => spec.outline.text

/-- The outcome of a run that prints a text or fails. -/
def Outcome.ofResult : Except Error Text → Outcome
  | .ok cs => { output := cs }
  | .error e => { code := 1, diagnostics := s!"Error: {e.display}\n".toList }

/-- The run that the arguments ask for. Model of `main`. -/
def run (s : Surroundings m) (args : List Text) : m Outcome := do
  match readArguments args with
  | .error stop => return stop.outcome
  | .ok inv =>
    match ← s.readSource inv.file with
    | .error e => return .ofResult (.error e)
    | .ok file => return .ofResult (← inv.print s file)

theorem run_refused {args : List Text} {e : UsageError} (s : Surroundings m)
    (h : readArguments args = .error (.refuse e)) :
    run s args = pure (Stop.refuse e).outcome := by
  rw [run, h]

theorem readSource_file [LawfulMonad m] {s : Surroundings m} {path contents : Text}
    (hpath : path ≠ ['-']) (h : s.read path = pure (.ok contents)) :
    s.readSource path = pure (.ok ⟨path, contents⟩) := by
  have : (path == ['-']) = false := by simpa using hpath
  simp [Surroundings.readSource, this, h]

end IdlFrontend.CommandLine
