import IdlFrontend.Options

/-!
# Command-line arguments

Arguments are read from left to right. An argument after one hyphen is a cluster of
letters, one after two hyphens a word, and any other names the source file. An option
that takes a value finds it in the rest of its cluster, or in the next argument if
nothing is left. After two hyphens alone, every argument names a file.

Results:

* `readArguments_file`: a lone argument without a hyphen is the file.
* `readArguments_of_stopped`: an argument that stops the reading decides the outcome,
  whatever follows.
* `readFrom_append`: arguments are read one after the other.
-/

namespace IdlFrontend.CommandLine

/-! ## What arguments can ask for -/

/-- What is off unless it is asked for. It may be asked for once. -/
inductive Switch where
  | webDialect
  | preprocessOnly
  /-- A log of the run. It does not change what is printed. -/
  | verbose
deriving DecidableEq, Repr

/-- What is given a value, any number of times. -/
inductive Setting where
  | includeDir
  | define
deriving DecidableEq, Repr

/-- What the program tells about itself instead of reading a file. -/
inductive Topic where
  | help
  | version
deriving DecidableEq, Repr

/-- The meaning of a letter or of a word. -/
inductive Flag where
  | switch (s : Switch)
  | setting (s : Setting)
  | topic (t : Topic)
deriving DecidableEq, Repr

/-- The meaning of a letter after a hyphen. -/
def Flag.ofLetter? : Char → Option Flag
  | 'E' => some (.switch .preprocessOnly)
  | 'v' => some (.switch .verbose)
  | 'I' => some (.setting .includeDir)
  | 'D' => some (.setting .define)
  | 'h' => some (.topic .help)
  | 'V' => some (.topic .version)
  | _ => none

/-- The meaning of a word after two hyphens. No word takes a value. -/
def Flag.ofWord? (word : Text) : Option Flag :=
  match String.ofList word with
  | "webidl" => some (.switch .webDialect)
  | "verbose" => some (.switch .verbose)
  | "help" => some (.topic .help)
  | "version" => some (.topic .version)
  | _ => none

/-- Why arguments are refused. -/
inductive UsageError where
  | unknownFlag (arg : Text)
  | repeatedSwitch (s : Switch)
  | missingValue (s : Setting)
  /-- A word with a value after it that takes none. -/
  | unexpectedValue (arg : Text)
  | secondFile (arg : Text)
  | missingFile
deriving DecidableEq, Repr

/-- Why the reading of arguments stops before their end. -/
inductive Stop where
  | tell (t : Topic)
  | refuse (e : UsageError)
deriving DecidableEq, Repr

/-- A switch as it is written. -/
def Switch.spelling : Switch → String
  | webDialect => "--webidl"
  | preprocessOnly => "-E"
  | verbose => "--verbose"

/-- A setting as it is written. -/
def Setting.spelling : Setting → String
  | includeDir => "-I <DIR>"
  | define => "-D <NAME[=VALUE]>"

/-- The wording of a refusal. -/
def UsageError.message : UsageError → String
  | unknownFlag arg => s!"unexpected argument '{String.ofList arg}' found"
  | repeatedSwitch s => s!"the argument '{s.spelling}' cannot be used multiple times"
  | missingValue s => s!"a value is required for '{s.spelling}' but none was supplied"
  | unexpectedValue arg => s!"unexpected value in '{String.ofList arg}'"
  | secondFile arg => s!"unexpected argument '{String.ofList arg}' found"
  | missingFile => "the required argument <FILE> was not provided"

/-! ## Reading -/

/-- What has been asked for so far. Model of `Cli`. -/
structure Selection where
  file? : Option Text := none
  switches : List Switch := []
  includeDirs : List Text := []
  defines : List Predefinition := []
deriving DecidableEq, Repr

/-- What the next argument is taken for. -/
inductive Awaited where
  | anything
  | valueOf (s : Setting)
  /-- A file, even if the argument starts with a hyphen. -/
  | file
deriving DecidableEq, Repr

/-- How far the reading has come. -/
structure Progress where
  selection : Selection := {}
  awaited : Awaited := .anything
deriving DecidableEq, Repr

namespace Selection

/-- The selection with a switch turned on. -/
def turnOn (s : Selection) (switch : Switch) : Except Stop Selection :=
  if switch ∈ s.switches then throw (.refuse (.repeatedSwitch switch))
  else return { s with switches := s.switches ++ [switch] }

/-- The selection with a setting made. A directory has a name. -/
def make (s : Selection) (setting : Setting) (value : Text) : Except Stop Selection :=
  match setting with
  | .includeDir =>
    if value.isEmpty then throw (.refuse (.missingValue setting))
    else return { s with includeDirs := s.includeDirs ++ [value] }
  | .define => return { s with defines := s.defines ++ [.ofArgument value] }

/-- The selection with a file named. -/
def name (s : Selection) (file : Text) : Except Stop Selection :=
  if s.file?.isSome then throw (.refuse (.secondFile file))
  else return { s with file? := some file }

end Selection

/-- Whether an argument can be the value of a setting. A lone hyphen can. -/
def isValue (arg : Text) : Bool := arg == ['-'] || arg.head? != some '-'

/-- A cluster of letters. What follows the letter of a setting is its value, without
    an equals sign in between. -/
def readLetters (s : Selection) : Text → Except Stop Progress
  | [] => return ⟨s, .anything⟩
  | c :: cs =>
    match Flag.ofLetter? c with
    | none => throw (.refuse (.unknownFlag ['-', c]))
    | some (.topic t) => throw (.tell t)
    | some (.switch switch) => do readLetters (← s.turnOn switch) cs
    | some (.setting setting) =>
      match cs with
      | [] => return ⟨s, .valueOf setting⟩
      | '=' :: value => return ⟨← s.make setting value, .anything⟩
      | value => return ⟨← s.make setting value, .anything⟩

/-- A word. -/
def readWord (s : Selection) (word : Text) : Except Stop Progress :=
  let arg := '-' :: '-' :: word
  match Text.splitAtFirst (· == '=') word with
  | some (key, _) =>
    throw (.refuse (if (Flag.ofWord? key).isSome then .unexpectedValue arg else .unknownFlag arg))
  | none =>
    match Flag.ofWord? word with
    | some (.topic t) => throw (.tell t)
    | some (.switch switch) => return ⟨← s.turnOn switch, .anything⟩
    | some (.setting setting) => return ⟨s, .valueOf setting⟩
    | none => throw (.refuse (.unknownFlag arg))

/-- One argument. -/
def readArgument (p : Progress) (arg : Text) : Except Stop Progress :=
  match p.awaited with
  | .file => return ⟨← p.selection.name arg, .file⟩
  | .valueOf setting =>
    if isValue arg then return ⟨← p.selection.make setting arg, .anything⟩
    else throw (.refuse (.missingValue setting))
  | .anything =>
    match arg with
    | ['-', '-'] => return ⟨p.selection, .file⟩
    | '-' :: '-' :: word => readWord p.selection word
    | '-' :: c :: cs => readLetters p.selection (c :: cs)
    | file => return ⟨← p.selection.name file, .anything⟩

/-- Arguments from some point on. -/
def readFrom (p : Progress) (args : List Text) : Except Stop Progress :=
  args.foldlM readArgument p

/-- What the program is to do with a file. -/
structure Invocation where
  file : Text
  options : Options := {}
  preprocessOnly : Bool := false
deriving DecidableEq, Repr

/-- What has been asked for when there are no more arguments. -/
def Progress.finish (p : Progress) : Except Stop Invocation :=
  match p.awaited, p.selection.file? with
  | .valueOf setting, _ => throw (.refuse (.missingValue setting))
  | _, none => throw (.refuse .missingFile)
  | _, some file => return {
      file := file
      options := {
        dialect := if .webDialect ∈ p.selection.switches then .web else .omg
        includeDirs := p.selection.includeDirs
        defines := p.selection.defines }
      preprocessOnly := p.selection.switches.contains .preprocessOnly }

/-- What all arguments ask for. -/
def readArguments (args : List Text) : Except Stop Invocation := do
  (← readFrom {} args).finish

theorem readFrom_append (p : Progress) (args more : List Text) :
    readFrom p (args ++ more) = readFrom p args >>= (readFrom · more) := by
  simp [readFrom, List.foldlM_append]

theorem readArguments_of_stopped {args : List Text} {stop : Stop}
    (h : readFrom {} args = .error stop) (more : List Text) :
    readArguments (args ++ more) = .error stop := by
  rw [readArguments, readFrom_append, h]
  rfl

theorem readArguments_file {file : Text} (h : file.head? ≠ some '-') :
    readArguments [file] = .ok { file } := by
  match file, h with
  | [], _ => rfl
  | c :: cs, h =>
    have hc : c ≠ '-' := fun hc => h (by rw [hc]; rfl)
    have hread : readArgument {} (c :: cs) = .ok ⟨{ file? := some (c :: cs) }, .anything⟩ := by
      unfold readArgument
      split <;> simp_all
      rfl
    rw [readArguments, readFrom, List.foldlM_cons, hread]
    rfl

/-- Clusters end at a setting, which takes the rest. A value is missing before another
    flag. -/
example :
    [["-EIdir", "x"], ["-D=X=1", "-"], ["-D", "-E", "x"], ["--", "-E"], ["x", "-V", "y"]].map
        (fun args => readArguments (args.map String.toList)) =
      [.ok { file := ['x'], options := { includeDirs := ["dir".toList] }, preprocessOnly := true },
        .ok { file := ['-'], options := { defines := [⟨['X'], some ['1']⟩] } },
        .error (.refuse (.missingValue .define)),
        .ok { file := "-E".toList },
        .error (.tell .version)] := rfl

end IdlFrontend.CommandLine
