import IdlFrontend.Include.Store
import IdlFrontend.Options
import IdlFrontend.Preprocess.Conditional
import IdlFrontend.Preprocess.Directive
import IdlFrontend.Preprocess.MarkedText
import IdlFrontend.Source.Splice
import IdlFrontend.Source.Trigraph

/-!
# Preprocessing

A session keeps the macros and the output across the files it reads. A file is
read line by line. Text of a kept region is collected and expanded as a whole
where the next directive that could matter stands, since a macro invocation may
extend over several lines. An included file is read in the place of its
directive; a file that is still being read cannot be included again.

Results:

* `shiftLine_zero`, `shiftLine_of_bounds`: the line numbers of a file are moved
  exactly, as long as the result fits 64 bits.
-/

namespace IdlFrontend

/-- What a preprocessing session remembers. Model of `Preprocessor`. -/
structure Session where
  macros : MacroTable := {}
  output : MarkedText := {}
deriving DecidableEq, Repr

/-- A step of a session. What a step did before it failed remains. -/
abbrev PreprocessM (m : Type → Type) := ExceptT PreprocessError (StateT Session m)

/-- A file that is being read. -/
structure OpenFile where
  /-- The name of the file, or the one that a line directive gave it. -/
  name : Text
  /-- Kept lexemes that have not been expanded yet. -/
  pending : List Lexeme := []
  conditionals : Conditionals := []
  /-- What has to be added to the physical line number. -/
  shift : Int := 0
deriving DecidableEq, Repr

/-- The line number `line` moved by `shift`, and 1 if that does not fit 64 bits. Model of
    `shift_line`. -/
def shiftLine (line : Nat) (shift : Int) : Nat :=
  if 0 ≤ line + shift ∧ line + shift < unsignedLimit then (line + shift).toNat else 1

theorem shiftLine_zero {line : Nat} (h : line < unsignedLimit) : shiftLine line 0 = line := by
  rw [shiftLine, if_pos (by omega)]
  omega

theorem shiftLine_of_bounds {line : Nat} {shift : Int} (h₀ : 0 ≤ line + shift)
    (h₁ : line + shift < unsignedLimit) : (shiftLine line shift : Int) = line + shift := by
  rw [shiftLine, if_pos ⟨h₀, h₁⟩]
  omega

namespace Session

variable {m : Type → Type} [Monad m]

/-! ## Definitions -/

/-- Defines a macro by the lexemes behind the directive. Model of `define_tokens`. -/
def defineLexemes (args : List Lexeme) (line : Nat) : PreprocessM m Unit := do
  let s ← get
  let macros ← MonadExcept.ofExcept (s.macros.define args line)
  set { s with macros }

/-- Defines a macro by text that has no line of its own. -/
def defineText (cs : Text) : PreprocessM m Unit := defineLexemes (Lexeme.scan cs) 0

/-- Defines a macro that the options ask for. One without a value is replaced by nothing. Model of
    `define`. -/
def define (d : Predefinition) : PreprocessM m Unit :=
  defineText (d.name ++ ' ' :: d.value.getD [])

/-- A file name as the body of a string literal. -/
def quoteName (name : Text) : Text :=
  name.flatMap fun c => if c == '\\' || c == '"' then ['\\', c] else [c]

/-- Lets `__FILE__` stand for the given name. Model of `define_file_macro`. -/
def defineFileName (name : Text) : PreprocessM m Unit :=
  defineText ("__FILE__ \"".toList ++ quoteName name ++ ['"'])

/-! ## Lines -/

/-- Expands the text collected so far and writes it. Model of `flush`. -/
def flush (f : OpenFile) : PreprocessM m OpenFile := do
  let s ← get
  let expanded ← MonadExcept.ofExcept (s.macros.expand f.pending)
  set { s with output := s.output.push f.name expanded }
  return { f with pending := [] }

/-- The file that an include directive names. Macros are expanded if it does not name one as it
    stands. Model of the way `include` reads its operand. -/
def includeTarget (args : List Lexeme) (line : Nat) : PreprocessM m (Text × Bool) := do
  match includeTarget? args with
  | some target => return target
  | none =>
    let expanded ← MonadExcept.ofExcept ((← get).macros.expand args)
    match includeTarget? (Lexeme.stripBlank expanded) with
    | some target => return target
    | none => throw ⟨.malformed (.command .include), line⟩

/-- Renumbers the lines after a line directive, and renames the file if it says
    so. Both the new number and the physical one have to fit a signed word. -/
def changeLine (f : OpenFile) (target : List Lexeme) (line : Nat) : PreprocessM m OpenFile := do
  match readLineChange target with
  | none => throw ⟨.malformed (.command .line), line⟩
  | some (next, renamed) =>
    let f ← flush f
    let physical := shiftLine line (-f.shift) + 1
    if next < signedLimit ∧ physical < signedLimit then
      let f := { f with shift := (next : Int) - physical }
      match renamed with
      | none => return f
      | some name =>
        defineFileName name
        return { f with name }
    else throw ⟨.malformed (.command .line), line⟩

/-- Obeys a directive of a kept region that belongs to no conditional. `group` is the line it
    stands on and `enter` reads an included file. Model of the arms of `run_file` for these. -/
def obey (enter : Text → Bool → Nat → PreprocessM m Unit) (f : OpenFile) (group : List Lexeme)
    (d : DirectiveLine) : CommandName → PreprocessM m OpenFile
  | .define => do
    let f ← flush f
    defineLexemes d.args d.line
    return f
  | .undef => do
    let f ← flush f
    match firstName? d.args with
    | none => throw ⟨.malformed (.command .undef), d.line⟩
    | some name =>
      modify fun s => { s with macros := s.macros.erase name }
      return f
  | .include => do
    let f ← flush f
    let (name, quoted) ← includeTarget d.args d.line
    enter name quoted d.line
    defineFileName f.name
    return f
  | .pragma => do
    let f ← flush f
    let kept := group.filter fun t => t.kind != .comment && t.kind != .newline
    modify fun s => { s with output := s.output.push f.name kept }
    return f
  | .line => changeLine f d.lineTarget d.line

/-- The lexemes with their line numbers moved. -/
def renumber (shift : Int) (ts : List Lexeme) : List Lexeme :=
  ts.map fun t => { t with line := shiftLine t.line shift }

/-- The line feed that a line ends with, if it has one. -/
def lineBreak (group : List Lexeme) : List Lexeme :=
  group.getLast?.toList.filter (·.kind == .newline)

/-- Reads one line. In a region that is not kept, only the directives of conditionals count. The
    line break of a directive remains in the text. Model of one round of the loop of `run_file`. -/
def readLine (enter : Text → Bool → Nat → PreprocessM m Unit) (f : OpenFile)
    (group : List Lexeme) : PreprocessM m OpenFile := do
  let group := renumber f.shift group
  match directive? group with
  | none => return if f.conditionals.kept then { f with pending := f.pending ++ group } else f
  | some d =>
    let f ← match d.name? with
      | some (.branch name) => do
        let macros := (← get).macros
        let conditionals ← MonadExcept.ofExcept (f.conditionals.branch d.line
          (fun _ => d.branchHolds macros name) name)
        pure { f with conditionals }
      | some (.command name) => if f.conditionals.kept then obey enter f group d name else pure f
      | none => pure f
    return { f with pending := f.pending ++ lineBreak group }

/-! ## Files -/

/-- The lines of lexemes of a source text. -/
def sourceLines (contents : Text) : List (List Lexeme) :=
  Lexeme.lines (Lexeme.scan (Source.joinContinuations (Source.replaceTrigraphs contents)))

/-- Reads a file whose includes are read by `enter`. Model of `run_file`. -/
def readFileWith (file : SourceFile) (enter : Text → Bool → Nat → PreprocessM m Unit) :
    PreprocessM m Unit := do
  defineFileName file.name
  let f ← (sourceLines file.contents).foldlM (readLine enter) { name := file.name }
  let f ← flush f
  MonadExcept.ofExcept f.conditionals.finish

/-- Reads the file that an include directive names, by `read`. `stack` are the names of the files
    that are being read, the one with the directive first; none of them is read again. Model of
    `include`, once the operand is read. -/
def enterFile (store : SourceStore m) (stack : List Text) (read : SourceFile → PreprocessM m Unit)
    (name : Text) (quoted : Bool) (line : Nat) : PreprocessM m Unit := do
  match ← (store.find ⟨name, quoted, stack.headD []⟩ : m _) with
  | none => throw ⟨.notFound name, line⟩
  | some found =>
    if found.name ∈ stack then throw ⟨.recursiveInclude name, line⟩ else read found

/-- Reads a file. `around` are the names of the files that are being read around
    it. Files are nested at most `depth` deep; nothing is read below that, which
    does not happen if `depth` exceeds the capacity of the store. -/
def readFile (store : SourceStore m) :
    (depth : Nat) → (around : List Text) → SourceFile → PreprocessM m Unit
  | 0, _, _ => pure ()
  | depth + 1, around, file =>
    readFileWith file
      (enterFile store (file.name :: around) (readFile store depth (file.name :: around)))

/-- Reads a file that is not included by another one. Model of `run`. -/
def run (store : SourceStore m) (file : SourceFile) : PreprocessM m Unit :=
  readFile store (store.capacity + 1) [] file

end Session

/-- The output for a file, with macros defined beforehand. -/
def preprocessMarked {m : Type → Type} [Monad m] (store : SourceStore m)
    (defines : List Predefinition) (file : SourceFile) :
    m (Except PreprocessError MarkedText) := do
  let work : PreprocessM m Unit := do
    defines.forM Session.define
    Session.run store file
  let (result, s) ← StateT.run (ExceptT.run work) {}
  return result.map fun _ => s.output

/-- The preprocessed text of a file, with macros defined beforehand. Model of
    `preprocess_with_loader`. -/
def preprocess {m : Type → Type} [Monad m] (store : SourceStore m)
    (defines : List Predefinition) (file : SourceFile) :
    m (Except PreprocessError Text) := do
  return (← preprocessMarked store defines file).map MarkedText.text

end IdlFrontend
