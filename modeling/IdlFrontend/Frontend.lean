import IdlFrontend.Error
import IdlFrontend.Grammar.Definition
import IdlFrontend.Include.Search
import IdlFrontend.Preprocess.Session

/-!
# From source to specification

A source file is preprocessed, and the text that comes out is parsed.

Results:

* `parse_eq_ofText`: what is parsed is the preprocessed text.
* `parseFile_unreadable`: a file that cannot be read is reported with its path.
-/

namespace IdlFrontend

/-- The stream at the start of a preprocessed text. -/
def TokenStream.ofText (dialect : Dialect) (cs : Text) : TokenStream :=
  { lexer := .ofText dialect cs }

/-- The specification in a preprocessed text. -/
def Specification.ofText (dialect : Dialect) (cs : Text) : Except ParseError Specification :=
  (Parser.specification.run (.ofText dialect cs)).1

variable {m : Type → Type} [Monad m]

/-- The specification in a source file. Included files come from the store. Model of
    `parse_with_loader`. -/
def parse (store : SourceStore m) (options : Options) (file : SourceFile) :
    m (Except Error Specification) := do
  match ← preprocess store options.defines file with
  | .error e => return .error (.preprocess e)
  | .ok cs => return (Specification.ofText options.dialect cs).mapError Error.ofParseError

/-- The specification in the file under a path. Included files are searched in the directories of
    the options. Model of `parse_file`. -/
def parseFile (read : Text → m (Except ReadFault Text)) (options : Options) (path : Text) :
    m (Except Error Specification) := do
  match ← read path with
  | .error fault => return .error (.unreadable path fault)
  | .ok contents => parse (.search read options.includeDirs) options ⟨path, contents⟩

theorem parse_eq_ofText [LawfulMonad m] {store : SourceStore m} {options : Options}
    {file : SourceFile} {cs : Text} (h : preprocess store options.defines file = pure (.ok cs)) :
    parse store options file =
      pure ((Specification.ofText options.dialect cs).mapError Error.ofParseError) := by
  rw [parse, h, pure_bind]

theorem parseFile_unreadable [LawfulMonad m] {read : Text → m (Except ReadFault Text)}
    {path : Text} {fault : ReadFault} (options : Options) (h : read path = pure (.error fault)) :
    parseFile read options path = pure (.error (.unreadable path fault)) := by
  rw [parseFile, h, pure_bind]

end IdlFrontend
