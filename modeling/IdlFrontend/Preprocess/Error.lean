import IdlFrontend.Text.Basic

/-!
# What can go wrong while preprocessing

Every failure of the preprocessor is a cause and a line. The wording of the
causes is in one place, `PreprocessFault.message`.

Results:

* `ofText?_spelling`: every directive is recognised by the word it is written with.
-/

namespace IdlFrontend

/-- A message with the line it belongs to, when there is one. Model of `with_line`. -/
def withLine (message : String) : Option Nat → String
  | some line => s!"{message} at line {line}"
  | none => message

/-- The directives that open a conditional. -/
inductive Opener where
  | condition
  | defined
  | undefined
deriving DecidableEq, Repr

/-- The word after the `#` of a directive that opens a conditional. -/
def Opener.spelling : Opener → String
  | .condition => "if"
  | .defined => "ifdef"
  | .undefined => "ifndef"

/-- The directives that the branches of conditionals are made of. -/
inductive BranchName where
  | opener (opener : Opener)
  | elif
  | otherwise
  | endif
deriving DecidableEq, Repr

/-- The directives that only count in a kept region. -/
inductive CommandName where
  | define
  | undef
  | include
  | pragma
  | line
deriving DecidableEq, Repr

/-- The directives that are known by name. -/
inductive DirectiveName where
  | branch (name : BranchName)
  | command (name : CommandName)
deriving DecidableEq, Repr

/-- The word after the `#` of a directive that belongs to a conditional. -/
def BranchName.spelling : BranchName → String
  | .opener o => o.spelling
  | .elif => "elif"
  | .otherwise => "else"
  | .endif => "endif"

/-- The word after the `#` of a directive that only counts in a kept region. -/
def CommandName.spelling : CommandName → String
  | .define => "define"
  | .undef => "undef"
  | .include => "include"
  | .pragma => "pragma"
  | .line => "line"

namespace DirectiveName

/-- The word after the `#`. -/
def spelling : DirectiveName → String
  | .branch name => name.spelling
  | .command name => name.spelling

/-- Every directive that is known by name. -/
def all : List DirectiveName :=
  [.branch (.opener .condition), .branch (.opener .defined), .branch (.opener .undefined),
    .branch .elif, .branch .otherwise, .branch .endif, .command .define, .command .undef,
    .command .include, .command .pragma, .command .line]

/-- The directive with the given name. -/
def ofText? (name : Text) : Option DirectiveName :=
  all.find? fun d => d.spelling.toList == name

theorem mem_all (d : DirectiveName) : d ∈ all := by
  rcases d with (⟨_ | _ | _⟩ | _ | _ | _) | (_ | _ | _ | _ | _) <;> decide

theorem ofText?_spelling (d : DirectiveName) : ofText? d.spelling.toList = some d := by
  rcases d with (⟨_ | _ | _⟩ | _ | _ | _) | (_ | _ | _ | _ | _) <;> decide

end DirectiveName

/-- The causes of failure. -/
inductive PreprocessFault where
  /-- A definition does not begin with a name. -/
  | invalidMacro
  | invalidParameters (name : Text)
  | unterminatedCall (name : Text)
  | argumentCount (name : Text) (expected given : Nat)
  | malformed (directive : DirectiveName)
  | malformedDefined
  | notFound (file : Text)
  | recursiveInclude (file : Text)
  /-- A branch or an end without an open conditional. -/
  | misplaced (directive : BranchName)
  | unterminated (opener : Opener)
  | invalidCondition (text : Text)
deriving DecidableEq, Repr

/-- The wording of a cause. -/
def PreprocessFault.message : PreprocessFault → String
  | .invalidMacro => "Invalid macro definition"
  | .invalidParameters name => s!"Invalid parameter list for macro '{String.ofList name}'"
  | .unterminatedCall name =>
    s!"Unterminated argument list invoking macro '{String.ofList name}'"
  | .argumentCount name expected given =>
    s!"Macro '{String.ofList name}' expects {expected} argument(s), {given} given"
  | .malformed directive => s!"Malformed #{directive.spelling}"
  | .malformedDefined => "Malformed defined()"
  | .notFound file => s!"Couldn't find '{String.ofList file}'"
  | .recursiveInclude file => s!"Recursive inclusion of '{String.ofList file}'"
  | .misplaced directive => s!"Misplaced #{directive.spelling}"
  | .unterminated opener => s!"Unterminated #{opener.spelling}"
  | .invalidCondition text => s!"Couldn't evaluate expression: {String.ofList text}"

/-- A failure of the preprocessor. Model of `PreprocessorError`. -/
structure PreprocessError where
  fault : PreprocessFault
  line : Nat
deriving DecidableEq, Repr

namespace PreprocessError

/-- The message without the line. -/
def message (e : PreprocessError) : String := e.fault.message

/-- The message followed by the line. -/
def display (e : PreprocessError) : String := withLine e.message (some e.line)

end PreprocessError

end IdlFrontend
