import IdlFrontend.Grammar.Error
import IdlFrontend.Include.Fault

/-!
# Errors

Every stage stops at its first failure. An error is the failure of the stage that
stopped.
-/

namespace IdlFrontend

/-- The failure of a stage. -/
inductive Error where
  | preprocess (e : PreprocessError)
  | token (e : LexicalError)
  | grammar (e : SyntaxError)
  | unreadable (path : Text) (fault : ReadFault)
deriving DecidableEq

namespace Error

/-- The failure of a parser as an error. -/
def ofParseError : ParseError → Error
  | .token e => .token e
  | .grammar e => .grammar e

/-- The message without the line. -/
def message : Error → String
  | preprocess e => e.message
  | token e => e.message
  | grammar e => e.message
  | unreadable path fault => s!"Couldn't read '{String.ofList path}': {fault.message}"

/-- The line, if there is one. -/
def line : Error → Option Nat
  | preprocess e => some e.line
  | token e => some e.line.toNat
  | grammar e => e.line.map UInt64.toNat
  | unreadable _ _ => none

/-- The message followed by the line, if there is one. -/
def display (e : Error) : String := withLine e.message e.line

end Error

end IdlFrontend
