import IdlFrontend.Syntax.ScopedName
import IdlFrontend.Token.Basic

/-!
# Constant expressions

Constant expressions are read but not evaluated: numbers stay the text they were
written as, and string and character literals lose their quotes only.
-/

namespace IdlFrontend

/-- A literal. -/
inductive Literal where
  | integer (text : Text)
  | floating (text : Text)
  | fixedPoint (text : Text)
  | string (body : Text)
  | character (body : Text)
  | boolean (value : Bool)
deriving DecidableEq, Repr

/-- The operators between two operands. -/
inductive BinaryOp where
  | or
  | xor
  | and
  | shiftLeft
  | shiftRight
  | add
  | sub
  | mul
  | div
  | mod
deriving DecidableEq, Repr

/-- The token that an operator is written as. -/
def BinaryOp.punct : BinaryOp → Punct
  | or => .pipe
  | xor => .caret
  | and => .ampersand
  | shiftLeft => .shiftLeft
  | shiftRight => .shiftRight
  | add => .plus
  | sub => .minus
  | mul => .asterisk
  | div => .slash
  | mod => .percent

/-- The operators before an operand. -/
inductive UnaryOp where
  | negate
  | plus
  | invert
deriving DecidableEq, Repr

/-- The token that an operator is written as. -/
def UnaryOp.punct : UnaryOp → Punct
  | negate => .minus
  | plus => .plus
  | invert => .tilde

/-- A constant expression. -/
inductive ConstExpr where
  | literal (value : Literal)
  | name (name : ScopedName)
  | binary (op : BinaryOp) (lhs rhs : ConstExpr)
  | unary (op : UnaryOp) (operand : ConstExpr)
  /-- String literals that stand next to each other. -/
  | concat (lhs rhs : ConstExpr)
deriving DecidableEq, Repr

/-- The operators between two operands from the loosest to the tightest. Those of one level group
    to the left. Model of `LEVELS`. -/
def BinaryOp.levels : List (List BinaryOp) :=
  [[or], [xor], [and], [shiftLeft, shiftRight], [add, sub], [mul, div, mod]]

/-- Every operator is on one level. -/
example : BinaryOp.levels.flatten =
    [.or, .xor, .and, .shiftLeft, .shiftRight, .add, .sub, .mul, .div, .mod] := rfl

end IdlFrontend
