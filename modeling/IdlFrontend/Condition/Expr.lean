import IdlFrontend.Text.Basic

/-!
# Conditions

The expressions that `#if` and `#elif` decide on, and their value. Arithmetic is
that of signed 64-bit words: it wraps around, comparisons and logic yield 0 or
1, and a name that no macro replaced counts as 0.

Results:

* `eval_and_of_eq_zero`, `eval_or_of_ne_zero`: the right operand of a logical
  operator is not looked at once the left one has decided.
-/

namespace IdlFrontend.Condition

/-- The prefix operators. -/
inductive UnaryOp where
  | not
  | complement
  | negate
  | plus
deriving DecidableEq, Repr

/-- The infix operators. -/
inductive BinaryOp where
  | or
  | and
  | bitOr
  | bitXor
  | bitAnd
  | eq
  | ne
  | lt
  | gt
  | le
  | ge
  | shl
  | shr
  | add
  | sub
  | mul
  | div
  | mod
deriving DecidableEq, Repr

/-- A condition. -/
inductive Expr where
  | number (value : Int64)
  /-- A name that survived macro expansion. -/
  | name
  | unary (op : UnaryOp) (operand : Expr)
  | binary (op : BinaryOp) (left right : Expr)
  | choice (condition yes no : Expr)
deriving DecidableEq

/-- The marks that conditions are written with. -/
inductive Mark where
  | orElse
  | andAlso
  | equal
  | unequal
  | lessEqual
  | greaterEqual
  | shiftLeft
  | shiftRight
  | bar
  | caret
  | ampersand
  | less
  | greater
  | plus
  | minus
  | star
  | slash
  | percent
  | bang
  | tilde
  | openParen
  | closeParen
  | question
  | colon
deriving DecidableEq, Repr

namespace Mark

/-- The characters of a mark. -/
def spelling : Mark → String
  | .orElse => "||"
  | .andAlso => "&&"
  | .equal => "=="
  | .unequal => "!="
  | .lessEqual => "<="
  | .greaterEqual => ">="
  | .shiftLeft => "<<"
  | .shiftRight => ">>"
  | .bar => "|"
  | .caret => "^"
  | .ampersand => "&"
  | .less => "<"
  | .greater => ">"
  | .plus => "+"
  | .minus => "-"
  | .star => "*"
  | .slash => "/"
  | .percent => "%"
  | .bang => "!"
  | .tilde => "~"
  | .openParen => "("
  | .closeParen => ")"
  | .question => "?"
  | .colon => ":"

/-- Every mark, the longer spellings first. -/
def all : List Mark :=
  [.orElse, .andAlso, .equal, .unequal, .lessEqual, .greaterEqual, .shiftLeft, .shiftRight, .bar,
    .caret, .ampersand, .less, .greater, .plus, .minus, .star, .slash, .percent, .bang, .tilde,
    .openParen, .closeParen, .question, .colon]

theorem mem_all (m : Mark) : m ∈ all := by cases m <;> decide

end Mark

/-- Why a condition has no value. -/
inductive ConditionError where
  | unexpectedCharacter (c : Char)
  | invalidNumber (text : Text)
  | unterminatedCharacter
  | unexpectedEnd
  | unexpectedMark (mark : Mark)
  | missingColon
  | missingParenthesis
  | trailingTokens
  | divisionByZero
  | shiftCount
deriving DecidableEq, Repr

/-- The wording of a reason. -/
def ConditionError.message : ConditionError → String
  | .unexpectedCharacter c => s!"unexpected character '{c}'"
  | .invalidNumber text => s!"invalid number '{String.ofList text}'"
  | .unterminatedCharacter => "unterminated character constant"
  | .unexpectedEnd => "unexpected end of expression"
  | .unexpectedMark mark => s!"unexpected '{mark.spelling}'"
  | .missingColon => "expected ':'"
  | .missingParenthesis => "expected ')'"
  | .trailingTokens => "unexpected trailing tokens"
  | .divisionByZero => "division by zero"
  | .shiftCount => "shift count out of range"

/-- The value of a truth value. -/
def ofBool (b : Bool) : Int64 := if b then 1 else 0

/-- The value of a prefix operator. -/
def UnaryOp.apply : UnaryOp → Int64 → Int64
  | .not, v => ofBool (v == 0)
  | .complement, v => ~~~v
  | .negate, v => -v
  | .plus, v => v

/-- The value of an infix operator whose operands are both evaluated. Division
    truncates and fails for a divisor of zero; a shift fails for a count outside
    of 0 to 63, and a shift to the right keeps the sign. -/
def BinaryOp.apply (op : BinaryOp) (a b : Int64) : Except ConditionError Int64 :=
  match op with
  | .or => .ok (ofBool (a != 0 || b != 0))
  | .and => .ok (ofBool (a != 0 && b != 0))
  | .bitOr => .ok (a ||| b)
  | .bitXor => .ok (a ^^^ b)
  | .bitAnd => .ok (a &&& b)
  | .eq => .ok (ofBool (a == b))
  | .ne => .ok (ofBool (a != b))
  | .lt => .ok (ofBool (a < b))
  | .gt => .ok (ofBool (b < a))
  | .le => .ok (ofBool (a ≤ b))
  | .ge => .ok (ofBool (b ≤ a))
  | .shl => if 0 ≤ b ∧ b < 64 then .ok (a <<< b) else .error .shiftCount
  | .shr => if 0 ≤ b ∧ b < 64 then .ok (a >>> b) else .error .shiftCount
  | .add => .ok (a + b)
  | .sub => .ok (a - b)
  | .mul => .ok (a * b)
  | .div => if b = 0 then .error .divisionByZero else .ok (a / b)
  | .mod => if b = 0 then .error .divisionByZero else .ok (a % b)

namespace Expr

/-- The value of a condition. Operands are evaluated from left to right; the right operand of `&&`
    and `||` and the branches of a choice only if they matter. Model of `eval`. -/
def eval : Expr → Except ConditionError Int64
  | .number value => .ok value
  | .name => .ok 0
  | .unary op operand => do return op.apply (← eval operand)
  | .binary .and left right => do
    if (← eval left) = 0 then return 0
    return ofBool ((← eval right) != 0)
  | .binary .or left right => do
    if (← eval left) ≠ 0 then return 1
    return ofBool ((← eval right) != 0)
  | .binary op left right => do
    let a ← eval left
    op.apply a (← eval right)
  | .choice condition yes no => do
    if (← eval condition) ≠ 0 then eval yes else eval no

theorem eval_and_of_eq_zero {left : Expr} (right : Expr) (h : eval left = .ok 0) :
    eval (.binary .and left right) = .ok 0 := by
  rw [eval, h]
  rfl

theorem eval_or_of_ne_zero {left : Expr} (right : Expr) {v : Int64} (h : eval left = .ok v)
    (hv : v ≠ 0) : eval (.binary .or left right) = .ok 1 := by
  rw [eval, h]
  show (if v ≠ 0 then _ else _) = _
  rw [if_pos hv]
  rfl

end Expr

end IdlFrontend.Condition
