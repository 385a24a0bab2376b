import IdlFrontend.Grammar.Parser

/-!
# Names and constant expressions

    name    = ["::"] identifier ("::" identifier)*
    expr    = xor ("|" xor)*
    xor     = and ("^" and)*
    and     = shift ("&" shift)*
    shift   = sum (("<<" | ">>") sum)*
    sum     = product (("+" | "-") product)*
    product = unary (("*" | "/" | "%") unary)*
    unary   = ["-" | "+" | "~"] primary
    primary = name | literal | string+ | "(" expr ")"

Within an open template bracket `>>` is no operator, since it closes two of them.
Parentheses make it one again.
-/

namespace IdlFrontend

/-- The text of a quoted literal without its quotes. Model of `unquote`. -/
def quotedBody (cs : Text) : Text := (cs.drop 1).dropLast

namespace Parser

/-- A segment of a scoped name behind the first one. -/
def nextSegment : Parser (Option Text) := do
  if ← acceptPunct .scope then return some (← identifier "after '::'") else return none

/-- A scoped name. Model of `parse_scoped_name`. -/
def scopedName : Parser ScopedName := do
  let absolute ← acceptPunct .scope
  let first ← identifier "in scoped name"
  return .ofFirst absolute first (← many nextSegment)

/-- Scoped names with commas between them. Model of `parse_scoped_name_list`. -/
def scopedNames : Parser (List ScopedName) := commaList scopedName

/-- Takes the next token if it is one of the operators. Model of `match_binary_operator`. -/
def operator? (ops : List BinaryOp) : Parser (Option BinaryOp) := do
  let kind? ← kind?
  match ops.find? fun op => kind? == some (.punct op.punct) with
  | none => return none
  | some op =>
    if op = .shiftRight ∧ 0 < (← get).openAngles then return none
    let _ ← take
    return some op

/-- An operator of a level, and the operand behind it. -/
def nextOperand (tight : Parser ConstExpr) (ops : List BinaryOp) :
    Parser (Option (BinaryOp × ConstExpr)) := do
  match ← operator? ops with
  | none => return none
  | some op => return some (op, ← tight)

/-- An operand of the tightest of the given levels, or such operands with operators between them,
    those of the first level last. Model of `parse_binary`. -/
def leftGrouped (operand : Parser ConstExpr) : List (List BinaryOp) → Parser ConstExpr
  | [] => operand
  | ops :: tighter => do
    let tight := leftGrouped operand tighter
    let first ← tight
    let more ← many (nextOperand tight ops)
    return more.foldl (fun lhs (op, rhs) => .binary op lhs rhs) first

/-- A string literal behind another one. -/
def nextString : Parser (Option Token) := do
  if ← isNext .string then return some (← take) else return none

/-- String literals that stand next to each other. Model of `parse_string_literal`. -/
def strings : Parser ConstExpr := do
  let first ← expect .string "for string literal"
  let more ← many nextString
  let literal (t : Token) : ConstExpr := .literal (.string (quotedBody t.text))
  return more.foldl (fun lhs t => .concat lhs (literal t)) (literal first)

/-- The literal that a token is, if it is one. -/
def literal? (t : Token) : Option Literal :=
  match t.kind with
  | .integer => some (.integer t.text)
  | .floating => some (.floating t.text)
  | .fixedPoint => some (.fixedPoint t.text)
  | .string => some (.string (quotedBody t.text))
  | .character => some (.character (quotedBody t.text))
  | .keyword .true => some (.boolean true)
  | .keyword .false => some (.boolean false)
  | _ => none

/-- An operand that needs no parentheses, or any expression in parentheses. Model of
    `parse_primary`. -/
def primary (expr : Parser ConstExpr) : Parser ConstExpr := do
  let t ← peek
  match t.kind with
  | .identifier | .punct .scope => return .name (← scopedName)
  | .punct .openParen =>
    let _ ← take
    let inner ← shielded expr
    expectPunct .closeParen "to close expression"
    return inner
  | .string => strings
  | _ => match literal? t with
    | none => unexpected .expression
    | some literal =>
      let _ ← take
      return .literal literal

/-- The operator before an operand that a kind of token is, if it is one. -/
def unaryOp? : TokenKind → Option UnaryOp
  | .punct .minus => some .negate
  | .punct .plus => some .plus
  | .punct .tilde => some .invert
  | _ => none

/-- A primary expression with at most one operator before it. Model of `parse_unary`. -/
def unary (expr : Parser ConstExpr) : Parser ConstExpr := do
  match (← kind?).bind unaryOp? with
  | none => primary expr
  | some op =>
    let _ ← take
    return .unary op (← primary expr)

/-- A round of the nesting of constant expressions. -/
def expressionRound (expr : Unit → Parser ConstExpr) (_ : Unit) : Parser ConstExpr :=
  leftGrouped (unary (expr ())) BinaryOp.levels

/-- A constant expression. Model of `parse_const_expr`. -/
def constExpr : Parser ConstExpr := recurse expressionRound ()

end Parser

end IdlFrontend
