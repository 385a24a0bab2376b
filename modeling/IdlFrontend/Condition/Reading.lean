import IdlFrontend.Condition.Expr
import IdlFrontend.Text.WhiteSpace
import IdlFrontend.Text.Numeral

/-!
# Reading conditions

A condition is cut into numbers, names and marks, and read by a grammar with ten
levels of infix operators, all of them grouping to the left:

    expr    := or ("?" expr ":" expr)?
    or      := and ("||" and)*
    and     := bitor ("&&" bitor)*
    bitor   := bitxor ("|" bitxor)*
    bitxor  := bitand ("^" bitand)*
    bitand  := equal ("&" equal)*
    equal   := rel (("==" | "!=") rel)*
    rel     := shift (("<" | ">" | "<=" | ">=") shift)*
    shift   := add (("<<" | ">>") add)*
    add     := mul (("+" | "-") mul)*
    mul     := unary (("*" | "/" | "%") unary)*
    unary   := ("!" | "~" | "-" | "+") unary | primary
    primary := number | character | name | "(" expr ")"

Results:

* `chain_of_no_operator`: an operand that no operator of its level follows is
  the whole expression of that level.
-/

namespace IdlFrontend.Condition

/-! ## Tokens -/

/-- A token of a condition. Model of `Tok`. -/
inductive Token where
  | number (value : Int64)
  | name
  | mark (mark : Mark)
deriving DecidableEq

/-- The number that a run of letters and digits denotes. Trailing letters `u` and `l` of either
    case are ignored; `0x` begins a hexadecimal number and `0` an octal one. The number has to fit
    a signed word. Model of `scan_number`. -/
def readNumber (text : Text) : Except ConditionError Int64 :=
  let digits := Text.trimEnd (fun c => c == 'u' || c == 'U' || c == 'l' || c == 'L') text
  let value := match digits with
    | '0' :: 'x' :: hex => Text.ofDigits? 16 hex
    | '0' :: 'X' :: hex => Text.ofDigits? 16 hex
    | '0' :: d :: octal => Text.ofDigits? 8 (d :: octal)
    | decimal => Text.ofDigits? 10 decimal
  match value with
  | some n => if n < signedLimit then .ok (Int64.ofNat n) else .error (.invalidNumber text)
  | none => .error (.invalidNumber text)

/-- The character that a backslash before `c` denotes. -/
def unescape : Char → Char
  | 'n' => '\n'
  | 't' => '\t'
  | 'r' => '\r'
  | '0' => '\x00'
  | c => c

/-- The character of a constant, and what follows the constant. The text begins behind the opening
    quote. Model of `scan_char`. -/
def readCharacter : Text → Option (Char × Text)
  | '\\' :: c :: '\'' :: cs => some (unescape c, cs)
  | '\\' :: _ => none
  | c :: '\'' :: cs => some (c, cs)
  | _ => none

theorem readCharacter_length {cs rest : Text} {c : Char} (h : readCharacter cs = some (c, rest)) :
    rest.length < cs.length := by
  unfold readCharacter at h
  split at h
  · cases h
    simp only [List.length_cons]
    omega
  · cases h
  · cases h
    simp only [List.length_cons]
    omega
  · cases h

/-- The tokens of a condition. Model of `scan`. -/
def scan : Text → Except ConditionError (List Token)
  | [] => .ok []
  | c :: cs =>
    if isWhiteSpace c then scan cs
    else if c.isDigit then
      match readNumber (c :: cs.takeWhile Char.isAlphanum) with
      | .error e => .error e
      | .ok value => (scan (cs.dropWhile Char.isAlphanum)).map (.number value :: ·)
    else if isWordStart c then (scan (cs.dropWhile isWordPart)).map (.name :: ·)
    else if c = '\'' then
      match _h : readCharacter cs with
      | none => .error .unterminatedCharacter
      | some (d, rest) => (scan rest).map (.number (Int64.ofNat d.toNat) :: ·)
    else
      match Mark.all.find? fun m => m.spelling.toList.isPrefixOf (c :: cs) with
      | none => .error (.unexpectedCharacter c)
      | some mark => (scan (cs.drop (mark.spelling.length - 1))).map (.mark mark :: ·)
termination_by cs => cs.length
decreasing_by
  · simp
  · have := (List.dropWhile_suffix Char.isAlphanum (l := cs)).length_le
    simp only [List.length_cons]
    omega
  · have := (List.dropWhile_suffix isWordPart (l := cs)).length_le
    simp only [List.length_cons]
    omega
  · have := readCharacter_length _h
    simp only [List.length_cons]
    omega
  · simp only [List.length_drop, List.length_cons]
    omega

/-! ## Grammar -/

/-- What reads an expression off the front of a list of tokens. -/
abbrev Reader := List Token → Except ConditionError (Expr × List Token)

/-- The prefix operator that a mark denotes. -/
def UnaryOp.ofMark? : Mark → Option UnaryOp
  | .bang => some .not
  | .tilde => some .complement
  | .minus => some .negate
  | .plus => some .plus
  | _ => none

/-- The infix operators of each level with their marks, loosest level first. Model of `LEVELS`. -/
def levels : List (List (Mark × BinaryOp)) :=
  [[(.orElse, .or)], [(.andAlso, .and)], [(.bar, .bitOr)], [(.caret, .bitXor)],
    [(.ampersand, .bitAnd)], [(.equal, .eq), (.unequal, .ne)],
    [(.less, .lt), (.greater, .gt), (.lessEqual, .le), (.greaterEqual, .ge)],
    [(.shiftLeft, .shl), (.shiftRight, .shr)], [(.plus, .add), (.minus, .sub)],
    [(.star, .mul), (.slash, .div), (.percent, .mod)]]

/-- A number, a name or an expression in parentheses. Model of `parse_primary`. -/
def primary (expr : Reader) : Reader
  | [] => .error .unexpectedEnd
  | .number value :: ts => .ok (.number value, ts)
  | .name :: ts => .ok (.name, ts)
  | .mark .openParen :: ts => do
    match ← expr ts with
    | (inner, .mark .closeParen :: rest) => return (inner, rest)
    | _ => throw .missingParenthesis
  | .mark mark :: _ => .error (.unexpectedMark mark)

/-- An operand behind any number of prefix operators. Model of `parse_unary`. -/
def unary (expr : Reader) : Reader
  | .mark mark :: ts =>
    match UnaryOp.ofMark? mark with
    | some op => (unary expr ts).map fun (operand, rest) => (.unary op operand, rest)
    | none => primary expr (.mark mark :: ts)
  | ts => primary expr ts

/-- The operators and operands of one level that follow the operand `left`, at
    most `count` of them. -/
def chain (operators : List (Mark × BinaryOp)) (operand : Reader) :
    (count : Nat) → (left : Expr) → Reader
  | count + 1, left, .mark mark :: ts =>
    match operators.lookup mark with
    | some op => do
      let (right, rest) ← operand ts
      chain operators operand count (.binary op left right) rest
    | none => .ok (left, .mark mark :: ts)
  | _, left, ts => .ok (left, ts)

/-- An expression of the given levels, loosest level first. A level is left when no token is left
    to be one of its operators. Model of `parse_level`. -/
def binary (expr : Reader) : List (List (Mark × BinaryOp)) → Reader
  | [] => unary expr
  | operators :: tighter => fun ts => do
    let (left, rest) ← binary expr tighter ts
    chain operators (binary expr tighter) rest.length left rest

/-- An expression that may be a choice. Model of `parse_ternary`. -/
def choice (expr : Reader) : Reader := fun ts => do
  match ← binary expr levels ts with
  | (condition, .mark .question :: rest) =>
    match ← expr rest with
    | (yes, .mark .colon :: rest) =>
      let (no, rest) ← expr rest
      return (.choice condition yes no, rest)
    | _ => throw .missingColon
  | result => return result

/-- An expression that is nested at most `depth` deep. Every level of nesting
    takes a token, so a list of tokens is nested no deeper than it is long. -/
def expr : (depth : Nat) → Reader
  | 0 => fun _ => .error .unexpectedEnd
  | depth + 1 => choice (expr depth)

/-- The condition that a text spells. -/
def read (cs : Text) : Except ConditionError Expr := do
  let tokens ← scan cs
  match ← expr (tokens.length + 1) tokens with
  | (e, []) => return e
  | _ => throw .trailingTokens

/-- The value of the condition that a text spells. Model of `evaluate`. -/
def evaluate (cs : Text) : Except ConditionError Int64 := do (← read cs).eval

theorem chain_of_no_operator {operators : List (Mark × BinaryOp)} (operand : Reader)
    (count : Nat) (left : Expr) {mark : Mark} (ts : List Token)
    (h : operators.lookup mark = none) :
    chain operators operand count left (.mark mark :: ts) = .ok (left, .mark mark :: ts) := by
  cases count with
  | zero => rfl
  | succ count => rw [chain, h]

end IdlFrontend.Condition
