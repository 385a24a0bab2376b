import IdlFrontend.Token.Keyword

/-!
# Tokens

The words of the language as the parser sees them: a kind, the text that was
read, and the line it begins on.

Results:

* `Punct.mem_all`, `Punct.text_injective`: every punctuation token is
  listed, and no two are spelled alike.
-/

namespace IdlFrontend

/-- Punctuation and operators. -/
inductive Punct where
  | colon
  | scope
  | semicolon
  | comma
  | openBrace
  | closeBrace
  | openParen
  | closeParen
  | openBracket
  | closeBracket
  | less
  | greater
  | shiftLeft
  | shiftRight
  | equal
  | question
  | ellipsis
  | pipe
  | caret
  | ampersand
  | plus
  | minus
  | asterisk
  | slash
  | percent
  | tilde
deriving DecidableEq, Repr

namespace Punct

/-- Every punctuation token once. -/
def all : List Punct :=
  [.scope, .shiftLeft, .shiftRight, .ellipsis, .colon, .semicolon, .comma, .openBrace,
    .closeBrace, .openParen, .closeParen, .openBracket, .closeBracket, .less, .greater, .equal,
    .question, .pipe, .caret, .ampersand, .plus, .minus, .asterisk, .slash, .percent, .tilde]

/-- The first character of a punctuation token, and the others. -/
def spelling : Punct → Char × Text
  | .colon => (':', [])
  | .scope => (':', [':'])
  | .semicolon => (';', [])
  | .comma => (',', [])
  | .openBrace => ('{', [])
  | .closeBrace => ('}', [])
  | .openParen => ('(', [])
  | .closeParen => (')', [])
  | .openBracket => ('[', [])
  | .closeBracket => (']', [])
  | .less => ('<', [])
  | .greater => ('>', [])
  | .shiftLeft => ('<', ['<'])
  | .shiftRight => ('>', ['>'])
  | .equal => ('=', [])
  | .question => ('?', [])
  | .ellipsis => ('.', ['.', '.'])
  | .pipe => ('|', [])
  | .caret => ('^', [])
  | .ampersand => ('&', [])
  | .plus => ('+', [])
  | .minus => ('-', [])
  | .asterisk => ('*', [])
  | .slash => ('/', [])
  | .percent => ('%', [])
  | .tilde => ('~', [])

/-- The characters of a punctuation token. -/
def text (p : Punct) : Text := p.spelling.1 :: p.spelling.2

theorem mem_all (p : Punct) : p ∈ all := by cases p <;> decide

theorem text_injective {p q : Punct} (h : p.text = q.text) : p = q := by
  have distinct : ∀ p ∈ all, ∀ q ∈ all, p.text = q.text → p = q := by decide
  exact distinct p (mem_all p) q (mem_all q) h

end Punct

/-- The kinds of tokens. -/
inductive TokenKind where
  | keyword (word : Keyword)
  | identifier
  | integer
  | floating
  | fixedPoint
  | character
  | string
  /-- The text behind the key of a property, its parentheses included. -/
  | propertyArgs
  /-- The text between the parentheses of a native declaration. -/
  | nativeType
  /-- The text between the marks of a code fragment. -/
  | fragment
  | punct (p : Punct)
deriving DecidableEq, Repr

/-- How messages call a kind of token. -/
def TokenKind.description : TokenKind → String
  | .keyword word => s!"keyword '{word.spelling}'"
  | .identifier => "identifier"
  | .integer => "integer literal"
  | .floating => "floating-point literal"
  | .fixedPoint => "fixed-point literal"
  | .character => "character literal"
  | .string => "string literal"
  | .propertyArgs => "property arguments"
  | .nativeType => "native type"
  | .fragment => "code fragment"
  | .punct p => s!"'{String.ofList p.text}'"

/-- A token. Lines are numbered in words of 64 bits. -/
structure Token where
  kind : TokenKind
  text : Text
  line : UInt64
deriving DecidableEq, Repr

end IdlFrontend
