import IdlFrontend.Text.Basic

/-!
# Lexemes

The units that the preprocessor works on. A source text is cut into lexemes
without loss: blanks, line feeds and comments are lexemes too. Lexemes are
grouped into logical lines, each of which ends with its line feed.

Results:

* `text_flatten_scanFrom`: the texts of the lexemes are the source text, one
  after the other.
* `flatten_lines`: the logical lines are the lexemes, one after the other.
-/

namespace IdlFrontend

/-- The kinds of lexemes. Model of `PpTokenKind`. -/
inductive LexemeKind where
  | word
  | number
  | string
  | character
  | punctuation
  | space
  | newline
  | comment
deriving DecidableEq, Repr

/-- A stretch of source text with its kind and the line it begins on. Model of `PpToken`. -/
structure Lexeme where
  kind : LexemeKind
  text : Text
  line : Nat
deriving DecidableEq, Repr

namespace Lexeme

/-- Space, line feeds and comments mean nothing to directives. Model of `is_blank`. -/
def isBlank (t : Lexeme) : Bool :=
  t.kind == .space || t.kind == .newline || t.kind == .comment

/-- Whether the lexeme is the punctuation character `c`. Model of `is_punct`. -/
def isPunct (t : Lexeme) (c : Char) : Bool := t.kind == .punctuation && t.text == [c]

/-- A single space on the given line. -/
def spaceAt (line : Nat) : Lexeme := ⟨.space, [' '], line⟩

/-! ## Cutting a text into lexemes -/

/-- A character of a run of space. A carriage return is one: by the time lexemes
    are cut, only line feeds end lines. -/
def isSpace (c : Char) : Bool := IdlFrontend.isBlank c || c == '\r'

/-- The number of characters up to the end of a block comment, its end mark
    included. A comment that is never closed extends to the end of the text. -/
def blockCommentLength : Text → Nat
  | '*' :: '/' :: _ => 2
  | _ :: cs => blockCommentLength cs + 1
  | [] => 0

/-- The number of characters that continue a number whose last character so far
    is `last`. A sign belongs to the number right after an exponent letter. -/
def numberLength (last : Char) : Text → Nat
  | [] => 0
  | c :: cs =>
    if (c == '+' || c == '-') && (last == 'e' || last == 'E' || last == 'p' || last == 'P') then
      numberLength c cs + 1
    else if isWordPart c || c == '.' then numberLength c cs + 1
    else 0

/-- The number of characters after an opening quote, the closing quote included. A literal that is
    not closed on its line ends before the line feed. Model of `scan_quoted`. -/
def quotedLength (quote : Char) : Text → Nat
  | [] => 0
  | '\n' :: _ => 0
  | '\\' :: '\n' :: _ => 1
  | '\\' :: _ :: cs => quotedLength quote cs + 2
  | c :: cs => if c == quote then 1 else quotedLength quote cs + 1

/-- The kind of the lexeme that begins with `c`, and the number of the following
    characters that belong to it. -/
def extent (c : Char) (cs : Text) : LexemeKind × Nat :=
  match c, cs with
  | '\n', _ => (.newline, 0)
  | '/', '*' :: rest => (.comment, blockCommentLength rest + 1)
  | '/', '/' :: rest => (.comment, (rest.takeWhile (· != '\n')).length + 1)
  | '"', cs => (.string, quotedLength '"' cs)
  | '\'', cs => (.character, quotedLength '\'' cs)
  | '#', '#' :: _ => (.punctuation, 1)
  | c, cs =>
    if isSpace c then (.space, (cs.takeWhile isSpace).length)
    else if isWordStart c then (.word, (cs.takeWhile isWordPart).length)
    else if c.isDigit || (c == '.' && cs.head?.any Char.isDigit) then (.number, numberLength c cs)
    else (.punctuation, 0)

/-- The lexemes of a text whose first character stands on the given line. Model of the loop of
    `tokenize`. -/
def scanFrom (line : Nat) : Text → List Lexeme
  | [] => []
  | c :: cs =>
    let (kind, n) := extent c cs
    let text := c :: cs.take n
    ⟨kind, text, line⟩ :: scanFrom (line + text.count '\n') (cs.drop n)
termination_by cs => cs.length
decreasing_by simp only [List.length_drop, List.length_cons]; omega

/-- The lexemes of a text. Model of `tokenize`. -/
def scan (cs : Text) : List Lexeme := scanFrom 1 cs

/-! ## Lines of lexemes -/

/-- The lexemes grouped into lines. Every line but possibly the last ends with its line feed.
    Model of `group_lines`. -/
def lines : List Lexeme → List (List Lexeme)
  | [] => []
  | t :: ts =>
    if t.kind = .newline then [t] :: lines ts
    else match lines ts with
      | [] => [[t]]
      | line :: rest => (t :: line) :: rest

/-- The lexemes without the blank ones at either end. Model of `strip_blank`. -/
def stripBlank (ts : List Lexeme) : List Lexeme :=
  ((ts.dropWhile isBlank).reverse.dropWhile isBlank).reverse

/-- The same lexemes, all on the given line. Model of `restamp`. -/
def restamp (line : Nat) (ts : List Lexeme) : List Lexeme :=
  ts.map fun t => { t with line }

theorem text_flatten_scanFrom (line : Nat) (cs : Text) :
    ((scanFrom line cs).map Lexeme.text).flatten = cs := by
  fun_induction scanFrom line cs with
  | case1 => rfl
  | case2 line c cs kind n h text ih =>
    simp only [List.map_cons, List.flatten_cons, ih, text, List.cons_append,
      List.take_append_drop]

theorem flatten_lines (ts : List Lexeme) : (lines ts).flatten = ts := by
  fun_induction lines ts with
  | case1 => rfl
  | case2 t ts _ ih => simp [ih]
  | case3 t ts _ hnil ih => rw [hnil] at ih; simp [← ih]
  | case4 t ts _ line rest hcons ih => rw [hcons] at ih; simp [← ih]

theorem length_stripBlank_le (ts : List Lexeme) : (stripBlank ts).length ≤ ts.length := by
  have h (l : List Lexeme) : (l.dropWhile isBlank).length ≤ l.length :=
    (List.dropWhile_suffix isBlank).length_le
  rw [stripBlank, List.length_reverse]
  have h₁ := h (ts.dropWhile isBlank).reverse
  rw [List.length_reverse] at h₁
  exact Nat.le_trans h₁ (h ts)

end Lexeme

end IdlFrontend
