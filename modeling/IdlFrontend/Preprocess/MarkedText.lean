import IdlFrontend.Source.Lexeme
import IdlFrontend.Text.Numeral

/-!
# Preprocessed text with line markers

Preprocessed lexemes are written one after the other. A reader of the output
counts lines; where the next lexeme does not stand on the line, or in the file,
that the reader would assume, a marker line `# N "file"` tells it. The reader counts in
words of 64 bits, as the lexer does. Runs of blank lexemes become a single space.

Results:

* `writeAll_append`, `push_append`: writing is done lexeme by lexeme.
* `text_push`: what is written before stays as it is.
-/

namespace IdlFrontend

/-! ## Source names in markers -/

/-- A control character by its code, in four hexadecimal digits. -/
def escapeByCode (c : Char) : Text :=
  '\\' :: 'u' :: List.leftpad 4 '0' (Nat.toDigits 16 c.toNat)

/-- How a character of a source name is written in a marker: control characters,
    the backslash and U+00FF are escaped. -/
def escapeChar : Char → Text
  | '\x07' => "\\a".toList
  | '\x08' => "\\b".toList
  | '\x0c' => "\\f".toList
  | '\n' => "\\n".toList
  | '\r' => "\\r".toList
  | '\t' => "\\t".toList
  | '\x0b' => "\\v".toList
  | c => if c.toNat < 0x20 || c == '\\' || c == 'ÿ' then escapeByCode c else [c]

/-- A source name as it is written in a marker. Model of `escape_source_name`. -/
def escapeName (name : Text) : Text := name.flatMap escapeChar

/-- The line that tells a reader that the next line is line `line` of `file`. -/
def marker (line : Nat) (file : Text) : Text :=
  "# ".toList ++ Text.ofNat line ++ " \"".toList ++ escapeName file ++ "\"\n".toList

/-! ## Writing -/

/-- A part of the output. -/
inductive Piece where
  /-- A marker line for a line of a file. -/
  | marker (line : Nat) (file : Text)
  | lineFeed
  | space
  | lexeme (t : Lexeme)
deriving DecidableEq, Repr

/-- The characters of a part of the output. -/
def Piece.text : Piece → Text
  | .marker line file => IdlFrontend.marker line file
  | .lineFeed => ['\n']
  | .space => [' ']
  | .lexeme t => t.text

/-- What a reader of the output so far assumes about the next lexeme. Model of `LineSync` without
    its text. -/
structure Cursor where
  /-- The file of the last marker; `none` before the first one. -/
  file : Option Text := none
  /-- The line number of the current output line. -/
  line : Nat := 0
  atLineStart : Bool := true
  /-- A blank has been read since the last lexeme was written. -/
  pendingSpace : Bool := false
deriving DecidableEq, Repr

namespace Cursor

/-- The number of the line behind a line, in a word of 64 bits: line 0 comes behind the
    line with the largest number. -/
def nextLine (line : Nat) : Nat := (line + 1) % unsignedLimit

/-- The marker that has to be written before a lexeme on the given line of `file`, if one is
    needed, and where the reader is then. Model of `write_marker` and of the test before it. -/
def synchronize (c : Cursor) (file : Text) (line : Nat) : List Piece × Cursor :=
  if c.file = some file ∧ c.line = line then ([], c)
  else
    ((if c.atLineStart then [] else [.lineFeed]) ++ [.marker line file],
      { c with file := some file, line, atLineStart := true })

/-- What is written for a lexeme of `file`, and where the reader is then. Nothing is written
    before the first lexeme that is not blank. Model of `push`. -/
def write (c : Cursor) (file : Text) (t : Lexeme) : List Piece × Cursor :=
  match t.kind with
  | .newline =>
    if c.file.isSome then
      ([.lineFeed],
        { c with line := nextLine c.line, atLineStart := true, pendingSpace := false })
    else ([], c)
  | .space | .comment => ([], { c with pendingSpace := true })
  | _ =>
    let (mark, c) := c.synchronize file t.line
    (mark ++ (if c.pendingSpace && !c.atLineStart then [.space] else []) ++ [.lexeme t],
      { c with atLineStart := false, pendingSpace := false })

/-- What is written for lexemes of `file`, and where the reader is then. Model of `push_all`. -/
def writeAll (c : Cursor) (file : Text) : List Lexeme → List Piece × Cursor
  | [] => ([], c)
  | t :: ts =>
    let (pieces, c) := c.write file t
    let (rest, c) := c.writeAll file ts
    (pieces ++ rest, c)

theorem writeAll_append (c : Cursor) (file : Text) (ts us : List Lexeme) :
    c.writeAll file (ts ++ us) =
      ((c.writeAll file ts).1 ++ ((c.writeAll file ts).2.writeAll file us).1,
        ((c.writeAll file ts).2.writeAll file us).2) := by
  induction ts generalizing c with
  | nil => rfl
  | cons t ts ih => simp [writeAll, ih]

end Cursor

/-- Output with the position of its reader. Model of `LineSync`. -/
structure MarkedText where
  pieces : List Piece := []
  cursor : Cursor := {}
deriving DecidableEq, Repr

namespace MarkedText

/-- The characters of the output. Model of `finish`. -/
def text (out : MarkedText) : Text := out.pieces.flatMap Piece.text

/-- The output after lexemes of `file` have been written. -/
def push (out : MarkedText) (file : Text) (ts : List Lexeme) : MarkedText :=
  let (pieces, cursor) := out.cursor.writeAll file ts
  ⟨out.pieces ++ pieces, cursor⟩

theorem text_push (out : MarkedText) (file : Text) (ts : List Lexeme) :
    (out.push file ts).text = out.text ++ (out.cursor.writeAll file ts).1.flatMap Piece.text := by
  simp [push, text]

theorem push_nil (out : MarkedText) (file : Text) : out.push file [] = out := by
  simp [push, Cursor.writeAll]

theorem push_append (out : MarkedText) (file : Text) (ts us : List Lexeme) :
    out.push file (ts ++ us) = (out.push file ts).push file us := by
  simp [push, Cursor.writeAll_append]

end MarkedText

end IdlFrontend
