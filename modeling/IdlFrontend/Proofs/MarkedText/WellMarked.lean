import IdlFrontend.Preprocess.MarkedText
import IdlFrontend.Proofs.Lexeme.LineEnds

/-!
# Where the parts of an output stand

A marker is written only at the start of a line, and a space never there. The line
number of a marker is that of a lexeme, so it fits 64 bits if the lexemes' do. No
lexeme that is written ends a line, which is how the position of the reader comes to
say whether a line begins.

Results:

* `WellMarked.push`: writing lexemes keeps the parts in their places.
* `WellMarked.fits`: a part of the output fits what is written before it.
-/

namespace IdlFrontend

/-- The text is at the end of a line, or empty. -/
def EndsLine (cs : Text) : Prop := cs = [] ∨ cs.getLast? = some '\n'

theorem endsLine_append_feed (cs : Text) : EndsLine (cs ++ ['\n']) :=
  Or.inr List.getLast?_concat

namespace Lexeme

/-- A whole lexeme on a line whose number fits 64 bits. -/
def Proper (t : Lexeme) : Prop := IsWhole t.kind t.text ∧ t.line < unsignedLimit

/-- A line does not end behind a lexeme that is not blank. -/
theorem not_endsLine_append {t : Lexeme} (h : IsWhole t.kind t.text) (hblank : t.isBlank = false)
    (read : Text) : ¬EndsLine (read ++ t.text) := by
  rintro (hnil | hlast)
  · exact h.ne_nil (List.append_eq_nil_iff.1 hnil).2
  · rw [List.getLast?_append, List.getLast?_eq_some_getLast h.ne_nil, Option.some_or,
      ← List.getLast?_eq_some_getLast h.ne_nil] at hlast
    obtain ⟨hreturn, -⟩ := literal_of_isLineEnd h (isBlank_eq_false_iff.1 hblank)
      (List.mem_of_getLast? hlast) rfl
    exact absurd hreturn (by decide)

end Lexeme

/-- The part may stand behind the text `read`: a marker only at the start of a line, a
    space only inside one, and no blank lexemes anywhere. -/
def Piece.Fits (read : Text) : Piece → Prop
  | .marker line _ => EndsLine read ∧ line < unsignedLimit
  | .lineFeed => True
  | .space => ¬EndsLine read
  | .lexeme t => Lexeme.IsWhole t.kind t.text ∧ t.isBlank = false

/-- All parts may stand where they stand behind the text `read`. -/
def PiecesFit (read : Text) : List Piece → Prop
  | [] => True
  | p :: ps => p.Fits read ∧ PiecesFit (read ++ p.text) ps

theorem piecesFit_append {read : Text} {ps qs : List Piece} :
    PiecesFit read (ps ++ qs) ↔ PiecesFit read ps ∧
      PiecesFit (read ++ ps.flatMap Piece.text) qs := by
  induction ps generalizing read with
  | nil => simp [PiecesFit]
  | cons p ps ih => simp [PiecesFit, ih, and_assoc]

theorem piecesFit_singleton {read : Text} {p : Piece} : PiecesFit read [p] ↔ p.Fits read :=
  and_iff_left trivial

namespace Cursor

variable {c : Cursor} {read : Text}

/-- The marker before a lexeme, if one is needed, and where the reader is then. -/
theorem piecesFit_synchronize (hread : c.atLineStart ↔ EndsLine read) {line : Nat}
    (hline : line < unsignedLimit) (file : Text) :
    PiecesFit read (c.synchronize file line).1 ∧ ((c.synchronize file line).2.atLineStart ↔
      EndsLine (read ++ (c.synchronize file line).1.flatMap Piece.text)) := by
  have hmarked (cs : Text) : EndsLine (cs ++ marker line file) := by
    have hfeed : marker line file = ("# ".toList ++ Text.ofNat line ++ " \"".toList ++
      escapeName file ++ ['"']) ++ ['\n'] := by simp [marker]
    rw [hfeed, ← List.append_assoc]
    exact endsLine_append_feed _
  unfold synchronize
  split
  · exact ⟨trivial, by simpa using hread⟩
  · cases hstart : c.atLineStart with
    | true =>
      refine ⟨piecesFit_singleton.2 ⟨hread.1 hstart, hline⟩, iff_of_true rfl ?_⟩
      simpa [Piece.text] using hmarked read
    | false =>
      refine ⟨⟨trivial, ⟨endsLine_append_feed read, hline⟩, trivial⟩, iff_of_true rfl ?_⟩
      simpa [Piece.text] using hmarked (read ++ ['\n'])

theorem piecesFit_write (hread : c.atLineStart ↔ EndsLine read) {t : Lexeme} (ht : t.Proper)
    (file : Text) :
    PiecesFit read (c.write file t).1 ∧ ((c.write file t).2.atLineStart ↔
      EndsLine (read ++ (c.write file t).1.flatMap Piece.text)) := by
  unfold write
  split
  · split
    · exact ⟨piecesFit_singleton.2 trivial, iff_of_true rfl (endsLine_append_feed read)⟩
    · exact ⟨trivial, by simpa using hread⟩
  · exact ⟨trivial, by simpa using hread⟩
  · exact ⟨trivial, by simpa using hread⟩
  next hnewline hspace hcomment =>
    have hblank := Lexeme.isBlank_eq_false_iff.2 ⟨hspace, hnewline, hcomment⟩
    obtain ⟨hmark, hstart⟩ := piecesFit_synchronize hread ht.2 file
    dsimp only
    generalize c.synchronize file t.line = synchronized at hmark hstart
    obtain ⟨mark, c'⟩ := synchronized
    constructor
    · rw [List.append_assoc, piecesFit_append]
      refine ⟨hmark, piecesFit_append.2 ⟨?_, piecesFit_singleton.2 ⟨ht.1, hblank⟩⟩⟩
      split
      next hgap =>
        rw [Bool.and_eq_true, Bool.not_eq_true'] at hgap
        refine piecesFit_singleton.2 fun hend => ?_
        rw [← hstart, hgap.2] at hend
        cases hend
      · trivial
    · refine iff_of_false (by simp) ?_
      rw [List.flatMap_append, List.flatMap_singleton, ← List.append_assoc]
      exact Lexeme.not_endsLine_append ht.1 hblank _

theorem piecesFit_writeAll (hread : c.atLineStart ↔ EndsLine read) {ts : List Lexeme}
    (hts : ∀ t ∈ ts, t.Proper) (file : Text) :
    PiecesFit read (c.writeAll file ts).1 ∧ ((c.writeAll file ts).2.atLineStart ↔
      EndsLine (read ++ (c.writeAll file ts).1.flatMap Piece.text)) := by
  induction ts generalizing c read with
  | nil => exact ⟨trivial, by simpa [writeAll] using hread⟩
  | cons t ts ih =>
    rw [List.forall_mem_cons] at hts
    obtain ⟨hfirst, hafter⟩ := piecesFit_write hread hts.1 file
    obtain ⟨hrest, hend⟩ := ih hafter hts.2
    refine ⟨piecesFit_append.2 ⟨hfirst, hrest⟩, ?_⟩
    rwa [List.append_assoc, ← List.flatMap_append] at hend

end Cursor

namespace MarkedText

/-- The parts are in their places, and the reader knows where a line starts. -/
structure WellMarked (out : MarkedText) : Prop where
  pieces : PiecesFit [] out.pieces
  lineStart : out.cursor.atLineStart ↔ EndsLine out.text

theorem wellMarked_empty : WellMarked {} := ⟨trivial, iff_of_true rfl (Or.inl rfl)⟩

theorem WellMarked.push {out : MarkedText} (h : out.WellMarked) {ts : List Lexeme}
    (hts : ∀ t ∈ ts, t.Proper) (file : Text) : (out.push file ts).WellMarked := by
  obtain ⟨hpieces, hstart⟩ := Cursor.piecesFit_writeAll h.lineStart hts file
  refine ⟨piecesFit_append.2 ⟨h.pieces, ?_⟩, ?_⟩
  · rwa [List.nil_append]
  · rw [text_push]
    exact hstart

/-- A part of the output fits what is written before it. -/
theorem WellMarked.fits {out : MarkedText} (h : out.WellMarked) {before after : List Piece}
    {p : Piece} (hpieces : out.pieces = before ++ p :: after) :
    p.Fits (before.flatMap Piece.text) := by
  have hall := h.pieces
  rw [hpieces, piecesFit_append, List.nil_append] at hall
  exact hall.2.1

end MarkedText

end IdlFrontend
