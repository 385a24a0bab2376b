import IdlFrontend.Proofs.Lexeme.Neighbours
import IdlFrontend.Proofs.Lexer.Marker
import IdlFrontend.Proofs.Macro.Spacing
import IdlFrontend.Proofs.MarkedText.Separation
import IdlFrontend.Proofs.MarkedText.WellMarked

/-!
# Lines that are written whole

Where a line of the output begins, the lexemes of one line of a file are written as a line of
their own, behind a marker if one is needed, and with a single space for each run of space. What
is written later leaves it whole if it begins with a line feed, or behind one.

Results:

* `sublist_lines_append`: what leaves the lines of a text whole.
* `Cursor.text_writeAll_oneLine`: what is written for the lexemes of one line.
* `MarkedText.KeepsLines.push_oneLine`: it is a line of the output.
-/

namespace IdlFrontend

open Lexeme

/-! ## The lines of a text -/

theorem splitOn_append_feed (cs ds : Text) :
    (cs ++ '\n' :: ds).splitOn '\n' = cs.splitOn '\n' ++ ds.splitOn '\n' :=
  List.splitOnP_append_cons cs ds rfl

theorem splitOn_of_inline {line : Text} (h : '\n' ∉ line) : line.splitOn '\n' = [line] := by
  have hinline : ∀ l ∈ [line], '\n' ∉ l := List.forall_mem_singleton.2 h
  have hjoined := List.splitOn_intercalate '\n' hinline (List.cons_ne_nil _ _)
  rwa [List.intercalate_singleton] at hjoined

variable {lines : List Text} {cs ds line : Text}

/-- Behind the end of a line, the last line of the text is empty, and counts for nothing. -/
theorem exists_lines_of_endsLine (hend : EndsLine cs) :
    ∃ whole, cs.splitOn '\n' = whole ++ [[]] ∧
      ∀ ds : Text, (cs ++ ds).splitOn '\n' = whole ++ ds.splitOn '\n' := by
  rcases hend with rfl | hlast
  · exact ⟨[], by simp, fun ds => rfl⟩
  · obtain ⟨front, rfl⟩ := List.getLast?_eq_some_iff.1 hlast
    refine ⟨front.splitOn '\n', ?_, fun ds => ?_⟩
    · rw [splitOn_append_feed]
      simp
    · rw [List.append_assoc, List.singleton_append, splitOn_append_feed]

theorem sublist_of_sublist_concat_nil {whole : List Text} (hne : [] ∉ lines)
    (h : lines.Sublist (whole ++ [[]])) : lines.Sublist whole := by
  obtain ⟨front, last, rfl, hfront, hlast⟩ := List.sublist_append_iff.1 h
  cases last with
  | nil => rwa [List.append_nil]
  | cons line last =>
    have hmem := hlast.subset List.mem_cons_self
    cases List.mem_singleton.1 hmem
    simp at hne

/-- Lines of a text stay lines of it if what is written next begins on another line. -/
theorem sublist_lines_append (hne : [] ∉ lines) (h : lines.Sublist (cs.splitOn '\n'))
    (hnext : EndsLine cs ∨ ∀ c ∈ ds.head?, c = '\n') : lines.Sublist ((cs ++ ds).splitOn '\n') := by
  rcases hnext with hend | hfeed
  · obtain ⟨whole, hcs, happend⟩ := exists_lines_of_endsLine hend
    rw [happend]
    rw [hcs] at h
    exact (sublist_of_sublist_concat_nil hne h).trans (List.sublist_append_left _ _)
  · cases ds with
    | nil => rwa [List.append_nil]
    | cons d ds =>
      obtain rfl := hfeed d rfl
      rw [splitOn_append_feed]
      exact h.trans (List.sublist_append_left _ _)

theorem sublist_lines_concat (hne : [] ∉ lines) (h : lines.Sublist (cs.splitOn '\n'))
    (hend : EndsLine cs) (hline : '\n' ∉ line) :
    (lines ++ [line]).Sublist ((cs ++ line).splitOn '\n') := by
  obtain ⟨whole, hcs, happend⟩ := exists_lines_of_endsLine hend
  rw [happend, splitOn_of_inline hline]
  rw [hcs] at h
  exact (sublist_of_sublist_concat_nil hne h).append (List.Sublist.refl _)

/-! ## Where lines begin -/

namespace Cursor

/-- Behind the text `read`, the reader takes the start of a line for one only where it is, and
    before the first marker nothing but the start of a line is possible. -/
structure KnowsLines (c : Cursor) (read : Text) : Prop where
  endsLine : c.atLineStart → EndsLine read
  atLineStart : c.file = none → c.atLineStart

variable {c : Cursor} {read file : Text} {ts : List Lexeme}

theorem KnowsLines.write (h : c.KnowsLines read) (file : Text) (t : Lexeme) :
    (c.write file t).2.KnowsLines (read ++ (c.write file t).1.flatMap Piece.text) := by
  cases hblank : t.isBlank with
  | true =>
    rcases kind_of_isBlank hblank with hkind | hkind
    · rw [write_newline c file hkind]
      split
      · refine ⟨fun _ => ?_, fun _ => rfl⟩
        simpa [Piece.text] using endsLine_append_feed read
      · simpa using h
    · rw [write_blank c file hkind]
      exact ⟨fun hstart => by simpa using h.endsLine hstart, h.atLineStart⟩
  | false =>
    rw [write_of_not_isBlank c file hblank]
    exact ⟨fun hstart => (by cases hstart), fun hfile => (by cases hfile)⟩

theorem KnowsLines.writeAll (h : c.KnowsLines read) (file : Text) (ts : List Lexeme) :
    (c.writeAll file ts).2.KnowsLines (read ++ (c.writeAll file ts).1.flatMap Piece.text) := by
  induction ts generalizing c read with
  | nil => simpa [Cursor.writeAll] using h
  | cons t ts ih =>
    rw [writeAll_cons, List.flatMap_append, ← List.append_assoc]
    exact ih (h.write file t)

/-- A line begins behind a line feed, also behind one that is not written. -/
theorem KnowsLines.atLineStart_writeAll (h : c.KnowsLines read)
    (hlast : ∀ t ∈ ts.getLast?, t.kind = .newline) (hnil : ts = [] → c.atLineStart) (file : Text) :
    (c.writeAll file ts).2.atLineStart := by
  rcases List.eq_nil_or_concat ts with rfl | ⟨front, t, rfl⟩
  · exact hnil rfl
  · rw [List.concat_eq_append] at hlast ⊢
    rw [writeAll_append, writeAll_cons, write_newline _ _ (hlast t (by simp))]
    split
    · rfl
    next hfile =>
      exact (h.writeAll file front).atLineStart (by simpa using hfile)

/-- What is written next begins on another line: the text ends one, or the first lexeme does. -/
theorem KnowsLines.begins (h : c.KnowsLines read)
    (hnext : c.atLineStart ∨ ∀ t ∈ ts.head?, t.kind = .newline) (file : Text) :
    EndsLine read ∨ ∀ d ∈ ((c.writeAll file ts).1.flatMap Piece.text).head?, d = '\n' := by
  cases hstart : c.atLineStart with
  | true => exact .inl (h.endsLine hstart)
  | false =>
    have hfile : c.file.isSome := by
      rw [Option.isSome_iff_ne_none]
      intro hnone
      rw [h.atLineStart hnone] at hstart
      cases hstart
    rw [hstart] at hnext
    have hnext := hnext.resolve_left Bool.false_ne_true
    cases ts with
    | nil => exact .inr fun d hd => by cases hd
    | cons t ts =>
      rw [writeAll_cons, write_newline c file (hnext t rfl), if_pos hfile]
      refine .inr fun d hd => ?_
      cases hd
      rfl

/-! ## The lexemes of one line -/

/-- A space that is to be written before the next lexeme of the line. -/
def gap (c : Cursor) (n : Nat) : List Lexeme := if c.pendingSpace then [spaceAt n] else []

theorem collapsed_rdropWhile_space {t : Lexeme} (ht : t.kind = .space) (n : Nat)
    (ts : List Lexeme) :
    collapsed ((t :: ts).rdropWhile Lexeme.isBlank) =
      collapsed ((spaceAt n :: ts).rdropWhile Lexeme.isBlank) := by
  by_cases hts : ts.rdropWhile Lexeme.isBlank = []
  · have hall : ∀ u ∈ ts, u.isBlank := List.rdropWhile_eq_nil_iff.1 hts
    have hblank : t.isBlank := by simp [Lexeme.isBlank, ht]
    rw [List.rdropWhile_eq_nil_iff.2 (List.forall_mem_cons.2 ⟨hblank, hall⟩),
      List.rdropWhile_eq_nil_iff.2 (List.forall_mem_cons.2 ⟨rfl, hall⟩)]
  · have happend (u : Lexeme) : (u :: ts).rdropWhile Lexeme.isBlank =
        u :: ts.rdropWhile Lexeme.isBlank :=
      rdropWhile_isBlank_append hts [u]
    rw [happend, happend, collapsed_cons, collapsed_cons, if_pos ht]
    rfl

/-- Inside of the line that the reader is on, only the space at the end of the lexemes waits. -/
theorem text_writeAll_oneLine {n : Nat} (hfile : c.file = some file) (hline : c.line = n)
    (hstart : c.atLineStart = false) (h : OneLine n ts)
    (hspace : c.pendingSpace → ∀ t ∈ ts.head?, t.kind ≠ .space) :
    (c.writeAll file ts).1.flatMap Piece.text =
      collapsed ((c.gap n ++ ts).rdropWhile Lexeme.isBlank) := by
  induction ts generalizing c with
  | nil =>
    rw [List.append_nil, gap]
    split <;> rfl
  | cons t ts ih =>
    have hchain := List.isChain_cons.1 h.space
    rw [writeAll_cons, List.flatMap_append]
    cases hblank : t.isBlank with
    | true =>
      obtain ⟨hnewline, hcomment⟩ := h.kind t List.mem_cons_self
      have hkind : t.kind = .space := by
        simpa [Lexeme.isBlank, hnewline, hcomment] using hblank
      have hpending : c.pendingSpace = false := by
        rw [← Bool.not_eq_true]
        exact fun hpending => hspace hpending t rfl hkind
      rw [write_blank c file (.inl hkind)]
      show [] ++ _ = _
      rw [List.nil_append, ih (c := { c with pendingSpace := true }) hfile hline hstart h.tail
        fun _ u hu => hchain.1 u hu hkind]
      show collapsed ((spaceAt n :: ts).rdropWhile Lexeme.isBlank) = _
      rw [gap, hpending]
      exact (collapsed_rdropWhile_space hkind n ts).symm
    | false =>
      have hon := h.line t List.mem_cons_self
      have hkind := (isBlank_eq_false_iff.1 hblank).1
      rw [write_of_not_isBlank c file hblank,
        ih rfl hon rfl h.tail fun hpending => by cases hpending]
      rw [lead, if_pos ⟨hfile, hline.trans hon.symm⟩, hstart]
      have hrest : (t :: ts).rdropWhile Lexeme.isBlank = t :: ts.rdropWhile Lexeme.isBlank :=
        rdropWhile_isBlank_cons hblank ts
      have hdrop : (c.gap n ++ t :: ts).rdropWhile Lexeme.isBlank =
          c.gap n ++ t :: ts.rdropWhile Lexeme.isBlank := by
        rw [rdropWhile_isBlank_append (by rw [hrest]; exact List.cons_ne_nil _ _), hrest]
      rw [hdrop, collapsed_append, collapsed_cons, if_neg hkind]
      cases hpending : c.pendingSpace <;> simp [Piece.text, collapsed, gap, spaceAt, hpending]

/-- At the start of a line, the lexemes are written as the rest of it, behind a marker perhaps. -/
theorem exists_text_writeAll_oneLine {n : Nat} (hstart : c.atLineStart) (h : OneLine n ts)
    (hne : stripBlank ts ≠ []) (file : Text) :
    ∃ mark, EndsLine mark ∧
      (c.writeAll file ts).1.flatMap Piece.text = mark ++ collapsed (stripBlank ts) := by
  induction ts generalizing c with
  | nil => exact absurd rfl hne
  | cons t ts ih =>
    cases hblank : t.isBlank with
    | true =>
      obtain ⟨hnewline, hcomment⟩ := h.kind t List.mem_cons_self
      have hkind : t.kind = .space := by
        simpa [Lexeme.isBlank, hnewline, hcomment] using hblank
      rw [stripBlank_cons_of_isBlank hblank] at hne ⊢
      rw [writeAll_cons, write_blank c file (.inl hkind)]
      exact ih (c := { c with pendingSpace := true }) hstart h.tail hne
    | false =>
      have hon := h.line t List.mem_cons_self
      have hkind := (isBlank_eq_false_iff.1 hblank).1
      have hfile : (⟨some file, t.line, false, false⟩ : Cursor).file = some file := rfl
      have hrest := text_writeAll_oneLine hfile hon rfl h.tail fun hpending => by cases hpending
      rw [stripBlank_cons_of_not_isBlank hblank, collapsed_cons, if_neg hkind, writeAll_cons,
        write_of_not_isBlank c file hblank, List.flatMap_append, hrest, lead, hstart]
      split
      · exact ⟨[], .inl rfl, by simp [Piece.text, gap]⟩
      · refine ⟨marker t.line file, .inr ?_, by simp [Piece.text, gap]⟩
        rw [marker_eq_append, List.getLast?_concat]

end Cursor

/-! ## The lines of the output -/

namespace MarkedText

variable {out : MarkedText} {file : Text} {ts : List Lexeme}

/-- The lines are lines of the output, and the reader knows where lines begin. -/
structure KeepsLines (lines : List Text) (out : MarkedText) : Prop where
  cursor : out.cursor.KnowsLines out.text
  sublist : lines.Sublist (out.text.splitOn '\n')
  ne_nil : [] ∉ lines

theorem keepsLines_empty : KeepsLines [] {} :=
  ⟨⟨fun _ => .inl rfl, fun _ => rfl⟩, List.nil_sublist _, List.not_mem_nil⟩

theorem cursor_push (out : MarkedText) (file : Text) (ts : List Lexeme) :
    (out.push file ts).cursor = (out.cursor.writeAll file ts).2 := rfl

theorem KeepsLines.push (h : KeepsLines lines out)
    (hnext : out.cursor.atLineStart ∨ ∀ t ∈ ts.head?, t.kind = .newline) (file : Text) :
    KeepsLines lines (out.push file ts) := by
  refine ⟨?_, ?_, h.ne_nil⟩
  · rw [text_push]
    exact h.cursor.writeAll file ts
  · rw [text_push]
    exact sublist_lines_append h.ne_nil h.sublist (h.cursor.begins hnext file)

/-- The lexemes of one line are a line of the output. -/
theorem KeepsLines.push_oneLine (h : KeepsLines lines out)
    (hstart : out.cursor.atLineStart) {n : Nat} (hts : OneLine n ts)
    (hne : collapsed (stripBlank ts) ≠ []) (hinline : '\n' ∉ collapsed (stripBlank ts))
    (file : Text) : KeepsLines (lines ++ [collapsed (stripBlank ts)]) (out.push file ts) := by
  have hstrip : stripBlank ts ≠ [] := fun hnil => hne (by rw [hnil]; rfl)
  obtain ⟨mark, hmark, htext⟩ := Cursor.exists_text_writeAll_oneLine hstart hts hstrip file
  have hend : EndsLine (out.text ++ mark) := by
    rcases hmark with rfl | hlast
    · rw [List.append_nil]
      exact h.cursor.endsLine hstart
    · exact .inr (by rw [List.getLast?_append, hlast]; rfl)
  refine ⟨?_, ?_, ?_⟩
  · rw [text_push]
    exact h.cursor.writeAll file ts
  · rw [text_push, htext, ← List.append_assoc]
    refine sublist_lines_concat h.ne_nil ?_ hend hinline
    exact sublist_lines_append h.ne_nil h.sublist (.inl (h.cursor.endsLine hstart))
  · rw [List.mem_append, List.mem_singleton, not_or]
    exact ⟨h.ne_nil, hne.symm⟩

end MarkedText

end IdlFrontend
