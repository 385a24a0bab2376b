import IdlFrontend.Proofs.Lexeme.Condensed
import IdlFrontend.Proofs.MarkedText.Separation

/-!
# Writing and the space between lexemes

A writer notes that a blank has been read, and writes one space for it only between two
lexemes of a line. What is written for lexemes that are alike is the same.

Results:

* `Cursor.Agrees.writeAll_alike`: writing lexemes that are alike, from places that agree.
* `Cursor.SamePlace.writeAll_alike`: if a line ends there, even a pending space makes no
  difference.
-/

namespace IdlFrontend

open Lexeme

namespace Cursor

/-- Two readers are at the same place. A space may be pending for one of them only. -/
structure SamePlace (c c' : Cursor) : Prop where
  file : c.file = c'.file
  line : c.line = c'.line
  atLineStart : c.atLineStart = c'.atLineStart

/-- Two readers are at the same place, and a space is pending for both of them or for none,
    unless it would not be written. -/
structure Agrees (c c' : Cursor) : Prop extends SamePlace c c' where
  pendingSpace : c.file.isSome → c.atLineStart = false → c.pendingSpace = c'.pendingSpace

/-- The same pieces are written, and the readers agree behind them. -/
structure WritesAlike (w w' : List Piece × Cursor) : Prop where
  pieces : w.1 = w'.1
  cursor : w.2.Agrees w'.2

variable {c c' : Cursor} {file : Text} {t : Lexeme} {ts us : List Lexeme}

theorem Agrees.refl (c : Cursor) : c.Agrees c := ⟨⟨rfl, rfl, rfl⟩, fun _ _ => rfl⟩

theorem SamePlace.symm (h : c.SamePlace c') : c'.SamePlace c :=
  ⟨h.file.symm, h.line.symm, h.atLineStart.symm⟩

theorem SamePlace.trans {c'' : Cursor} (h : c.SamePlace c') (h' : c'.SamePlace c'') :
    c.SamePlace c'' :=
  ⟨h.file.trans h'.file, h.line.trans h'.line, h.atLineStart.trans h'.atLineStart⟩

theorem Agrees.symm (h : c.Agrees c') : c'.Agrees c :=
  ⟨h.toSamePlace.symm, fun hfile hstart =>
    (h.pendingSpace (h.file ▸ hfile) (h.atLineStart.trans hstart)).symm⟩

theorem Agrees.trans {c'' : Cursor} (h : c.Agrees c') (h' : c'.Agrees c'') : c.Agrees c'' :=
  ⟨h.toSamePlace.trans h'.toSamePlace, fun hfile hstart => (h.pendingSpace hfile hstart).trans
    (h'.pendingSpace (h.file ▸ hfile) (h.atLineStart ▸ hstart))⟩

theorem WritesAlike.symm {w w' : List Piece × Cursor} (h : WritesAlike w w') : WritesAlike w' w :=
  ⟨h.pieces.symm, h.cursor.symm⟩

theorem WritesAlike.trans {w w' w'' : List Piece × Cursor} (h : WritesAlike w w')
    (h' : WritesAlike w' w'') : WritesAlike w w'' :=
  ⟨h.pieces.trans h'.pieces, h.cursor.trans h'.cursor⟩

/-! ## One lexeme -/

theorem SamePlace.write_newline (h : c.SamePlace c') (ht : t.kind = .newline) :
    WritesAlike (c.write file t) (c'.write file t) := by
  rw [Cursor.write_newline c file ht, Cursor.write_newline c' file ht, ← h.file]
  cases hfile : c.file.isSome with
  | false =>
    refine ⟨rfl, ⟨⟨h.file, h.line, h.atLineStart⟩, fun hsome => ?_⟩⟩
    exact absurd (hfile.symm.trans hsome) Bool.false_ne_true
  | true => exact ⟨rfl, ⟨⟨rfl, congrArg nextLine h.line, rfl⟩, fun _ _ => rfl⟩⟩

theorem SamePlace.write_gap (h : c.SamePlace c') {u : Lexeme} (ht : t.isGap) (hu : u.isGap) :
    WritesAlike (c.write file t) (c'.write file u) := by
  rw [write_blank c file (isGap_iff.1 ht), write_blank c' file (isGap_iff.1 hu)]
  exact ⟨rfl, ⟨⟨h.file, h.line, h.atLineStart⟩, fun _ _ => rfl⟩⟩

theorem Agrees.write (h : c.Agrees c') (file : Text) (t : Lexeme) :
    WritesAlike (c.write file t) (c'.write file t) := by
  cases hblank : t.isBlank with
  | true =>
    rcases kind_of_isBlank hblank with hkind | hkind
    · exact h.toSamePlace.write_newline hkind
    · exact h.toSamePlace.write_gap (isGap_iff.2 hkind) (isGap_iff.2 hkind)
  | false =>
    rw [write_of_not_isBlank c file hblank, write_of_not_isBlank c' file hblank]
    refine ⟨?_, Agrees.refl _⟩
    have hlead : c.lead file t.line = c'.lead file t.line := by
      unfold lead
      rw [← h.file, ← h.line, ← h.atLineStart]
      split
      next hsync =>
        cases hstart : c.atLineStart with
        | true => rw [Bool.not_true, Bool.and_false, Bool.and_false]
        | false => rw [h.pendingSpace (by rw [hsync.1]; rfl) hstart]
      · rfl
    rw [hlead]

/-! ## All lexemes -/

theorem WritesAlike.writeAll_cons {u : Lexeme}
    (h : WritesAlike (c.write file t) (c'.write file u))
    (hrest : ∀ d d' : Cursor, d.Agrees d' → WritesAlike (d.writeAll file ts)
      (d'.writeAll file us)) :
    WritesAlike (c.writeAll file (t :: ts)) (c'.writeAll file (u :: us)) := by
  have hbehind := hrest _ _ h.cursor
  rw [Cursor.writeAll_cons, Cursor.writeAll_cons]
  exact ⟨by rw [h.pieces, hbehind.pieces], hbehind.cursor⟩

theorem Agrees.writeAll (h : c.Agrees c') (file : Text) (ts : List Lexeme) :
    WritesAlike (c.writeAll file ts) (c'.writeAll file ts) := by
  induction ts generalizing c c' with
  | nil => exact ⟨rfl, h⟩
  | cons t ts ih => exact (h.write file t).writeAll_cons fun _ _ h => ih h

/-- At the end of a line a pending space is forgotten. -/
theorem SamePlace.writeAll_newline (h : c.SamePlace c') (ht : t.kind = .newline)
    (ts : List Lexeme) :
    WritesAlike (c.writeAll file (t :: ts)) (c'.writeAll file (t :: ts)) :=
  (h.write_newline ht).writeAll_cons fun _ _ h => h.writeAll file ts

theorem writeAll_behindGap (c : Cursor) (ht : t.isGap) (ts : List Lexeme) :
    WritesAlike (c.writeAll file (behindGap ts)) (c.writeAll file (t :: ts)) := by
  have hrefl (d d' : Cursor) (h : d.Agrees d') := h.writeAll file ts
  rcases behindGap_cases ts with ⟨u, us, rfl, hu, h⟩ | h
  · -- The gap only sets what the lexeme behind it sets as well, or does not look at.
    rw [h, Cursor.writeAll_cons c file t, write_blank c file (isGap_iff.1 ht)]
    have hplace : c.SamePlace { c with pendingSpace := true } := ⟨rfl, rfl, rfl⟩
    rcases hu with hu | hu
    · exact (hplace.write_gap (isGap_of_space hu) (isGap_of_space hu)).writeAll_cons
        fun _ _ h => h.writeAll file us
    · exact hplace.writeAll_newline hu us
  · rw [h]
    exact ((Agrees.refl c).toSamePlace.write_gap (isGap_spaceAt 0) ht).writeAll_cons hrefl

theorem writeAll_condense (c : Cursor) (file : Text) (ts : List Lexeme) :
    WritesAlike (c.writeAll file (condense ts)) (c.writeAll file ts) := by
  induction ts generalizing c with
  | nil => exact ⟨rfl, Agrees.refl c⟩
  | cons t ts ih =>
    have hcons : WritesAlike (c.writeAll file (t :: condense ts)) (c.writeAll file (t :: ts)) :=
      ((Agrees.refl c).write file t).writeAll_cons fun d d' h =>
        (ih d).trans (h.writeAll file ts)
    cases ht : t.isGap with
    | true =>
      rw [condense_cons_gap ht]
      exact (writeAll_behindGap c ht _).trans hcons
    | false =>
      rw [condense_cons ht]
      exact hcons

theorem Agrees.writeAll_alike (h : c.Agrees c') (hts : condense ts = condense us) (file : Text) :
    WritesAlike (c.writeAll file ts) (c'.writeAll file us) :=
  (writeAll_condense c file ts).symm.trans
    ((h.writeAll file _).trans (hts ▸ writeAll_condense c' file us))

theorem SamePlace.writeAll_alike (h : c.SamePlace c') (hts : condense ts = condense us)
    {rest : List Lexeme} (hhead : condense ts = t :: rest) (ht : t.kind = .newline) (file : Text) :
    WritesAlike (c.writeAll file ts) (c'.writeAll file us) := by
  have hline : WritesAlike (c.writeAll file (t :: rest)) (c'.writeAll file (t :: rest)) :=
    h.writeAll_newline ht rest
  rw [← hhead] at hline
  exact (writeAll_condense c file ts).symm.trans
    (hline.trans (hts ▸ writeAll_condense c' file us))

/-- What is written before a line feed is the same if it is the same with the line feed. -/
theorem WritesAlike.pieces_of_newline (ht : t.kind = .newline)
    (h : WritesAlike (c.writeAll file (ts ++ [t])) (c'.writeAll file (us ++ [t]))) :
    (c.writeAll file ts).1 = (c'.writeAll file us).1 := by
  have hone (d : Cursor) : d.writeAll file [t] =
      if d.file.isSome then
        ([.lineFeed],
          { d with line := nextLine d.line, atLineStart := true, pendingSpace := false })
      else ([], d) := by
    rw [Cursor.writeAll_cons, Cursor.write_newline d file ht]
    cases d.file.isSome <;> rfl
  have hfile (d : Cursor) : (d.writeAll file [t]).2.file = d.file := by
    rw [hone]
    cases d.file.isSome <;> rfl
  have hpieces := h.pieces
  have hcursor := h.cursor.file
  rw [writeAll_append, writeAll_append] at hpieces hcursor
  dsimp only at hpieces hcursor
  rw [hfile, hfile] at hcursor
  rw [hone, hone, hcursor] at hpieces
  cases hsome : (c'.writeAll file us).2.file.isSome with
  | false => simpa [hsome] using hpieces
  | true => simpa [hsome] using hpieces

/-- Space and comments are not written; they only leave a space pending. -/
theorem writeAll_gaps (c : Cursor) (file : Text) {gs : List Lexeme} (h : ∀ t ∈ gs, t.isGap) :
    (c.writeAll file gs).1 = [] ∧ c.SamePlace (c.writeAll file gs).2 := by
  induction gs generalizing c with
  | nil => exact ⟨rfl, rfl, rfl, rfl⟩
  | cons t gs ih =>
    rw [List.forall_mem_cons] at h
    rw [Cursor.writeAll_cons, write_blank c file (isGap_iff.1 h.1)]
    obtain ⟨hpieces, hplace⟩ := ih { c with pendingSpace := true } h.2
    exact ⟨hpieces, hplace.file, hplace.line, hplace.atLineStart⟩

end Cursor

end IdlFrontend
