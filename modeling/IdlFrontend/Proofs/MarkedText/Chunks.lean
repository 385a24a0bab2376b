import IdlFrontend.Proofs.MarkedText.WellMarked

/-!
# Outputs written in chunks

An output is written chunk by chunk. Every lexeme in it stands at one place of one
chunk, and what is written before it is what the chunks up to that place write.

Results:

* `pushAll_append`: an output is the same however it is cut.
* `exists_of_pushAll_eq`: the chunk that a lexeme of the output is written from.
* `WellMarked.pushAll`: chunks of proper lexemes are written well.
-/

namespace IdlFrontend

/-- Lexemes that are written one after the other, with the name of the file that they
    are written for. They are what is kept of a pragma line, or text. -/
structure Chunk where
  file : Text
  lexemes : List Lexeme
  isPragma : Bool
deriving DecidableEq, Repr

/-! ## Where a lexeme of the output comes from -/

/-- Only the last part that is written for a lexeme can be a lexeme, and it is that one. -/
theorem Cursor.eq_of_write_eq {c : Cursor} {file : Text} {t u : Lexeme} {before after : List Piece}
    (h : (c.write file t).1 = before ++ .lexeme u :: after) : t = u ∧ after = [] := by
  unfold write at h
  split at h
  · split at h
    · dsimp only at h
      have hmem : Piece.lexeme u ∈ [Piece.lineFeed] := by
        rw [h]
        simp
      cases List.mem_singleton.1 hmem
    · simp at h
  · simp at h
  · simp at h
  · dsimp only at h
    have hnone : ∀ p ∈ (c.synchronize file t.line).1 ++
        (if (c.synchronize file t.line).2.pendingSpace &&
          !(c.synchronize file t.line).2.atLineStart then [Piece.space] else []),
        p ≠ .lexeme u := by
      intro p hp
      rcases List.mem_append.1 hp with hp | hp
      · unfold synchronize at hp
        split at hp
        · cases hp
        · rcases List.mem_append.1 hp with hp | hp
          · split at hp <;> simp at hp
            simp [hp]
          · simp at hp
            simp [hp]
      · split at hp <;> simp at hp
        simp [hp]
    rcases List.append_eq_append_iff.1 h with ⟨mid, -, hmid⟩ | ⟨mid, hlead, hmid⟩
    · cases mid with
      | nil =>
        cases hmid
        exact ⟨rfl, rfl⟩
      | cons p mid => simp at hmid
    · cases mid with
      | nil =>
        cases hmid
        exact ⟨rfl, rfl⟩
      | cons p mid =>
        obtain ⟨rfl, -⟩ := List.cons.inj hmid
        exact absurd rfl (hnone _ (by rw [hlead]; simp))

theorem Cursor.exists_of_writeAll_eq {c : Cursor} {file : Text} {ts : List Lexeme} {u : Lexeme}
    {before after : List Piece} (h : (c.writeAll file ts).1 = before ++ .lexeme u :: after) :
    ∃ us vs, ts = us ++ u :: vs ∧ (c.writeAll file (us ++ [u])).1 = before ++ [.lexeme u] := by
  induction ts generalizing c before with
  | nil => simp [writeAll] at h
  | cons t ts ih =>
    have hlater (mid : List Piece) (hbefore : before = (c.write file t).1 ++ mid)
        (hrest : ((c.write file t).2.writeAll file ts).1 = mid ++ .lexeme u :: after) :
        ∃ us vs, t :: ts = us ++ u :: vs ∧
          (c.writeAll file (us ++ [u])).1 = before ++ [.lexeme u] := by
      obtain ⟨us, vs, rfl, hus⟩ := ih hrest
      refine ⟨t :: us, vs, rfl, ?_⟩
      simp only [List.cons_append, writeAll]
      rw [hus, hbefore, List.append_assoc]
    simp only [writeAll] at h
    rcases List.append_eq_append_iff.1 h with ⟨mid, hbefore, hmid⟩ | ⟨mid, hfirst, hmid⟩
    · exact hlater mid hbefore hmid
    · cases mid with
      | nil => exact hlater [] (by simpa using hfirst.symm) (by simpa using hmid.symm)
      | cons p mid =>
        obtain ⟨rfl, -⟩ := List.cons.inj hmid
        obtain ⟨rfl, rfl⟩ := eq_of_write_eq hfirst
        exact ⟨[], ts, rfl, by simpa [writeAll] using hfirst⟩

namespace MarkedText

theorem pieces_push (out : MarkedText) (file : Text) (ts : List Lexeme) :
    (out.push file ts).pieces = out.pieces ++ (out.cursor.writeAll file ts).1 := rfl

/-- The output after chunks have been written. -/
def pushAll (out : MarkedText) (chunks : List Chunk) : MarkedText :=
  chunks.foldl (fun out c => out.push c.file c.lexemes) out

/-- The output that chunks alone make. -/
def ofChunks (chunks : List Chunk) : MarkedText := pushAll {} chunks

@[simp] theorem pushAll_nil (out : MarkedText) : out.pushAll [] = out := rfl

@[simp] theorem pushAll_cons (out : MarkedText) (c : Chunk) (chunks : List Chunk) :
    out.pushAll (c :: chunks) = (out.push c.file c.lexemes).pushAll chunks := rfl

@[simp] theorem pushAll_append (out : MarkedText) (chunks more : List Chunk) :
    out.pushAll (chunks ++ more) = (out.pushAll chunks).pushAll more :=
  List.foldl_append

theorem exists_pieces_pushAll (out : MarkedText) (chunks : List Chunk) :
    ∃ more, (out.pushAll chunks).pieces = out.pieces ++ more := by
  induction chunks generalizing out with
  | nil => exact ⟨[], (List.append_nil _).symm⟩
  | cons c chunks ih =>
    obtain ⟨more, hmore⟩ := ih (out.push c.file c.lexemes)
    exact ⟨_, by rw [pushAll_cons, hmore, pieces_push, List.append_assoc]⟩

/-- A lexeme behind those of `out` is written from one place of one of the chunks. -/
theorem exists_of_pushAll_eq {out : MarkedText} {chunks : List Chunk} {u : Lexeme}
    {before after : List Piece}
    (h : (out.pushAll chunks).pieces = out.pieces ++ before ++ .lexeme u :: after) :
    ∃ pre c post us vs, chunks = pre ++ c :: post ∧ c.lexemes = us ++ u :: vs ∧
      ((out.pushAll pre).push c.file (us ++ [u])).pieces = out.pieces ++ before ++ [.lexeme u] := by
  induction chunks generalizing out before with
  | nil =>
    rw [pushAll_nil, List.append_assoc] at h
    exact absurd (List.self_eq_append_right.1 h) (by simp)
  | cons c chunks ih =>
    have hlater (mid : List Piece)
        (hbefore : before = (out.cursor.writeAll c.file c.lexemes).1 ++ mid) :
        ∃ pre c' post us vs, c :: chunks = pre ++ c' :: post ∧ c'.lexemes = us ++ u :: vs ∧
          ((out.pushAll pre).push c'.file (us ++ [u])).pieces =
            out.pieces ++ before ++ [.lexeme u] := by
      have heq : out.pieces ++ before = (out.push c.file c.lexemes).pieces ++ mid := by
        rw [hbefore, pieces_push, List.append_assoc]
      rw [heq] at h ⊢
      obtain ⟨pre, c', post, us, vs, rfl, hlexemes, hpieces⟩ := ih h
      exact ⟨c :: pre, c', post, us, vs, rfl, hlexemes, hpieces⟩
    obtain ⟨more, hmore⟩ := exists_pieces_pushAll (out.push c.file c.lexemes) chunks
    rw [pushAll_cons, hmore, pieces_push, List.append_assoc, List.append_assoc,
      List.append_cancel_left_eq] at h
    rcases List.append_eq_append_iff.1 h with ⟨mid, hbefore, -⟩ | ⟨mid, hfirst, hmid⟩
    · exact hlater mid hbefore
    · cases mid with
      | nil => exact hlater [] (by simpa using hfirst.symm)
      | cons p mid =>
        obtain ⟨rfl, -⟩ := List.cons.inj hmid
        obtain ⟨us, vs, hlexemes, hus⟩ := Cursor.exists_of_writeAll_eq hfirst
        exact ⟨[], c, chunks, us, vs, rfl, hlexemes, by
          rw [pushAll_nil, pieces_push, hus, List.append_assoc]⟩

theorem WellMarked.pushAll {out : MarkedText} (h : out.WellMarked) {chunks : List Chunk}
    (hchunks : ∀ c ∈ chunks, ∀ t ∈ c.lexemes, t.Proper) : (out.pushAll chunks).WellMarked := by
  induction chunks generalizing out with
  | nil => exact h
  | cons c chunks ih =>
    rw [List.forall_mem_cons] at hchunks
    exact ih (h.push hchunks.1 c.file) hchunks.2

end MarkedText

end IdlFrontend
