import IdlFrontend.Proofs.Comment.Line

/-!
# Preprocessing a source with a comment in it

A comment that nothing heeds carries no meaning: with a space in its place, the source is
preprocessed to the same text, or fails with the same error. The two sessions run side by
side, and differ in the line of the comment only.

Results:

* `parallel_readLines_comment`: the lines of the two sources, read side by side.
* `preprocess_comment_eq_space`: what the source is preprocessed to.
-/

namespace IdlFrontend

open Lexeme

/-! ## The line of the comment -/

/-- The gap with its line numbers moved. -/
def CommentGap.renumber (g : CommentGap) (shift : Int) : CommentGap where
  left := Session.renumber shift g.left
  comment := { g.comment with line := shiftLine g.comment.line shift }
  right := Session.renumber shift g.right
  space := Session.renumber shift g.space
  kind := g.kind
  left_kind := (forall_mem_renumber fun _ => Iff.rfl).2 g.left_kind
  right_kind := (forall_mem_renumber fun _ => Iff.rfl).2 g.right_kind
  space_kind := (forall_mem_renumber fun _ => Iff.rfl).2 g.space_kind
  alone hleft hright := by
    refine (g.alone (List.map_eq_nil_iff.1 hleft) (List.map_eq_nil_iff.1 hright)).imp ?_ ?_ <;>
    · intro h
      rw [h]
      rfl

namespace Session

variable {m : Type → Type} [Monad m] [LawfulMonad m]

/-- A line without a line break, be it empty, is read as one. -/
theorem foldlM_readLine_lines (enter : Text → Bool → Nat → PreprocessM m Unit) (f : OpenFile)
    {ts : List Lexeme} (h : ∀ t ∈ ts, t.kind ≠ .newline) :
    (lines ts).foldlM (readLine enter) f = readLine enter f ts := by
  by_cases hnil : ts = []
  · subst hnil
    show pure f = pure (if f.conditionals.kept then { f with pending := f.pending ++ [] } else f)
    rw [List.append_nil, ite_self]
  · rw [lines_of_inline hnil h, List.foldlM_cons]
    exact bind_pure _

variable {enter : Text → Bool → Nat → PreprocessM m Unit} {g : CommentGap} {before us : List Lexeme}
  {f f' : OpenFile} {s t : Session}

/-- The line with the comment is read side by side with the line with a space instead. -/
theorem parallel_readLine_comment {pre post nl tail : List Lexeme} {n : Lexeme}
    (henter : KeepsAgreement enter) (hpre : ∀ t ∈ pre.getLast?, t.kind ≠ .space)
    (hfirst : ∀ t ∈ post.head?, t.kind ≠ .space)
    (hinline : (∀ t ∈ pre, t.kind ≠ .newline) ∧ ∀ t ∈ post, t.kind ≠ .newline)
    (hspace : g.space = [] → post = []) (h : Unheeded (pre ++ g.left) (g.right ++ post))
    (hn : n.kind = .newline) (hend : nl = [n] ∧ tail = [] ∨ nl = [] ∧ tail = [n])
    (hf : Alike [] f s f' t) :
    Parallel (Alike tail) (readLine enter f (pre ++ (g.lexemes ++ (post ++ nl)))) s
      (readLine enter f' (pre ++ (g.space ++ (post ++ nl)))) t := by
  refine parallel_readLine henter hf ?_
  have happend (us vs : List Lexeme) :
      renumber f.shift (us ++ vs) = renumber f.shift us ++ renumber f.shift vs := List.map_append
  have hlexemes : renumber f.shift g.lexemes = (g.renumber f.shift).lexemes := List.map_append
  have hmoved := h.renumber f.shift
  rw [happend, happend] at hmoved
  rw [happend, happend, happend, happend, happend, happend, hlexemes]
  have hpre' : ∀ t ∈ (renumber f.shift pre).getLast?, t.kind ≠ .space := by
    rw [renumber, List.getLast?_map]
    intro t ht
    obtain ⟨u, hu, rfl⟩ := Option.map_eq_some_iff.1 ht
    exact hpre u hu
  have hfirst' : ∀ t ∈ (renumber f.shift post).head?, t.kind ≠ .space := by
    rw [renumber, List.head?_map]
    intro t ht
    obtain ⟨u, hu, rfl⟩ := Option.map_eq_some_iff.1 ht
    exact hfirst u hu
  have hinline' : (∀ t ∈ renumber f.shift pre, t.kind ≠ .newline) ∧
      ∀ t ∈ renumber f.shift post, t.kind ≠ .newline :=
    ⟨(forall_mem_renumber fun _ => Iff.rfl).2 hinline.1, (forall_mem_renumber fun _ => Iff.rfl).2
      hinline.2⟩
  have hspace' : (g.renumber f.shift).space = [] → renumber f.shift post = [] := fun hnil => by
    rw [hspace (List.map_eq_nil_iff.1 hnil)]
    rfl
  rcases hend with ⟨rfl, rfl⟩ | ⟨rfl, rfl⟩
  · exact Unheeded.linesAlike (n := { n with line := shiftLine n.line f.shift }) hmoved
      hpre' hfirst' hinline' hspace' hn (Or.inl ⟨rfl, rfl⟩)
  · exact Unheeded.linesAlike (n := n) hmoved hpre' hfirst' hinline' hspace' hn (Or.inr ⟨rfl, rfl⟩)

/-- The lines of a source with a comment that nothing heeds are read side by side with
    those of the source with a space in its place. -/
theorem parallel_readLines_comment (henter : KeepsAgreement enter)
    (hbefore : ∀ t ∈ before.getLast?, t.kind ≠ .space) (hus : ∀ t ∈ us.head?, t.kind ≠ .space)
    (hspace : g.space = [] → ∀ t ∈ us.head?, t.kind = .newline)
    (h : Unheeded (lineBefore before ++ g.left) (g.right ++ lineBehind us))
    (hf : Alike [] f s f' t) :
    ∃ tail, (tail = [] ∨ ∃ u : Lexeme, u.kind = .newline ∧ tail = [u]) ∧
      Parallel (Alike tail) ((lines (before ++ (g.lexemes ++ us))).foldlM (readLine enter) f) s
        ((lines (before ++ (g.space ++ us))).foldlM (readLine enter) f') t := by
  have hpre := fun t ht => hbefore t (mem_getLast?_of_mem_lineBefore ht)
  have hfirst := fun t ht => hus t (mem_head?_of_mem_lineBehind ht)
  have hempty : g.space = [] → lineBehind us = [] := by
    intro hnil
    cases us with
    | nil => rfl
    | cons u us => exact List.takeWhile_cons_of_neg (by simp [hspace hnil u rfl])
  have hinline : (∀ t ∈ lineBefore before, t.kind ≠ .newline) ∧
      ∀ t ∈ lineBehind us, t.kind ≠ .newline :=
    ⟨kind_of_mem_lineBefore, kind_of_mem_lineBehind⟩
  obtain ⟨groups, hgroups⟩ := exists_lines_append before
  rw [hgroups, hgroups, List.foldlM_append, List.foldlM_append]
  have hstart := parallel_readLines henter hf groups
  rcases lineBehind_cases us with hlast | ⟨n, more, hn, hmore⟩
  · -- The file ends on the line of the comment.
    refine ⟨[⟨.newline, ['\n'], 0⟩], Or.inr ⟨_, rfl, rfl⟩, hstart.bind fun f s f' t hf => ?_⟩
    have hline (gap : List Lexeme) (hgap : ∀ t ∈ gap, t.kind ≠ .newline) :
        ∀ t ∈ lineBefore before ++ (gap ++ us), t.kind ≠ .newline := by
      rw [hlast]
      exact List.forall_mem_append.2 ⟨hinline.1, List.forall_mem_append.2 ⟨hgap, hinline.2⟩⟩
    rw [foldlM_readLine_lines _ _ (hline _ g.inline_lexemes),
      foldlM_readLine_lines _ _ (hline _ g.inline_space), hlast]
    have hread := parallel_readLine_comment (n := ⟨.newline, ['\n'], 0⟩) henter hpre hfirst hinline
      hempty h rfl (Or.inr ⟨rfl, rfl⟩) hf
    simpa only [List.append_nil] using hread
  · refine ⟨[], Or.inl rfl, hstart.bind fun f s f' t hf => ?_⟩
    have hline (gap : List Lexeme) (hgap : ∀ t ∈ gap, t.kind ≠ .newline) :
        lines (lineBefore before ++ (gap ++ us)) =
          (lineBefore before ++ (gap ++ (lineBehind us ++ [n]))) :: lines more := by
      have hcut : lineBefore before ++ (gap ++ us) =
          (lineBefore before ++ (gap ++ lineBehind us)) ++ n :: more := by
        conv_lhs => rw [hmore]
        simp only [List.append_assoc]
      rw [hcut, lines_append_newline _ hn]
      · simp only [List.append_assoc]
      · exact List.forall_mem_append.2 ⟨hinline.1, List.forall_mem_append.2 ⟨hgap, hinline.2⟩⟩
    rw [hline _ g.inline_lexemes, hline _ g.inline_space, List.foldlM_cons, List.foldlM_cons]
    have hread :=
      parallel_readLine_comment henter hpre hfirst hinline hempty h hn (Or.inl ⟨rfl, rfl⟩) hf
    exact hread.bind fun f s f' t hf => parallel_readLines henter hf (lines more)

/-- The whole source is read side by side with the source with a space in place of the comment. -/
theorem parallel_run_comment (store : SourceStore m) (name : Text) {p c q : Text}
    (C : PlacedComment p c q) (hend : C.EndsPlainly)
    (h : Unheeded (lineBefore C.before) (lineBehind C.behind)) (hagrees : s.Agrees t) :
    Parallel (fun _ s _ t => s.output.pieces = t.output.pieces)
      (run store ⟨name, p ++ (c ++ q)⟩) s (run store ⟨name, p ++ ' ' :: q⟩) t := by
  obtain ⟨g, us, hbefore, hcomment, hbehind, hfirst, hempty, hspace⟩ := C.exists_gap hend
  have hlexemes : scan (Source.logicalText (p ++ (c ++ q))) =
      dropSpace C.before ++ (g.lexemes ++ us) := by
    rw [C.lexemes, hbehind, ← hcomment, CommentGap.lexemes]
    conv_lhs => rw [hbefore]
    simp only [List.append_assoc, List.cons_append]
  have hunheeded :
      Unheeded (lineBefore (dropSpace C.before) ++ g.left) (g.right ++ lineBehind us) := by
    have hspace {ts : List Lexeme} (h : ∀ t ∈ ts, t.kind = .space) : ∀ t ∈ ts, t.kind ≠ .newline :=
      fun t ht => by rw [h t ht]; decide
    rw [← lineBefore_append (hspace g.left_kind), ← hbefore,
      ← lineBehind_append (hspace g.right_kind),
      ← hbehind]
    exact h
  refine (parallel_defineText hagrees _).bind fun _ s _ t hagrees => ?_
  have hinclude :=
    keepsAgreement_enterFile store (parallel_readFile store store.capacity [name]) [name]
  obtain ⟨tail, htail, hread⟩ := parallel_readLines_comment hinclude
    (kind_of_mem_getLast?_dropSpace C.before) hfirst hempty hunheeded
    (InStep.alike ⟨rfl, rfl, hagrees⟩ [] : Alike [] { name := name } s { name := name } t)
  rw [← hlexemes, ← hspace] at hread
  refine hread.bind fun f s f' t hf => ?_
  refine (parallel_flush_last hf htail).bind ?_
  rintro f s f' t ⟨hconditionals, hpieces⟩
  rw [Parallel, exec_ofExcept, exec_ofExcept, hconditionals]
  refine coupled_pure ?_
  cases f'.conditionals.finish with
  | error e => exact .error e s t
  | ok => exact .ok hpieces

end Session

/-- A comment that nothing heeds carries no meaning: with a space in its place, the source is
    preprocessed to the same text, or fails with the same error. -/
theorem preprocess_comment_eq_space {m : Type → Type} [Monad m] [LawfulMonad m]
    (store : SourceStore m) (defines : List Predefinition) (name : Text) {p c q : Text}
    (C : PlacedComment p c q)
    (hend : C.EndsPlainly) (h : Unheeded (lineBefore C.before) (lineBehind C.behind)) :
    preprocess store defines ⟨name, p ++ (c ++ q)⟩ =
      preprocess store defines ⟨name, p ++ ' ' :: q⟩ := by
  have hdefines : Session.Parallel (fun _ s _ t => s.Agrees t)
      (defines.forM Session.define : PreprocessM m PUnit) {} (defines.forM Session.define) {} :=
    Session.parallel_refl (fun _ s => .refl s) _ _
  have hrun := hdefines.bind fun _ s _ t hagrees =>
    Session.parallel_run_comment store name C hend h hagrees
  have hresult (file : SourceFile) : preprocess store defines file =
      Session.exec (do defines.forM Session.define; Session.run store file) {} >>= fun r =>
        pure ((r.1.map fun _ => r.2.output).map MarkedText.text) := by
    rw [preprocess, preprocessMarked, bind_assoc]
    exact bind_congr fun r => pure_bind _ _
  rw [hresult, hresult]
  refine Coupled.eq (Coupled.bind hrun fun r r' hr => coupled_pure ?_)
  cases hr with
  | ok hpieces => exact congrArg Except.ok (congrArg (List.flatMap Piece.text) hpieces)
  | error e => rfl

theorem replaceTrigraphs_one : Source.replaceTrigraphs "/* one */".toList = "/* one */".toList := by
  decide +kernel

theorem textBefore_define : Source.textBefore "#define X".toList = "#define X".toList := by
  decide +kernel

theorem scan_define_one :
    scan (Source.logicalText ("#define X".toList ++ ("/* one */".toList ++ "1\nX\n".toList))) =
      [⟨.punctuation, ['#'], 1⟩, ⟨.word, "define".toList, 1⟩, spaceAt 1, ⟨.word, ['X'], 1⟩,
        ⟨.comment, "/* one */".toList, 1⟩, ⟨.number, ['1'], 1⟩, ⟨.newline, ['\n'], 1⟩,
        ⟨.word, ['X'], 2⟩, ⟨.newline, ['\n'], 2⟩] := by
  decide +kernel

/-- A comment between the name of a macro and its body. -/
def bodyComment : PlacedComment "#define X".toList "/* one */".toList "1\nX\n".toList where
  before := [⟨.punctuation, ['#'], 1⟩, ⟨.word, "define".toList, 1⟩, spaceAt 1, ⟨.word, ['X'], 1⟩]
  comment := ⟨.comment, "/* one */".toList, 1⟩
  behind := [⟨.number, ['1'], 1⟩, ⟨.newline, ['\n'], 1⟩, ⟨.word, ['X'], 2⟩, ⟨.newline, ['\n'], 2⟩]
  block := ⟨⟨" one ".toList, rfl⟩, by simp [isLineEnd]⟩
  slash := by decide
  kind := rfl
  text := replaceTrigraphs_one.symm
  text_before := textBefore_define.symm
  lexemes := scan_define_one

theorem preprocess_comment_eq_space_body :
    bodyComment.EndsPlainly ∧
      Unheeded (lineBefore bodyComment.before) (lineBehind bodyComment.behind) ∧
      preprocess (m := Id) (SourceStore.ofList []) []
          ⟨['a'], "#define X".toList ++ ("/* one */".toList ++ "1\nX\n".toList)⟩ =
        preprocess (m := Id) (SourceStore.ofList []) []
          ⟨['a'], "#define X".toList ++ ' ' :: "1\nX\n".toList⟩ := by
  have hend : bodyComment.EndsPlainly := by
    intro hends
    have hone : Source.endsLine (Source.replaceTrigraphs "1\nX\n".toList) = false := by
      decide +kernel
    rw [hone] at hends
    cases hends
  have hunheeded : Unheeded (lineBefore bodyComment.before) (lineBehind bodyComment.behind) :=
    ⟨by decide +kernel, by decide +kernel, by decide +kernel, by decide +kernel, by decide +kernel⟩
  exact ⟨hend, hunheeded,
    preprocess_comment_eq_space (SourceStore.ofList []) [] ['a'] bodyComment hend hunheeded⟩

end IdlFrontend
