import IdlFrontend.Proofs.Conditional.Blocks
import IdlFrontend.Proofs.Session.Run

/-!
# Files of text and conditionals

A file without any other directives is read as a sequence of text lines and
directives of conditionals. What reading it does is said here by the blocks that
are open at each of its lines.

Results:

* `exec_readLine`: one line does what the blocks around it say.
* `exec_readLines`: so do the lines of a file, up to the first that fails.
* `readFileWith_follows_blocks`: reading such a file keeps a text line exactly if
  every open conditional is in its first true branch; evaluates a condition
  exactly if it matters; and fails at the first directive that is misplaced or
  has a malformed condition that matters, or else at its end if a conditional is
  still open.
-/

namespace IdlFrontend

/-- A line of a file without other directives than those of conditionals. -/
inductive SourceLine where
  | text (ts : List Lexeme)
  | branch (d : Branch) (lineBreak : List Lexeme)
deriving DecidableEq

namespace SourceLine

/-- The line that lexemes are, while the given macros are defined. There is none if
    they are another directive. -/
def ofGroup? (table : MacroTable) (group : List Lexeme) : Option SourceLine :=
  match directive? group with
  | none => some (.text group)
  | some d => match d.name? with
    | some (.branch name) =>
      some (.branch ⟨name, d.line, d.branchHolds table name⟩ (Session.lineBreak group))
    | _ => none

/-- The open conditionals behind a line. -/
def after (bs : Blocks) : SourceLine → Blocks
  | .text _ => bs
  | .branch d _ => bs.after d

/-- The failure at a line, if there is one. -/
def refusal? (bs : Blocks) : SourceLine → Option PreprocessError
  | .text _ => none
  | .branch d _ => bs.refusal? d

/-- What remains of a line: the whole of a text line that is kept, nothing of one
    that is not, and the line break of a directive. -/
def remains (bs : Blocks) : SourceLine → List Lexeme
  | .text ts => if bs.kept then ts else []
  | .branch _ lineBreak => lineBreak

end SourceLine

namespace Blocks

/-- The open conditionals behind lines. -/
def afterAll (bs : Blocks) (ls : List SourceLine) : Blocks := ls.foldl SourceLine.after bs

/-- The first failure at one of the lines, if there is one. -/
def firstRefusal? (bs : Blocks) : List SourceLine → Option PreprocessError
  | [] => none
  | l :: ls => (l.refusal? bs).or (firstRefusal? (l.after bs) ls)

/-- What remains of lines. -/
def remaining (bs : Blocks) : List SourceLine → List Lexeme
  | [] => []
  | l :: ls => l.remains bs ++ remaining (l.after bs) ls

end Blocks

namespace Session

variable {m : Type → Type} [Monad m] [LawfulMonad m]

theorem exec_readLine (enter : Text → Bool → Nat → PreprocessM m Unit) {f : OpenFile}
    {bs : Blocks} {s : Session} {group : List Lexeme} {l : SourceLine}
    (hf : f.conditionals = .ofBlocks bs)
    (hl : SourceLine.ofGroup? s.macros (renumber f.shift group) = some l) :
    exec (readLine enter f group) s = pure (match l.refusal? bs with
      | some e => (.error e, s)
      | none => (.ok { f with
          pending := f.pending ++ l.remains bs
          conditionals := .ofBlocks (l.after bs) }, s)) := by
  unfold SourceLine.ofGroup? at hl
  unfold readLine
  dsimp only
  cases hd : directive? (renumber f.shift group) with
  | none =>
    rw [hd] at hl
    cases hl
    simp only [SourceLine.refusal?, SourceLine.remains, SourceLine.after, hf,
      Conditionals.kept_ofBlocks]
    rw [← hf]
    by_cases hkept : bs.kept
    · simp [hkept]
    · simp [hkept]
  | some d =>
    rw [hd] at hl
    dsimp only at hl ⊢
    cases hname : d.name? with
    | none => simp [hname] at hl
    | some name =>
      cases name with
      | command name => simp [hname] at hl
      | branch name =>
        rw [hname] at hl
        cases hl
        have hbranch := Conditionals.branch_ofBlocks_outcome bs
          ⟨name, d.line, d.branchHolds s.macros name⟩
        simp only [SourceLine.refusal?, SourceLine.remains, SourceLine.after] at hbranch ⊢
        rw [exec_bind_ok (exec_get s), hf, hbranch]
        cases bs.refusal? ⟨name, d.line, d.branchHolds s.macros name⟩ with
        | some e => rw [exec_bind_error (exec_ofExcept _ _)]
        | none => rw [exec_bind_ok (exec_ofExcept _ _), pure_bind, exec_pure]

theorem exec_readLines (enter : Text → Bool → Nat → PreprocessM m Unit) {f : OpenFile}
    {bs : Blocks} {s : Session} {groups : List (List Lexeme)} {ls : List SourceLine}
    (hf : f.conditionals = .ofBlocks bs)
    (hls : groups.map (fun group => SourceLine.ofGroup? s.macros (renumber f.shift group)) =
      ls.map some) :
    exec (groups.foldlM (readLine enter) f) s = pure (match bs.firstRefusal? ls with
      | some e => (.error e, s)
      | none => (.ok { f with
          pending := f.pending ++ bs.remaining ls
          conditionals := .ofBlocks (bs.afterAll ls) }, s)) := by
  induction groups generalizing f bs ls with
  | nil =>
    cases ls with
    | nil =>
      simp only [List.foldlM_nil, exec_pure, Blocks.firstRefusal?, Blocks.remaining,
        List.append_nil, Blocks.afterAll, List.foldl_nil]
      rw [← hf]
    | cons l ls => simp at hls
  | cons group groups ih =>
    cases ls with
    | nil => simp at hls
    | cons l ls =>
      simp only [List.map_cons, List.cons.injEq] at hls
      have hline := exec_readLine enter hf hls.1
      rw [List.foldlM_cons, Blocks.firstRefusal?, Blocks.remaining]
      cases hrefusal : l.refusal? bs with
      | some e =>
        rw [hrefusal] at hline
        rw [exec_bind_error hline, Option.some_or]
      | none =>
        rw [hrefusal] at hline
        rw [exec_bind_ok hline, Option.none_or]
        have hrest := ih (f := OpenFile.mk f.name (f.pending ++ l.remains bs)
          (.ofBlocks (l.after bs)) f.shift) rfl hls.2
        rw [hrest]
        simp only [List.append_assoc, Blocks.afterAll, List.foldl_cons]

/-- **Conditional compilation follows the blocks.** For any lines of text and
    directives of conditionals:

    * at any place, in any monad, a directive evaluates its condition exactly if
      the region around it is kept and, for a further branch, no branch before it
      was; it leaves the flags of the blocks behind it, and the flags keep a text
      line exactly if every open conditional is in the first of its branches whose
      condition holds;
    * a file of such lines fails with the first of them that is misplaced, or whose
      condition is evaluated and malformed; otherwise the lines that remain are
      expanded and written, and the file fails at its end exactly if a conditional
      is open. -/
theorem readFileWith_follows_blocks (enter : Text → Bool → Nat → PreprocessM m Unit)
    (file : SourceFile) (s : Session) (ls : List SourceLine)
    (hls : (sourceLines file.contents).map (fun group =>
      SourceLine.ofGroup? (s.macros.insert (fileMacro file.name)) (renumber 0 group)) =
        ls.map some) :
    (∀ (n : Type → Type) [Monad n] [MonadExcept PreprocessError n] (bs : Blocks) (d : Branch)
      (condition : Unit → n Bool),
      (Conditionals.ofBlocks bs).kept = bs.kept ∧
      (Conditionals.ofBlocks bs).branch d.line condition d.name =
        if bs.misplaces d.name then throw ⟨.misplaced d.name, d.line⟩
        else if bs.evaluates d.name then do
          let holds ← condition ()
          return .ofBlocks (bs.after { d with outcome := .ok holds })
        else return .ofBlocks (bs.after d)) ∧
    exec (readFileWith file enter) s =
      let macros := s.macros.insert (fileMacro file.name)
      pure (match Blocks.firstRefusal? [] ls with
        | some e => (.error e, { s with macros })
        | none => match macros.expand (Blocks.remaining [] ls) with
          | .error e => (.error e, { s with macros })
          | .ok ts =>
            (match (Blocks.afterAll [] ls).unterminated? with
              | some e => .error e
              | none => .ok (),
            { macros, output := s.output.push file.name ts })) := by
  refine ⟨fun n _ _ bs d condition =>
    ⟨Conditionals.kept_ofBlocks bs, Conditionals.branch_ofBlocks bs d condition⟩, ?_⟩
  unfold readFileWith
  rw [exec_bind_ok (exec_defineFileName _ _)]
  have hlines := exec_readLines enter (f := { name := file.name })
    (s := { s with macros := s.macros.insert (fileMacro file.name) })
    (show _ = Conditionals.ofBlocks [] from rfl) hls
  cases hrefusal : Blocks.firstRefusal? [] ls with
  | some e =>
    rw [hrefusal] at hlines
    rw [exec_bind_error hlines]
  | none =>
    rw [hrefusal] at hlines
    rw [exec_bind_ok hlines]
    have hflush := exec_flush (m := m)
      (OpenFile.mk file.name (Blocks.remaining [] ls) (.ofBlocks (Blocks.afterAll [] ls)) 0)
      { s with macros := s.macros.insert (fileMacro file.name) }
    dsimp only [List.nil_append] at hflush ⊢
    cases hexpand : (s.macros.insert (fileMacro file.name)).expand (Blocks.remaining [] ls) with
    | error e =>
      rw [hexpand] at hflush
      rw [exec_bind_error hflush]
    | ok ts =>
      rw [hexpand] at hflush
      have hfinish := Conditionals.finish_ofBlocks (Blocks.afterAll [] ls)
      refine (exec_bind_ok hflush).trans ((exec_ofExcept _ _).trans ?_)
      cases hend : (Blocks.afterAll [] ls).unterminated? with
      | none | some e =>
        rw [hend] at hfinish
        dsimp only
        rw [hfinish]

/-- A malformed condition in a region that is not kept is no error, but the end of
    the file is one. -/
theorem readFileWith_follows_blocks_unterminated :
    let file : SourceFile := ⟨"t".toList, "#if 0\n#if 1 +\n#endif\n#elif 1\n;".toList⟩
    let newline (line : Nat) : Lexeme := ⟨.newline, ['\n'], line⟩
    let ls : List SourceLine :=
      [.branch ⟨.opener .condition, 1, .ok false⟩ [newline 1],
        .branch ⟨.opener .condition, 2, .error ⟨.invalidCondition "1 +".toList, 2⟩⟩ [newline 2],
        .branch ⟨.endif, 3, .ok true⟩ [newline 3], .branch ⟨.elif, 4, .ok true⟩ [newline 4],
        .text [⟨.punctuation, [';'], 5⟩]]
    (sourceLines file.contents).map (fun group =>
        SourceLine.ofGroup? (({} : Session).macros.insert (fileMacro file.name))
          (renumber 0 group)) =
      ls.map some ∧
    (exec (readFileWith file fun _ _ _ => pure () : PreprocessM Id Unit) {}).1 =
      .error ⟨.unterminated .condition, 1⟩ := by
  intro file newline ls
  have hls : (sourceLines file.contents).map (fun group =>
      SourceLine.ofGroup? (({} : Session).macros.insert (fileMacro file.name))
        (renumber 0 group)) = ls.map some := by decide +kernel
  have hexec := (readFileWith_follows_blocks (m := Id) (fun _ _ _ => pure ()) file {} ls hls).2
  refine ⟨hls, ?_⟩
  rw [hexec]
  decide +kernel

end Session

end IdlFrontend
