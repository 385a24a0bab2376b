import IdlFrontend.Proofs.Conditional.Lines
import IdlFrontend.Proofs.Macro.Closure

/-!
# Files without directives

Results:

* `preprocessMarked_of_text`: a file without directives is cut into lexemes, expanded
  and written, and nothing else happens.
* `preprocessMarked_of_no_macros`: if it does not ask for its name or its lines either,
  the lexemes are written as they are.
-/

namespace IdlFrontend

namespace Session

theorem renumber_flatten (shift : Int) (groups : List (List Lexeme)) :
    (groups.map (renumber shift)).flatten = renumber shift groups.flatten :=
  List.map_flatten.symm

theorem ofGroup?_of_text {table : MacroTable} {group : List Lexeme} (h : directive? group = none) :
    SourceLine.ofGroup? table group = some (.text group) := by
  rw [SourceLine.ofGroup?, h]

/-- What remains of lines of text outside of all conditionals is all of them. -/
theorem remaining_text (groups : List (List Lexeme)) :
    Blocks.remaining [] (groups.map .text) = groups.flatten ∧
      Blocks.firstRefusal? [] (groups.map .text) = none ∧
      Blocks.afterAll [] (groups.map .text) = [] := by
  induction groups with
  | nil => exact ⟨rfl, rfl, rfl⟩
  | cons group groups ih =>
    obtain ⟨hremaining, hrefusal, hafter⟩ := ih
    refine ⟨?_, hrefusal, hafter⟩
    show group ++ Blocks.remaining [] (groups.map .text) = _
    rw [hremaining, List.flatten_cons]

variable {m : Type → Type} [Monad m] [LawfulMonad m]

theorem exec_readFileWith_of_text (enter : Text → Bool → Nat → PreprocessM m Unit)
    (file : SourceFile) (s : Session)
    (h : ∀ group ∈ sourceLines file.contents, directive? (renumber 0 group) = none) :
    exec (readFileWith file enter) s =
      let macros := s.macros.insert (fileMacro file.name)
      pure (match macros.expand (renumber 0 (sourceLines file.contents).flatten) with
        | .error e => (.error e, { s with macros })
        | .ok ts => (.ok (), { macros, output := s.output.push file.name ts })) := by
  obtain ⟨hremaining, hrefusal, hafter⟩ :=
    remaining_text ((sourceLines file.contents).map (renumber 0))
  have htext : (sourceLines file.contents).map (fun group =>
      SourceLine.ofGroup? (s.macros.insert (fileMacro file.name)) (renumber 0 group)) =
        (((sourceLines file.contents).map (renumber 0)).map .text).map some := by
    rw [List.map_map, List.map_map]
    exact List.map_congr_left fun group hgroup => ofGroup?_of_text (h group hgroup)
  have hlines := exec_readLines (m := m) enter (f := { name := file.name })
    (s := { s with macros := s.macros.insert (fileMacro file.name) })
    (show _ = Conditionals.ofBlocks [] from rfl) htext
  rw [hrefusal, hremaining, hafter, renumber_flatten] at hlines
  unfold readFileWith
  rw [exec_bind_ok (exec_defineFileName _ _), exec_bind_ok hlines]
  have hflush := exec_flush (m := m)
    (OpenFile.mk file.name (renumber 0 (sourceLines file.contents).flatten) (.ofBlocks []) 0)
    { s with macros := s.macros.insert (fileMacro file.name) }
  dsimp only [List.nil_append] at hflush ⊢
  cases hexpand : (s.macros.insert (fileMacro file.name)).expand
      (renumber 0 (sourceLines file.contents).flatten) with
  | error e =>
    rw [hexpand] at hflush
    exact exec_bind_error hflush
  | ok ts =>
    rw [hexpand] at hflush
    exact (exec_bind_ok hflush).trans (exec_ofExcept _ _)

end Session

/-- A file without directives is cut into lexemes, expanded and written. -/
theorem preprocessMarked_of_text {m : Type → Type} [Monad m] [LawfulMonad m]
    (store : SourceStore m) (file : SourceFile)
    (h : ∀ group ∈ Session.sourceLines file.contents,
      directive? (Session.renumber 0 group) = none) :
    preprocessMarked store [] file =
      pure ((MacroTable.insert {} (Session.fileMacro file.name)).expand (Session.renumber 0
        (Lexeme.scan (Source.joinContinuations (Source.replaceTrigraphs file.contents)))) |>.map
          fun ts => ({} : MarkedText).push file.name ts) := by
  have hrun : Session.exec (do
      ([] : List Predefinition).forM Session.define
      Session.run store file : PreprocessM m Unit) {} = _ :=
    (Session.exec_bind_ok (Session.exec_pure () {})).trans
      (Session.exec_readFileWith_of_text _ file {} h)
  have hflatten : (Session.sourceLines file.contents).flatten =
      Lexeme.scan (Source.joinContinuations (Source.replaceTrigraphs file.contents)) :=
    Lexeme.flatten_lines _
  rw [hflatten] at hrun
  show (Session.exec _ _ >>= _ : m _) = _
  rw [hrun, pure_bind]
  cases (MacroTable.insert {} (Session.fileMacro file.name)).expand (Session.renumber 0
      (Lexeme.scan (Source.joinContinuations (Source.replaceTrigraphs file.contents)))) with
  | error e | ok ts => rfl

/-- A file without directives that asks for neither its name nor its lines is written
    as it is cut into lexemes. -/
theorem preprocessMarked_of_no_macros {m : Type → Type} [Monad m] [LawfulMonad m]
    (store : SourceStore m) (file : SourceFile)
    (h : ∀ group ∈ Session.sourceLines file.contents, directive? (Session.renumber 0 group) = none)
    (hwords : ∀ t ∈ Lexeme.scan (Source.joinContinuations (Source.replaceTrigraphs file.contents)),
      t.kind = .word → t.text ≠ "__FILE__".toList ∧ t.text ≠ "__LINE__".toList) :
    preprocessMarked store [] file =
      pure (.ok (({} : MarkedText).push file.name (Session.renumber 0
        (Lexeme.scan (Source.joinContinuations (Source.replaceTrigraphs file.contents)))))) := by
  rw [preprocessMarked_of_text store file h]
  generalize Lexeme.scan (Source.joinContinuations (Source.replaceTrigraphs file.contents)) =
    ts at hwords
  have hexpand : (MacroTable.insert {} (Session.fileMacro file.name)).expand
      (Session.renumber 0 ts) = .ok (Session.renumber 0 ts) := by
    refine MacroTable.expand_eq_self fun t ht hword => ?_
    obtain ⟨u, hu, rfl⟩ := List.mem_map.1 ht
    obtain ⟨hfile, hline⟩ := hwords u hu hword
    refine ⟨?_, hline⟩
    rw [MacroTable.find?_insert_of_ne _ _ hfile]
    rfl
  rw [hexpand]
  rfl

end IdlFrontend
