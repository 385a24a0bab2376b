import IdlFrontend.Preprocess.Session
import IdlFrontend.Proofs.Macro.Define

/-!
# Running the steps of a session

A step of a session runs from a state to a result and a next state. This module
says what the building blocks of the steps do, so that no later proof has to
look into the monads they are made of.

Results:

* `exec_bind`: a step that fails ends the run, and what it did remains.
* `exec_flush`, `exec_defineLexemes`: what writing the collected text and defining
  a macro do.
* `exec_defineFileName`: letting `__FILE__` stand for a name never fails, and
  changes no other macro.
-/

namespace IdlFrontend.Session

variable {m : Type → Type} {α β : Type}

/-- The result of a step from a state, and the state behind it. -/
def exec (x : PreprocessM m α) (s : Session) : m (Except PreprocessError α × Session) :=
  StateT.run (ExceptT.run x) s

/-- A step is what it does from every state. -/
theorem ext_exec {x y : PreprocessM m α} (h : ∀ s, exec x s = exec y s) : x = y :=
  ExceptT.ext (StateT.ext h)

variable [Monad m]

@[simp] theorem exec_pure (a : α) (s : Session) :
    exec (pure a : PreprocessM m α) s = pure (.ok a, s) := rfl

@[simp] theorem exec_throw (e : PreprocessError) (s : Session) :
    exec (throw e : PreprocessM m α) s = pure (.error e, s) := rfl

@[simp] theorem exec_ofExcept (r : Except PreprocessError α) (s : Session) :
    exec (MonadExcept.ofExcept r : PreprocessM m α) s = pure (r, s) := by
  cases r <;> rfl

section Laws

variable [LawfulMonad m]

@[simp] theorem exec_get (s : Session) :
    exec (get : PreprocessM m Session) s = pure (.ok s, s) := by
  show (_ >>= _ : m _) = _
  exact pure_bind _ _

@[simp] theorem exec_set (t s : Session) :
    exec (set t : PreprocessM m PUnit) s = pure (.ok ⟨⟩, t) := by
  show (_ >>= _ : m _) = _
  exact pure_bind _ _

@[simp] theorem exec_modify (f : Session → Session) (s : Session) :
    exec (modify f : PreprocessM m PUnit) s = pure (.ok ⟨⟩, f s) := by
  show (_ >>= _ : m _) = _
  exact pure_bind _ _

theorem exec_lift (x : m α) (s : Session) :
    exec (liftM x : PreprocessM m α) s = x >>= fun a => pure (.ok a, s) := by
  show ((x >>= fun a => pure (a, s)) >>= _ : m _) = _
  rw [bind_assoc]
  exact bind_congr fun a => pure_bind _ _

omit [LawfulMonad m] in
theorem exec_bind (x : PreprocessM m α) (f : α → PreprocessM m β) (s : Session) :
    exec (x >>= f) s = exec x s >>= fun
      | (.ok a, t) => exec (f a) t
      | (.error e, t) => pure (.error e, t) := by
  show (StateT.run (ExceptT.run x) s >>= _) = _
  refine bind_congr fun r => ?_
  obtain ⟨e | a, t⟩ := r <;> rfl

theorem exec_bind_ok {x : PreprocessM m α} {f : α → PreprocessM m β} {s t : Session} {a : α}
    (h : exec x s = pure (.ok a, t)) : exec (x >>= f) s = exec (f a) t := by
  rw [exec_bind, h, pure_bind]

theorem exec_bind_error {x : PreprocessM m α} {f : α → PreprocessM m β} {s t : Session}
    {e : PreprocessError} (h : exec x s = pure (.error e, t)) :
    exec (x >>= f) s = pure (.error e, t) := by
  rw [exec_bind, h, pure_bind]

theorem throw_bind (e : PreprocessError) (f : α → PreprocessM m β) :
    (throw e >>= f : PreprocessM m β) = throw e :=
  funext fun s => exec_bind_error (exec_throw e s)

theorem map_throw (e : PreprocessError) (f : α → β) :
    f <$> (throw e : PreprocessM m α) = throw e := by
  rw [← bind_pure_comp, throw_bind]

/-! ## Definitions and output -/

theorem exec_defineLexemes (args : List Lexeme) (line : Nat) (s : Session) :
    exec (defineLexemes args line : PreprocessM m Unit) s =
      pure (match s.macros.define args line with
        | .ok macros => (.ok (), { s with macros })
        | .error e => (.error e, s)) := by
  unfold defineLexemes
  rw [exec_bind_ok (exec_get s)]
  cases h : s.macros.define args line with
  | ok macros => rw [exec_bind_ok (exec_ofExcept _ _), exec_set]
  | error e => rw [exec_bind_error (exec_ofExcept _ _)]

theorem exec_flush (f : OpenFile) (s : Session) :
    exec (flush f : PreprocessM m OpenFile) s =
      pure (match s.macros.expand f.pending with
        | .ok ts => (.ok { f with pending := [] }, { s with output := s.output.push f.name ts })
        | .error e => (.error e, s)) := by
  unfold flush
  rw [exec_bind_ok (exec_get s)]
  cases h : s.macros.expand f.pending with
  | ok ts => rw [exec_bind_ok (exec_ofExcept _ _), exec_bind_ok (exec_set _ _), exec_pure]
  | error e => rw [exec_bind_error (exec_ofExcept _ _)]

/-- What `__FILE__` stands for in a file of the given name. -/
def fileBody (name : Text) : List Lexeme :=
  (Lexeme.stripBlank (Lexeme.scan ('"' :: quoteName name ++ ['"']))).map MacroTable.bodyLexeme

/-- The macro `__FILE__` for a file of the given name. -/
def fileMacro (name : Text) : Macro := ⟨"__FILE__".toList, .none, fileBody name⟩

/-- The file name in a definition of `__FILE__` is scanned behind a word and a space. -/
theorem scan_fileDefinition (cs : Text) :
    Lexeme.scan ("__FILE__ \"".toList ++ cs) =
      ⟨.word, "__FILE__".toList, 1⟩ :: .spaceAt 1 :: Lexeme.scan ('"' :: cs) := by
  rw [Lexeme.scan, show "__FILE__ \"".toList ++ cs =
    '_' :: '_' :: 'F' :: 'I' :: 'L' :: 'E' :: '_' :: '_' :: ' ' :: '"' :: cs from rfl]
  rw [Lexeme.scanFrom]
  simp [Lexeme.extent, Lexeme.isSpace, isBlank, isWordStart, isWordPart]
  rw [Lexeme.scanFrom]
  simp [Lexeme.extent, Lexeme.isSpace, isBlank, Lexeme.spaceAt, Lexeme.scan]

theorem exec_defineFileName (name : Text) (s : Session) :
    exec (defineFileName name : PreprocessM m Unit) s =
      pure (.ok (), { s with macros := s.macros.insert (fileMacro name) }) := by
  unfold defineFileName defineText
  rw [exec_defineLexemes, List.append_assoc, scan_fileDefinition,
    MacroTable.define_cons_blank _ rfl rfl]
  rfl

end Laws

end IdlFrontend.Session
