import Mathlib.Control.Basic
import IdlFrontend.Proofs.Macro.ObjectLike
import IdlFrontend.Proofs.Session.Suspension

/-!
# Other ways to read a line

A session can read its files with any reader of lines in place of its own. One such
reader watches another one and gives up where a macro with parameters is defined.

Results:

* `preprocessBy_readLine`: the reader of a session is one of these.
* `Cuts.bind`: computations that give up, step by step.
* `cuts_preprocessBy`: a session that is watched does what it does when it is not, unless
  there is a macro with parameters.
-/

namespace IdlFrontend

/-! ## Computations that may give up -/

variable {m : Type → Type} [Monad m] {α β : Type}

section Cuts

/-- The computation `x` does what `y` does, except that it may give up before `y` has come
    to its end. -/
def Cuts (x : OptionT m α) (y : m α) : Prop :=
  ∃ z : m (α ⊕ m α), x.run = z >>= Sum.elim (fun a => pure (some a)) (fun _ => pure none) ∧
    y = z >>= Sum.elim pure id

theorem Cuts.id_eq {x : OptionT Id α} {y : Id α} {a : α} (h : Cuts x y) (hx : x.run = some a) :
    y = a := by
  obtain ⟨z, hz, rfl⟩ := h
  rw [hx] at hz
  cases z with
  | inl b => exact (Option.some.inj hz).symm
  | inr rest => cases hz

/-- A computation that does not give up has the effect on the world that it has when it
    may not do so. -/
theorem Cuts.run_eq {World : Type} {x : OptionT (StateM World) α} {y : StateM World α}
    (h : Cuts x y) {w w' : World} {a : α} (hx : StateT.run x.run w = (some a, w')) :
    StateT.run y w = (a, w') := by
  obtain ⟨z, hrun, rfl⟩ := h
  rw [hrun, StateT.run_bind] at hx
  rw [StateT.run_bind]
  rcases hz : StateT.run z w with ⟨b | rest, w''⟩
  · rw [hz] at hx
    cases hx
    rfl
  · rw [hz] at hx
    cases hx

variable [LawfulMonad m]

theorem cuts_pure (a : α) : Cuts (pure a : OptionT m α) (pure a) := by
  refine ⟨pure (.inl a), ?_, ?_⟩ <;> rw [pure_bind] <;> rfl

theorem cuts_failure (y : m α) : Cuts failure y := by
  refine ⟨pure (.inr y), ?_, ?_⟩ <;> rw [pure_bind] <;> rfl

theorem failure_bind (f : α → OptionT m β) : (failure : OptionT m α) >>= f = failure := by
  apply OptionT.ext
  rw [OptionT.run_bind, OptionT.run_failure, Option.elimM, pure_bind]
  rfl

theorem cuts_lift (y : m α) : Cuts (OptionT.lift y) y := by
  refine ⟨Sum.inl <$> y, ?_, ?_⟩
  · rw [OptionT.run_lift, bind_map_left]
    rfl
  · rw [bind_map_left]
    exact (bind_pure y).symm

theorem Cuts.bind {x : OptionT m α} {y : m α} {f : α → OptionT m β} {g : α → m β} (h : Cuts x y)
    (hfg : ∀ a, Cuts (f a) (g a)) : Cuts (x >>= f) (y >>= g) := by
  obtain ⟨z, hz, rfl⟩ := h
  choose w hf hg using hfg
  refine ⟨z >>= Sum.elim w fun rest => pure (.inr (rest >>= g)), ?_, ?_⟩
  · rw [OptionT.run_bind, hz, Option.elimM, bind_assoc, bind_assoc]
    refine bind_congr fun r => ?_
    cases r with
    | inl a =>
      show pure (some a) >>= _ = w a >>= _
      rw [pure_bind]
      exact hf a
    | inr rest =>
      show pure none >>= _ = pure (Sum.inr (rest >>= g)) >>= _
      rw [pure_bind, pure_bind]
      rfl
  · rw [bind_assoc, bind_assoc]
    refine bind_congr fun r => ?_
    cases r with
    | inl a =>
      show pure a >>= g = w a >>= _
      rw [pure_bind]
      exact hg a
    | inr rest =>
      show rest >>= g = pure (Sum.inr (rest >>= g)) >>= _
      rw [pure_bind]
      rfl

end Cuts

namespace Session

/-! ## Readers of lines -/

/-- A way to read a line. Included files are read by the first argument. -/
abbrev LineReader (m : Type → Type) [Monad m] :=
  (Text → Bool → Nat → PreprocessM m Unit) → OpenFile → List Lexeme → PreprocessM m OpenFile

/-- A way to read a file. Included files are read by the second argument. -/
abbrev FileReader (m : Type → Type) [Monad m] :=
  SourceFile → (Text → Bool → Nat → PreprocessM m Unit) → PreprocessM m Unit

/-- Reads a file line by line, and does `close` behind its last line. -/
def readLinesBy (line : LineReader m) (close : OpenFile → PreprocessM m OpenFile) : FileReader m :=
  fun file enter => do
    defineFileName file.name
    let f ← (sourceLines file.contents).foldlM (line enter) { name := file.name }
    let f ← close f
    MonadExcept.ofExcept f.conditionals.finish

/-- Reads a file line by line, and writes what is left behind its last line. -/
def readFileWithBy (line : LineReader m) (file : SourceFile)
    (enter : Text → Bool → Nat → PreprocessM m Unit) : PreprocessM m Unit :=
  readLinesBy line flush file enter

/-- Reads a file, and the files that it includes in the same way. -/
def readNested (read : FileReader m) (store : SourceStore m) :
    (depth : Nat) → (around : List Text) → SourceFile → PreprocessM m Unit
  | 0, _, _ => pure ()
  | depth + 1, around, file =>
    read file
      (enterFile store (file.name :: around) (readNested read store depth (file.name :: around)))

/-- A session reads its files so. -/
theorem readNested_readFileWith (store : SourceStore m) :
    readNested readFileWith store = readFile store := by
  funext depth
  induction depth with
  | zero => rfl
  | succ depth ih =>
    funext around file
    rw [readNested, ih]
    rfl

/-- Reads a file, and the files that it includes, line by line. -/
def readFileBy (line : LineReader m) (store : SourceStore m) :
    (depth : Nat) → (around : List Text) → SourceFile → PreprocessM m Unit :=
  readNested (readFileWithBy line) store

theorem readFileBy_readLine (store : SourceStore m) : readFileBy readLine store = readFile store :=
  readNested_readFileWith store

/-- What a session does with macros defined beforehand and a file. -/
def workBy (line : LineReader m) (store : SourceStore m) (defines : List Predefinition)
    (file : SourceFile) : PreprocessM m Unit := do
  defines.forM Session.define
  readFileBy line store (store.capacity + 1) [] file

end Session

/-- The preprocessed text of a file, with macros defined beforehand, where lines are read by
    the given reader. -/
def preprocessBy (line : Session.LineReader m) (store : SourceStore m)
    (defines : List Predefinition) (file : SourceFile) : m (Except PreprocessError Text) := do
  let (result, s) ← Session.exec (Session.workBy line store defines file) {}
  return result.map fun _ => s.output.text

theorem preprocessBy_readLine [LawfulMonad m] (store : SourceStore m) (defines : List Predefinition)
    (file : SourceFile) :
    preprocessBy Session.readLine store defines file = preprocess store defines file := by
  rw [preprocessBy, Session.workBy, Session.readFileBy_readLine, preprocess, preprocessMarked,
    bind_assoc]
  refine bind_congr fun r => ?_
  rw [pure_bind]
  obtain ⟨e | a, s⟩ := r <;> rfl

/-! ## Watched sessions -/

/-- The same store for a session that may give up. -/
def SourceStore.orGiveUp (store : SourceStore m) : SourceStore (OptionT m) where
  find request := OptionT.lift (store.find request)
  capacity := store.capacity

namespace Session

/-- Gives up if there is a macro with parameters. -/
def requireObjectLike : PreprocessM (OptionT m) Unit := do
  let s ← get
  if s.macros.IsObjectLike then pure () else liftM (failure : OptionT m Unit)

theorem exec_requireObjectLike [LawfulMonad m] (s : Session) :
    exec (requireObjectLike : PreprocessM (OptionT m) Unit) s =
      if s.macros.IsObjectLike then pure (.ok (), s) else failure := by
  rw [requireObjectLike, exec_bind_ok (exec_get s)]
  split
  · exact exec_pure () s
  · rw [exec_lift]
    exact failure_bind _

/-- Reads a line as `line` does, and gives up if there is a macro with parameters before or
    behind it. -/
def withoutParameters (line : LineReader (OptionT m)) : LineReader (OptionT m) :=
  fun enter f group => do
    requireObjectLike
    let f ← line enter f group
    requireObjectLike
    return f

/-- The step `x` does what `y` does, unless it gives up. -/
def CutsStep (x : PreprocessM (OptionT m) α) (y : PreprocessM m α) : Prop :=
  ∀ s, Cuts (exec x s) (exec y s)

/-- Reading an included file does the same, unless it gives up. -/
def CutsInclude (enter : Text → Bool → Nat → PreprocessM (OptionT m) Unit)
    (enter' : Text → Bool → Nat → PreprocessM m Unit) : Prop :=
  ∀ name quoted number, CutsStep (enter name quoted number) (enter' name quoted number)

/-- The reader `line` does what `line'` does, unless it gives up. -/
def CutsLine (line : LineReader (OptionT m)) (line' : LineReader m) : Prop :=
  ∀ enter enter', CutsInclude enter enter' →
    ∀ f group, CutsStep (line enter f group) (line' enter' f group)

variable [LawfulMonad m]

theorem CutsStep.bind {x : PreprocessM (OptionT m) α} {y : PreprocessM m α}
    {f : α → PreprocessM (OptionT m) β} {g : α → PreprocessM m β} (h : CutsStep x y)
    (hfg : ∀ a, CutsStep (f a) (g a)) : CutsStep (x >>= f) (y >>= g) := by
  intro s
  rw [exec_bind, exec_bind]
  refine (h s).bind fun r => ?_
  obtain ⟨e | a, t⟩ := r
  · exact cuts_pure _
  · exact hfg a t

/-- A step that comes to the same result in any monad never gives up. -/
theorem cutsStep_of_exec {x : PreprocessM (OptionT m) α} {y : PreprocessM m α}
    (r : Session → Except PreprocessError α × Session) (hx : ∀ s, exec x s = pure (r s))
    (hy : ∀ s, exec y s = pure (r s)) : CutsStep x y := by
  intro s
  rw [hx, hy]
  exact cuts_pure _

theorem cutsStep_pure (a : α) : CutsStep (m := m) (pure a) (pure a) :=
  cutsStep_of_exec (fun s => (.ok a, s)) (exec_pure a) (exec_pure a)

theorem cutsStep_throw (e : PreprocessError) : CutsStep (m := m) (α := α) (throw e) (throw e) :=
  cutsStep_of_exec (fun s => (.error e, s)) (exec_throw e) (exec_throw e)

theorem cutsStep_find (store : SourceStore m) (request : IncludeRequest) :
    CutsStep (m := m) (liftM (store.orGiveUp.find request)) (liftM (store.find request)) := by
  intro s
  rw [exec_lift, exec_lift]
  exact (cuts_lift _).bind fun found => cuts_pure _

theorem cutsStep_foldlM {f : β → α → PreprocessM (OptionT m) β} {g : β → α → PreprocessM m β}
    (h : ∀ b a, CutsStep (f b a) (g b a)) (as : List α) (b : β) :
    CutsStep (as.foldlM f b) (as.foldlM g b) := by
  induction as generalizing b with
  | nil => exact cutsStep_pure b
  | cons a as ih =>
    rw [List.foldlM_cons, List.foldlM_cons]
    exact (h b a).bind ih

theorem cutsStep_defineLexemes (args : List Lexeme) (line : Nat) :
    CutsStep (m := m) (defineLexemes args line) (defineLexemes args line) :=
  cutsStep_of_exec _ (exec_defineLexemes args line) (exec_defineLexemes args line)

theorem cutsStep_flush (f : OpenFile) : CutsStep (m := m) (flush f) (flush f) :=
  cutsStep_of_exec _ (exec_flush f) (exec_flush f)

/-- What waits for the outcomes of includes gives up at most where one of them does. -/
theorem cuts_handle {enter : Text → Bool → Nat → PreprocessM (OptionT m) Unit}
    {enter' : Text → Bool → Nat → PreprocessM m Unit} (h : CutsInclude enter enter')
    (x : Suspended α) : Cuts (x.handle enter) (x.handle enter') := by
  induction x with
  | done a => exact cuts_pure a
  | including name quoted line s resume ih => exact (h name quoted line s).bind ih

theorem cutsLine_readLine : CutsLine (m := m) readLine readLine := by
  intro enter enter' h f group s
  have hsuspended := cuts_handle h (exec (readLine suspend f group) s)
  rwa [handles_readLine f group s, handles_readLine f group s] at hsuspended

theorem CutsLine.withoutParameters {line : LineReader (OptionT m)} {line' : LineReader m}
    (h : CutsLine line line') : CutsLine (withoutParameters line) line' := by
  intro enter enter' henter f group
  have hrequire {x : PreprocessM (OptionT m) OpenFile} {y : PreprocessM m OpenFile}
      (hxy : CutsStep x y) : CutsStep (requireObjectLike >>= fun _ => x) y := by
    intro s
    rw [exec_bind, exec_requireObjectLike]
    split
    · rw [pure_bind]
      exact hxy s
    · rw [failure_bind]
      exact cuts_failure _
  have hline : CutsStep (do let g ← line enter f group; requireObjectLike; return g)
      (line' enter' f group >>= pure) :=
    (h enter enter' henter f group).bind fun g => hrequire (cutsStep_pure g)
  rw [bind_pure] at hline
  exact hrequire hline

theorem cutsStep_readFileBy {line : LineReader (OptionT m)} {line' : LineReader m}
    (h : CutsLine line line') (store : SourceStore m) (depth : Nat) (around : List Text)
    (file : SourceFile) :
    CutsStep (readFileBy line store.orGiveUp depth around file)
      (readFileBy line' store depth around file) := by
  induction depth generalizing around file with
  | zero => exact cutsStep_pure ()
  | succ depth ih =>
    refine (cutsStep_defineLexemes _ _).bind fun _ => ?_
    refine (cutsStep_foldlM (h _ _ fun name quoted number => ?_) _ _).bind fun f => ?_
    · refine (cutsStep_find store _).bind fun found => ?_
      cases found with
      | none => exact cutsStep_throw _
      | some found =>
        dsimp only
        split
        · exact cutsStep_throw _
        · exact ih _ found
    · refine (cutsStep_flush f).bind fun f => ?_
      exact cutsStep_of_exec (fun s => (f.conditionals.finish, s)) (exec_ofExcept _)
        (exec_ofExcept _)

theorem cutsStep_workBy {line : LineReader (OptionT m)} {line' : LineReader m}
    (h : CutsLine line line') (store : SourceStore m) (defines : List Predefinition)
    (file : SourceFile) :
    CutsStep (workBy line store.orGiveUp defines file) (workBy line' store defines file) := by
  have hdefines :
      CutsStep (m := m) (defines.forM Session.define) (defines.forM Session.define) := by
    induction defines with
    | nil => exact cutsStep_pure _
    | cons d defines ih => exact (cutsStep_defineLexemes _ _).bind fun _ => ih
  exact hdefines.bind fun _ => cutsStep_readFileBy h store _ _ _

end Session

/-- A session does the same when it is watched, unless there is a macro with parameters. -/
theorem cuts_preprocessBy [LawfulMonad m] {line : Session.LineReader (OptionT m)}
    {line' : Session.LineReader m} (h : Session.CutsLine line line') (store : SourceStore m)
    (defines : List Predefinition) (file : SourceFile) :
    Cuts (preprocessBy line store.orGiveUp defines file) (preprocessBy line' store defines file) :=
  (Session.cutsStep_workBy h store defines file {}).bind fun _ => cuts_pure _

end IdlFrontend
