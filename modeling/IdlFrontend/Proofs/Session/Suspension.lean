import IdlFrontend.Proofs.Session.Run

/-!
# Reading up to the next include

A file can be read without the files that it includes: the reading stops where one of
them has to be entered, and waits for the outcome. What remains to be done then is a
value of its own, so that the files that wait for each other can be kept in a stack.

Results:

* `handle_bind`: answering the includes of two steps is answering those of the first one
  and then those of the second one.
* `handles_readLine`, `handles_readFileWith`: a line, and a whole file, is read the same
  way when its includes are answered one after the other from outside.
-/

namespace IdlFrontend.Session

variable {m : Type → Type} [Monad m] {α β : Type}

/-- The outcome of reading a file, and the session behind it. -/
abbrev Outcome := Except PreprocessError Unit × Session

/-- A computation that is done, or that waits for the outcome of an include directive of
    the given line. The session is the one in which the directive was met. -/
inductive Suspended (α : Type) where
  | done (a : α)
  | including (name : Text) (quoted : Bool) (line : Nat) (s : Session)
      (resume : Outcome → Suspended α)

namespace Suspended

/-- Goes on with the value when the computation is done. -/
def andThen (f : α → Suspended β) : Suspended α → Suspended β
  | .done a => f a
  | .including name quoted line s resume =>
    .including name quoted line s fun r => (resume r).andThen f

instance : Monad Suspended where
  pure := done
  bind x f := x.andThen f

theorem done_bind (a : α) (f : α → Suspended β) : Suspended.done a >>= f = f a := rfl

theorem including_bind (name : Text) (quoted : Bool) (line : Nat) (s : Session)
    (resume : Outcome → Suspended α) (f : α → Suspended β) :
    Suspended.including name quoted line s resume >>= f =
      .including name quoted line s fun r => resume r >>= f := rfl

instance : LawfulMonad Suspended :=
  LawfulMonad.mk' Suspended
    (fun x => by
      show x.andThen (fun a => .done a) = x
      induction x with
      | done a => rfl
      | including name quoted line s resume ih =>
        exact congrArg (Suspended.including name quoted line s) (funext ih))
    (fun _ _ => rfl)
    (fun x f g => by
      show (x.andThen f).andThen g = x.andThen fun a => (f a).andThen g
      induction x with
      | done a => rfl
      | including name quoted line s resume ih =>
        exact congrArg (Suspended.including name quoted line s) (funext ih))

/-- Answers every include with what `enter` does. -/
def handle (enter : Text → Bool → Nat → PreprocessM m Unit) : Suspended α → m α
  | .done a => pure a
  | .including name quoted line s resume =>
    exec (enter name quoted line) s >>= fun r => (resume r).handle enter

theorem handle_bind [LawfulMonad m] (enter : Text → Bool → Nat → PreprocessM m Unit)
    (x : Suspended α) (f : α → Suspended β) :
    (x >>= f).handle enter = x.handle enter >>= fun a => (f a).handle enter := by
  induction x with
  | done a => rw [done_bind, handle, pure_bind]
  | including name quoted line s resume ih =>
    rw [including_bind, handle, handle, bind_assoc]
    exact bind_congr ih

end Suspended

/-- Waits for the outcome of an include directive. -/
def suspend (name : Text) (quoted : Bool) (line : Nat) : PreprocessM Suspended Unit :=
  ExceptT.mk fun s => .including name quoted line s .done

theorem exec_suspend (name : Text) (quoted : Bool) (line : Nat) (s : Session) :
    exec (suspend name quoted line) s = .including name quoted line s .done := rfl

/-! ## Answering the includes of a step -/

/-- Answered by `enter`, the includes of the step `x` make it the step `y`. -/
def Handles (enter : Text → Bool → Nat → PreprocessM m Unit) (x : PreprocessM Suspended α)
    (y : PreprocessM m α) : Prop :=
  ∀ s, (exec x s).handle enter = exec y s

variable [LawfulMonad m] {enter : Text → Bool → Nat → PreprocessM m Unit}

theorem handles_suspend (name : Text) (quoted : Bool) (line : Nat) :
    Handles enter (suspend name quoted line) (enter name quoted line) := by
  intro s
  rw [exec_suspend, Suspended.handle]
  exact bind_pure _

omit [LawfulMonad m] in
/-- A step that comes to the same result in any monad has no includes to answer. -/
theorem handles_of_exec {x : PreprocessM Suspended α} {y : PreprocessM m α}
    (r : Session → Except PreprocessError α × Session) (hx : ∀ s, exec x s = pure (r s))
    (hy : ∀ s, exec y s = pure (r s)) : Handles enter x y := by
  intro s
  rw [hx, hy]
  rfl

theorem Handles.bind {x : PreprocessM Suspended α} {y : PreprocessM m α}
    {f : α → PreprocessM Suspended β} {g : α → PreprocessM m β} (h : Handles enter x y)
    (hfg : ∀ a, Handles enter (f a) (g a)) : Handles enter (x >>= f) (y >>= g) := by
  intro s
  rw [exec_bind, exec_bind, Suspended.handle_bind, h s]
  refine bind_congr fun r => ?_
  obtain ⟨e | a, t⟩ := r
  · rfl
  · exact hfg a t

omit [LawfulMonad m] in
theorem handles_pure (a : α) : Handles enter (pure a) (pure a) :=
  handles_of_exec (fun s => (.ok a, s)) (exec_pure a) (exec_pure a)

omit [LawfulMonad m] in
theorem handles_throw (e : PreprocessError) : Handles (α := α) enter (throw e) (throw e) :=
  handles_of_exec (fun s => (.error e, s)) (exec_throw e) (exec_throw e)

omit [LawfulMonad m] in
theorem handles_ofExcept (r : Except PreprocessError α) :
    Handles enter (MonadExcept.ofExcept r) (MonadExcept.ofExcept r) :=
  handles_of_exec (fun s => (r, s)) (exec_ofExcept r) (exec_ofExcept r)

theorem handles_get : Handles enter get get :=
  handles_of_exec (fun s => (.ok s, s)) exec_get exec_get

theorem handles_modify (f : Session → Session) : Handles enter (modify f) (modify f) :=
  handles_of_exec (fun s => (.ok ⟨⟩, f s)) (exec_modify f) (exec_modify f)

/-- A loop over a list, in which each step has its includes answered. -/
theorem handles_foldlM {f : β → α → PreprocessM Suspended β} {g : β → α → PreprocessM m β}
    (h : ∀ b a, Handles enter (f b a) (g b a)) (as : List α) (b : β) :
    Handles enter (as.foldlM f b) (as.foldlM g b) := by
  induction as generalizing b with
  | nil => exact handles_pure b
  | cons a as ih =>
    rw [List.foldlM_cons, List.foldlM_cons]
    exact (h b a).bind ih

/-! ## The steps of a session -/

theorem handles_defineLexemes (args : List Lexeme) (line : Nat) :
    Handles enter (defineLexemes args line) (defineLexemes args line) :=
  handles_of_exec _ (exec_defineLexemes args line) (exec_defineLexemes args line)

theorem handles_defineFileName (name : Text) :
    Handles enter (defineFileName name) (defineFileName name) :=
  handles_of_exec _ (exec_defineFileName name) (exec_defineFileName name)

theorem handles_flush (f : OpenFile) : Handles enter (flush f) (flush f) :=
  handles_of_exec _ (exec_flush f) (exec_flush f)

theorem handles_includeTarget (args : List Lexeme) (line : Nat) :
    Handles enter (includeTarget args line) (includeTarget args line) := by
  unfold includeTarget
  split
  · exact handles_pure _
  · refine handles_get.bind fun s => ?_
    refine (handles_ofExcept _).bind fun expanded => ?_
    split
    · exact handles_pure _
    · exact handles_throw _

theorem handles_changeLine (f : OpenFile) (target : List Lexeme) (line : Nat) :
    Handles enter (changeLine f target line) (changeLine f target line) := by
  unfold changeLine
  split
  · exact handles_throw _
  · refine (handles_flush f).bind fun g => ?_
    dsimp only
    split
    · split
      · exact handles_pure _
      · exact (handles_defineFileName _).bind fun _ => handles_pure _
    · exact handles_throw _

/-- Only an include directive waits. -/
theorem handles_obey (f : OpenFile) (group : List Lexeme) (d : DirectiveLine)
    (name : CommandName) :
    Handles enter (obey suspend f group d name) (obey enter f group d name) := by
  match name with
  | .define =>
    refine (handles_flush f).bind fun g => ?_
    exact (handles_defineLexemes _ _).bind fun _ => handles_pure g
  | .undef =>
    refine (handles_flush f).bind fun g => ?_
    split
    · exact handles_throw _
    · exact (handles_modify _).bind fun _ => handles_pure g
  | .include =>
    refine (handles_flush f).bind fun g => ?_
    refine (handles_includeTarget _ _).bind fun target => ?_
    refine (handles_suspend _ _ _).bind fun _ => ?_
    exact (handles_defineFileName _).bind fun _ => handles_pure g
  | .pragma =>
    refine (handles_flush f).bind fun g => ?_
    exact (handles_modify _).bind fun _ => handles_pure g
  | .line => exact handles_changeLine f _ _

theorem handles_readLine (f : OpenFile) (group : List Lexeme) :
    Handles enter (readLine suspend f group) (readLine enter f group) := by
  unfold readLine
  dsimp only
  split
  · split
    · exact handles_pure _
    · exact handles_pure _
  · split
    · refine handles_get.bind fun s => ?_
      refine (handles_ofExcept _).bind fun conditionals => ?_
      exact (handles_pure _).bind fun g => handles_pure _
    · split
      · exact (handles_obey f _ _ _).bind fun g => handles_pure _
      · exact (handles_pure _).bind fun g => handles_pure _
    · exact (handles_pure _).bind fun g => handles_pure _

/-- A file that waits at each of its includes is read as one that has them read by `enter`,
    when `enter` gives the outcomes that it waits for. -/
theorem handles_readFileWith (enter : Text → Bool → Nat → PreprocessM m Unit) (file : SourceFile) :
    Handles enter (readFileWith file suspend) (readFileWith file enter) := by
  unfold readFileWith
  refine (handles_defineFileName _).bind fun _ => ?_
  refine (handles_foldlM handles_readLine _ _).bind fun f => ?_
  refine (handles_flush f).bind fun g => ?_
  exact handles_ofExcept _

end IdlFrontend.Session
