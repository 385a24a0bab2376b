import IdlFrontend.Preprocess.Error

/-!
# Conditionals

`#if`, `#ifdef` and `#ifndef` open a conditional, `#elif` and `#else` begin its
further branches, `#endif` closes it. Of the branches of a conditional in a kept
region, the first whose condition holds is kept. Conditions that cannot matter
are not evaluated.

Results:

* `kept_endif`: closing a conditional restores the region around it.
-/

namespace IdlFrontend

/-- A conditional that has been opened and not closed. Model of `Frame`. -/
structure Conditional where
  opener : Opener
  line : Nat
  /-- The region around the conditional is kept. -/
  reached : Bool
  /-- A branch has been kept, be it the current one or an earlier one. -/
  taken : Bool
  /-- The current branch is kept. -/
  keeping : Bool
deriving DecidableEq, Repr

/-- The open conditionals of a file, innermost first. Model of `ConditionalStack`. -/
abbrev Conditionals := List Conditional

namespace Conditionals

/-- Whether text is kept at this point. Model of `enabled`. -/
def kept : Conditionals → Bool
  | [] => true
  | c :: _ => c.keeping

variable {n : Type → Type} [Monad n]

/-- Opens a conditional. Its condition is evaluated only in a kept region. Model of `push_if`. -/
def start (cs : Conditionals) (opener : Opener) (line : Nat) (condition : Unit → n Bool) :
    n Conditionals := do
  if cs.kept then
    let holds ← condition ()
    return ⟨opener, line, true, holds, holds⟩ :: cs
  else return ⟨opener, line, false, false, false⟩ :: cs

/-- Begins a branch with a condition. The condition is evaluated only if the conditional is
    reached and none of its branches has been kept. Model of `elif`. -/
def elif [MonadExcept PreprocessError n] (cs : Conditionals) (line : Nat)
    (condition : Unit → n Bool) : n Conditionals :=
  match cs with
  | [] => throw ⟨.misplaced .elif, line⟩
  | c :: rest =>
    if !c.reached || c.taken then return { c with keeping := false } :: rest
    else do
      let holds ← condition ()
      return { c with taken := holds, keeping := holds } :: rest

/-- Begins the branch that is kept if none before it was. Model of `else_branch`. -/
def otherwise [MonadExcept PreprocessError n] (cs : Conditionals) (line : Nat) : n Conditionals :=
  match cs with
  | [] => throw ⟨.misplaced .otherwise, line⟩
  | c :: rest =>
    let keeping := c.reached && !c.taken
    return { c with taken := c.taken || keeping, keeping } :: rest

/-- Closes the innermost conditional. Model of `endif`. -/
def endif [MonadExcept PreprocessError n] (cs : Conditionals) (line : Nat) : n Conditionals :=
  match cs with
  | [] => throw ⟨.misplaced .endif, line⟩
  | _ :: rest => return rest

/-- The open conditionals after a directive that belongs to a conditional.
    `condition` evaluates the condition behind it. -/
def branch [MonadExcept PreprocessError n] (cs : Conditionals) (line : Nat)
    (condition : Unit → n Bool) : BranchName → n Conditionals
  | .opener opener => cs.start opener line condition
  | .elif => cs.elif line condition
  | .otherwise => cs.otherwise line
  | .endif => cs.endif line

/-- At the end of a file every conditional has to be closed. Model of `finish`. -/
def finish : Conditionals → Except PreprocessError Unit
  | [] => .ok ()
  | c :: _ => .error ⟨.unterminated c.opener, c.line⟩

theorem kept_endif [MonadExcept PreprocessError n] {cs : Conditionals} {c : Conditional}
    {line : Nat} : (endif (c :: cs) line : n Conditionals) = pure cs := rfl

end Conditionals

end IdlFrontend
