import Mathlib.Control.Monad.Basic
import IdlFrontend.Preprocess.Conditional

/-!
# Conditionals as blocks

The preprocessor keeps three flags for every open conditional. This module gives
conditionals a meaning without flags: an open conditional is a block that
remembers the outcome of the condition of each of its branches, and a place is
kept if every block around it is in the first branch whose condition holds.

Results:

* `kept_ofBlocks`: the flags keep a place exactly if the blocks around it select
  it.
* `branch_ofBlocks`: in any monad, a directive evaluates its condition exactly if
  the blocks call for it, and leaves the flags of the blocks behind it.
* `branch_ofBlocks_outcome`: a directive fails exactly if it is misplaced or its
  condition is called for and malformed.
-/

namespace IdlFrontend

/-- A directive of a conditional. Its condition holds, does not hold or has no
    value. -/
structure Branch where
  name : BranchName
  line : Nat
  outcome : Except PreprocessError Bool
deriving DecidableEq

/-- Whether an outcome is that of a condition that holds. -/
def holds : Except PreprocessError Bool → Bool
  | .ok holds => holds
  | .error _ => false

/-- A conditional that is open, with the outcomes of its branches. -/
structure Block where
  opener : Opener
  line : Nat
  /-- The outcomes of the branches before the current one. -/
  earlier : List (Except PreprocessError Bool)
  current : Except PreprocessError Bool

namespace Block

/-- The condition of some branch so far holds. -/
def taken (b : Block) : Bool := (b.current :: b.earlier).any holds

/-- The current branch is the first whose condition holds. -/
def selected (b : Block) : Bool := holds b.current && !b.earlier.any holds

/-- The block when its next branch has begun. -/
def next (b : Block) (outcome : Except PreprocessError Bool) : Block :=
  { b with earlier := b.current :: b.earlier, current := outcome }

@[simp] theorem opener_next (b : Block) (outcome : Except PreprocessError Bool) :
    (b.next outcome).opener = b.opener := rfl

@[simp] theorem line_next (b : Block) (outcome : Except PreprocessError Bool) :
    (b.next outcome).line = b.line := rfl

@[simp] theorem selected_next (b : Block) (outcome : Except PreprocessError Bool) :
    (b.next outcome).selected = (holds outcome && !b.taken) := rfl

@[simp] theorem taken_next (b : Block) (outcome : Except PreprocessError Bool) :
    (b.next outcome).taken = (holds outcome || b.taken) := rfl

end Block

/-- The open conditionals at a place, innermost first. -/
abbrev Blocks := List Block

namespace Blocks

/-- Whether every conditional is in the first branch whose condition holds. -/
def kept (bs : Blocks) : Bool := bs.all Block.selected

/-- Whether a directive belongs to a conditional that is not there. -/
def misplaces (bs : Blocks) : BranchName → Bool
  | .opener _ => false
  | .elif | .otherwise | .endif => bs.isEmpty

/-- Whether the condition of a directive matters: the place around the conditional
    is kept, and no branch before was. -/
def evaluates (bs : Blocks) : BranchName → Bool
  | .opener _ => kept bs
  | .elif => match bs with
    | [] => false
    | b :: outer => kept outer && !b.taken
  | .otherwise | .endif => false

/-- The open conditionals behind a directive. An `#else` counts as a condition
    that holds. -/
def after (bs : Blocks) (d : Branch) : Blocks :=
  match d.name, bs with
  | .opener opener, bs => ⟨opener, d.line, [], d.outcome⟩ :: bs
  | .elif, b :: outer => b.next d.outcome :: outer
  | .otherwise, b :: outer => b.next (.ok true) :: outer
  | .endif, _ :: outer => outer
  | _, [] => []

/-- The failure of a directive, if it fails. -/
def refusal? (bs : Blocks) (d : Branch) : Option PreprocessError :=
  if misplaces bs d.name then some ⟨.misplaced d.name, d.line⟩
  else match evaluates bs d.name, d.outcome with
    | true, .error e => some e
    | _, _ => none

/-- The failure at the end of a file, if there is one. -/
def unterminated? : Blocks → Option PreprocessError
  | [] => none
  | b :: _ => some ⟨.unterminated b.opener, b.line⟩

end Blocks

/-! ## The flags of blocks -/

namespace Conditionals

/-- The flags that stand for open conditionals. -/
def ofBlocks : Blocks → Conditionals
  | [] => []
  | b :: outer =>
    let reached := Blocks.kept outer
    ⟨b.opener, b.line, reached, reached && b.taken, reached && b.selected⟩ :: ofBlocks outer

theorem kept_ofBlocks (bs : Blocks) : (ofBlocks bs).kept = bs.kept := by
  cases bs with
  | nil => rfl
  | cons b outer => exact Bool.and_comm _ _

theorem finish_ofBlocks (bs : Blocks) :
    (ofBlocks bs).finish = match bs.unterminated? with
      | some e => .error e
      | none => .ok () := by
  cases bs <;> rfl

theorem branch_ofBlocks {n : Type → Type} [Monad n] [MonadExcept PreprocessError n] (bs : Blocks)
    (d : Branch) (condition : Unit → n Bool) :
    (ofBlocks bs).branch d.line condition d.name =
      if bs.misplaces d.name then throw ⟨.misplaced d.name, d.line⟩
      else if bs.evaluates d.name then do
        let holds ← condition ()
        return ofBlocks (bs.after { d with outcome := .ok holds })
      else return ofBlocks (bs.after d) := by
  obtain ⟨name, line, outcome⟩ := d
  cases name with
  | opener opener =>
    simp only [branch, start, kept_ofBlocks, Blocks.misplaces, Blocks.evaluates, Blocks.after]
    by_cases hkept : bs.kept
    · simp [hkept, ofBlocks, Block.taken, Block.selected, holds]
    · simp [hkept, ofBlocks]
  | elif =>
    cases bs with
    | nil => rfl
    | cons b outer =>
      simp only [branch, elif, ofBlocks, Blocks.misplaces, Blocks.evaluates, Blocks.after]
      by_cases hkept : Blocks.kept outer
      · by_cases htaken : b.taken <;> simp [hkept, htaken, holds]
      · simp [hkept]
  | otherwise =>
    cases bs with
    | nil => rfl
    | cons b outer =>
      simp only [branch, otherwise, ofBlocks, Blocks.misplaces, Blocks.evaluates, Blocks.after]
      by_cases hkept : Blocks.kept outer <;> simp [hkept, holds]
  | endif => cases bs <;> rfl

theorem branch_ofBlocks_outcome (bs : Blocks) (d : Branch) :
    (ofBlocks bs).branch d.line (fun _ => d.outcome) d.name =
      match bs.refusal? d with
      | some e => .error e
      | none => .ok (ofBlocks (bs.after d)) := by
  obtain ⟨name, line, outcome⟩ := d
  rw [branch_ofBlocks, Blocks.refusal?]
  by_cases hmisplaced : bs.misplaces name
  · rw [if_pos hmisplaced, if_pos hmisplaced]
    rfl
  · rw [if_neg hmisplaced, if_neg hmisplaced]
    by_cases hevaluates : bs.evaluates name
    · rw [if_pos hevaluates, hevaluates]
      cases outcome <;> rfl
    · rw [if_neg hevaluates, Bool.eq_false_iff.2 hevaluates]
      rfl

end Conditionals

end IdlFrontend
