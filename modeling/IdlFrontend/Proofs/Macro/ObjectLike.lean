import IdlFrontend.Proofs.Macro.Hiding

/-!
# Macros without parameters

A macro without parameters is replaced where its name stands, whatever stands around it.
A table of such macros expands every lexeme for itself, and never fails.

Results:

* `expand_of_isObjectLike`: an expansion is made of those of the lexemes.
* `expand_append`: text may be expanded piece by piece.
-/

namespace IdlFrontend.MacroTable

open Lexeme

/-- No macro of the table has parameters. -/
def IsObjectLike (table : MacroTable) : Prop := ∀ m ∈ table.macros, m.parameters = .none

instance (table : MacroTable) : Decidable table.IsObjectLike :=
  inferInstanceAs (Decidable (∀ m ∈ table.macros, m.parameters = .none))

/-- What takes the place of a lexeme. `rescan name` goes over the body of the macro `name`. -/
def replace (table : MacroTable) (hidden : List Text) (rescan : Text → List Lexeme → List Lexeme)
    (t : Lexeme) : List Lexeme :=
  if t.kind ≠ .word ∨ t.text ∈ hidden then [t]
  else match table.find? t.text with
    | none => if t.text = "__LINE__".toList then [⟨.number, Text.ofNat t.line, t.line⟩] else [t]
    | some m => rescan m.name (restamp t.line m.body)

/-- What takes the place of a lexeme when bodies are gone over again at most `levels` deep. -/
def replacement (table : MacroTable) : (levels : Nat) → (hidden : List Text) → Lexeme → List Lexeme
  | 0, hidden => table.replace hidden fun _ ts => ts
  | levels + 1, hidden =>
    table.replace hidden fun name ts => ts.flatMap (table.replacement levels (name :: hidden))

/-- What a lexeme expands to. -/
def expansion (table : MacroTable) : Lexeme → List Lexeme :=
  table.replacement table.macros.length []

variable {table : MacroTable}

theorem sweep_of_isObjectLike (h : table.IsObjectLike) {hidden : List Text}
    {rescan : Text → List Lexeme → Except PreprocessError (List Lexeme)}
    {rescan' : Text → List Lexeme → List Lexeme}
    (hrescan : ∀ name ts, rescan name ts = .ok (rescan' name ts)) (ts : List Lexeme) :
    sweep table hidden rescan ts = .ok (ts.flatMap (table.replace hidden rescan')) := by
  induction ts with
  | nil => rw [sweep, List.flatMap_nil]
  | cons t ts ih =>
    rw [sweep_cons, ih, List.flatMap_cons, replace]
    split
    · rfl
    cases hfind : table.find? t.text with
    | none =>
      dsimp only
      split <;> rfl
    | some m =>
      dsimp only
      rw [if_pos (h m (mem_of_find? hfind)), hrescan]
      rfl

theorem expandHiding_of_isObjectLike (h : table.IsObjectLike) (levels : Nat) (hidden : List Text)
    (ts : List Lexeme) :
    table.expandHiding levels hidden ts = .ok (ts.flatMap (table.replacement levels hidden)) := by
  induction levels generalizing hidden ts with
  | zero => exact sweep_of_isObjectLike h (fun _ _ => rfl) ts
  | succ levels ih => exact sweep_of_isObjectLike h (fun name => ih (name :: hidden)) ts

/-- **Without parameters, every lexeme is expanded for itself**, and no expansion fails. -/
theorem expand_of_isObjectLike (h : table.IsObjectLike) (ts : List Lexeme) :
    table.expand ts = .ok (ts.flatMap table.expansion) :=
  expandHiding_of_isObjectLike h _ _ ts

/-- What is expanded in two pieces need not be expanded as a whole. -/
theorem expand_append (h : table.IsObjectLike) {ts us vs ws : List Lexeme}
    (hts : table.expand ts = .ok vs) (hus : table.expand us = .ok ws) :
    table.expand (ts ++ us) = .ok (vs ++ ws) := by
  rw [expand_of_isObjectLike h] at hts hus ⊢
  cases hts
  cases hus
  rw [List.flatMap_append]

end IdlFrontend.MacroTable
