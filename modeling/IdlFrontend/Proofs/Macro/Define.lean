import IdlFrontend.Macro.Table
import Mathlib.Data.List.DropRight

/-!
# Definitions of macros

A definition is read without a look at the table, and the macro is put into it.

Results:

* `stripBlank_cons_of_not_isBlank`: blanks are stripped behind the first lexeme
  that is not blank.
* `define_eq`: what a definition does to the table.
* `define_cons_blank`: a name with a blank behind it is defined as a macro
  without parameters, whatever the rest of the definition is.
-/

namespace IdlFrontend

namespace Lexeme

theorem stripBlank_eq (ts : List Lexeme) :
    stripBlank ts = (ts.dropWhile isBlank).rdropWhile isBlank := rfl

theorem stripBlank_cons_of_isBlank {t : Lexeme} (h : t.isBlank) (ts : List Lexeme) :
    stripBlank (t :: ts) = stripBlank ts := by
  rw [stripBlank, List.dropWhile_cons_of_pos h, stripBlank]

theorem rdropWhile_isBlank_cons {t : Lexeme} (h : t.isBlank = false) (ts : List Lexeme) :
    (t :: ts).rdropWhile isBlank = t :: ts.rdropWhile isBlank := by
  induction ts using List.reverseRecOn with
  | nil => simp [List.rdropWhile, h]
  | append_singleton ts u ih =>
    rw [← List.cons_append]
    by_cases hu : u.isBlank
    · rw [List.rdropWhile_concat_pos _ _ _ hu, List.rdropWhile_concat_pos _ _ _ hu, ih]
    · rw [List.rdropWhile_concat_neg _ _ _ hu, List.rdropWhile_concat_neg _ _ _ hu]
      rfl

theorem stripBlank_cons_of_not_isBlank {t : Lexeme} (h : t.isBlank = false) (ts : List Lexeme) :
    stripBlank (t :: ts) = t :: ts.rdropWhile isBlank := by
  rw [stripBlank_eq, List.dropWhile_cons_of_neg (by simp [h]), rdropWhile_isBlank_cons h]

/-- What is left behind a blank when the blanks at the end are dropped: nothing at
    all, or the blank and lexemes that are not all blank. -/
theorem rdropWhile_isBlank_cons_of_isBlank {t : Lexeme} (h : t.isBlank) (ts : List Lexeme) :
    ((t :: ts).rdropWhile isBlank = [] ∧ stripBlank ts = []) ∨
      ∃ us, (t :: ts).rdropWhile isBlank = t :: us ∧ stripBlank us = stripBlank ts := by
  induction ts using List.reverseRecOn with
  | nil => exact Or.inl ⟨by simp [List.rdropWhile, h], rfl⟩
  | append_singleton ts u ih =>
    rw [← List.cons_append]
    by_cases hu : u.isBlank
    · have hstrip : stripBlank (ts ++ [u]) = stripBlank ts := by
        rw [stripBlank_eq, stripBlank_eq]
        by_cases hall : ts.dropWhile isBlank = []
        · rw [List.dropWhile_append, hall]
          simp [hu]
        · rw [List.dropWhile_append, if_neg (by simpa using hall),
            List.rdropWhile_concat_pos _ _ _ hu]
      rw [List.rdropWhile_concat_pos _ _ _ hu, hstrip]
      exact ih
    · refine Or.inr ⟨ts ++ [u], ?_, rfl⟩
      rw [List.rdropWhile_concat_neg _ _ _ hu]
      rfl

end Lexeme

namespace MacroTable

/-- The macro that is defined by the text behind a directive. -/
def readDefinition (args : List Lexeme) : Except PreprocessFault Macro :=
  match Lexeme.stripBlank args with
  | [] => .error .invalidMacro
  | name :: rest =>
    if name.kind ≠ .word then .error .invalidMacro
    else
      let store (parameters : Parameters) (body : List Lexeme) : Macro :=
        ⟨name.text, parameters, (Lexeme.stripBlank body).map bodyLexeme⟩
      match rest with
      | [] => .ok (store .none [])
      | t :: ts =>
        if t.isPunct '(' then
          match readParameters [] none ts with
          | some (parameters, body) => .ok (store parameters body)
          | none => .error (.invalidParameters name.text)
        else .ok (store .none (t :: ts))

theorem define_eq (table : MacroTable) (args : List Lexeme) (line : Nat) :
    table.define args line = match readDefinition args with
      | .ok m => .ok (table.insert m)
      | .error fault => .error ⟨fault, line⟩ := by
  unfold define readDefinition
  cases Lexeme.stripBlank args with
  | nil => rfl
  | cons name rest =>
    dsimp only
    split
    · rfl
    cases rest with
    | nil => rfl
    | cons t ts =>
      dsimp only
      split
      · cases readParameters [] none ts <;> rfl
      · rfl

theorem define_cons_blank (table : MacroTable) {name blank : Lexeme} (hname : name.kind = .word)
    (hblank : blank.isBlank) (body : List Lexeme) (line : Nat) :
    table.define (name :: blank :: body) line =
      .ok (table.insert ⟨name.text, .none, (Lexeme.stripBlank body).map bodyLexeme⟩) := by
  have hnot : name.isBlank = false := by simp [Lexeme.isBlank, hname]
  have hpunct : blank.isPunct '(' = false := by
    have : blank.kind ≠ .punctuation := by
      intro hk
      simp [Lexeme.isBlank, hk] at hblank
    simp [Lexeme.isPunct, this]
  rw [define, Lexeme.stripBlank_cons_of_not_isBlank hnot]
  obtain ⟨hnil, hbody⟩ | ⟨us, hus, hbody⟩ :=
    Lexeme.rdropWhile_isBlank_cons_of_isBlank hblank body
  · simp [hnil, hname, hbody, show Lexeme.stripBlank [] = [] from rfl]
  · simp [hus, hname, hpunct, Lexeme.stripBlank_cons_of_isBlank hblank, hbody]

end MacroTable

end IdlFrontend
