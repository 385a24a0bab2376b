import IdlFrontend.Token.Pattern

/-!
# Pragmas

A pragma line gives a name a value. The lexer remembers the last value of every
name until it is taken.

Results:

* `find?_record_self`, `find?_record_of_ne`: recording a pragma changes the value
  of its name and of no other.
* `find?_erase_self`: a pragma that was taken is gone.
-/

namespace IdlFrontend

/-- A pragma: its name, and its value if it has one. -/
structure Pragma where
  name : Text
  value : Option Text
deriving DecidableEq, Repr

/-- The pragma in a pragma line, which may have lost its line break. The name ends before the
    first blank. A line without a name has no pragma. Model of `record_pragma`. -/
def Pragma.ofLine? (cs : Text) : Option Pragma := do
  let rest := (Text.trimEnd isLineEnd (← Pattern.afterPragma? cs)).dropWhile isBlank
  match Text.splitAtFirst isBlank rest with
  | some (name, value) => return ⟨name, some (value.dropWhile isBlank)⟩
  | none => if rest.isEmpty then none else return ⟨rest, none⟩

/-- The number in a line marker, if it fits 64 bits. Model of `marker_line`. -/
def markedLine? (cs : Text) : Option Nat := do
  Text.lineNumber? ((← Pattern.afterLineWord? cs).takeWhile Char.isDigit)

/-- Pragmas with different names, the last recorded first. -/
abbrev Pragmas := List Pragma

namespace Pragmas

/-- The pragma with the given name. -/
def find? (ps : Pragmas) (name : Text) : Option Pragma := List.find? (·.name == name) ps

/-- The pragmas without the one with the given name. -/
def erase (ps : Pragmas) (name : Text) : Pragmas := ps.filter (·.name != name)

/-- The pragmas with a new one, in the place of any of the same name. -/
def record (ps : Pragmas) (p : Pragma) : Pragmas := p :: erase ps p.name

theorem find?_erase_self (ps : Pragmas) (name : Text) : find? (erase ps name) name = none := by
  simp [find?, erase]

theorem find?_erase_of_ne (ps : Pragmas) {name other : Text} (h : other ≠ name) :
    find? (erase ps name) other = find? ps other := by
  induction ps with
  | nil => rfl
  | cons p ps ih =>
    simp only [find?, erase] at ih ⊢
    by_cases hp : p.name = name
    · simp [hp, ih, h.symm]
    · by_cases ho : p.name = other <;> simp [hp, ho, ih, h]

theorem find?_record_self (ps : Pragmas) (p : Pragma) : find? (record ps p) p.name = some p := by
  simp [find?, record]

theorem find?_record_of_ne (ps : Pragmas) {p : Pragma} {other : Text} (h : other ≠ p.name) :
    find? (record ps p) other = find? ps other := by
  rw [← find?_erase_of_ne ps h]
  simp [find?, record, h.symm]

end Pragmas

end IdlFrontend
