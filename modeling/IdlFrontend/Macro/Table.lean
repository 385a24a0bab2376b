import IdlFrontend.Source.Lexeme
import IdlFrontend.Preprocess.Error

/-!
# Macros and the macro table

A macro has a name, a body and, if it is invoked like a function, parameters.
The table holds at most one macro of a name.

Results:

* `find?_insert_self`, `find?_insert_of_ne`: a definition replaces the macro of
  its name and leaves the others alone.
* `find?_erase_self`, `find?_erase_of_ne`: likewise for removal.
-/

namespace IdlFrontend

/-- The parameters of a macro. -/
inductive Parameters where
  /-- The macro is replaced wherever its name stands. -/
  | none
  /-- The macro takes exactly as many arguments as it has parameters. -/
  | fixed (names : List Text)
  /-- The parameter `rest` collects the arguments behind the leading ones. -/
  | variadic (leading : List Text) (rest : Text)
deriving DecidableEq, Repr

/-- The names of the parameters, in order. -/
def Parameters.names : Parameters → List Text
  | .none => []
  | .fixed names => names
  | .variadic leading rest => leading ++ [rest]

/-- A macro. -/
structure Macro where
  name : Text
  parameters : Parameters
  body : List Lexeme
deriving DecidableEq, Repr

/-- The macros that are currently defined. -/
structure MacroTable where
  macros : List Macro := []
deriving DecidableEq, Repr

namespace MacroTable

/-- The macro with the given name. Model of `get`. -/
def find? (table : MacroTable) (name : Text) : Option Macro :=
  table.macros.find? (·.name == name)

/-- Whether there is a macro with the given name. Model of `is_defined`. -/
def isDefined (table : MacroTable) (name : Text) : Bool := (table.find? name).isSome

/-- The table without the macro of the given name. Model of `undef`. -/
def erase (table : MacroTable) (name : Text) : MacroTable :=
  ⟨table.macros.filter (·.name != name)⟩

/-- The table with `m` in place of the macro of its name. -/
def insert (table : MacroTable) (m : Macro) : MacroTable :=
  ⟨m :: (table.erase m.name).macros⟩

theorem find?_erase_self (table : MacroTable) (name : Text) :
    (table.erase name).find? name = none := by
  simp [find?, erase]

theorem find?_erase_of_ne (table : MacroTable) {name other : Text} (h : other ≠ name) :
    (table.erase name).find? other = table.find? other := by
  simp only [find?, erase, List.find?_filter]
  congr 1
  funext m
  by_cases hm : m.name = other
  · simp [hm, h]
  · simp [hm]

theorem find?_insert_self (table : MacroTable) (m : Macro) :
    (table.insert m).find? m.name = some m := by
  simp [find?, insert]

theorem find?_insert_of_ne (table : MacroTable) (m : Macro) {other : Text} (h : other ≠ m.name) :
    (table.insert m).find? other = table.find? other := by
  rw [← find?_erase_of_ne table h]
  simp [find?, insert, Ne.symm h]

/-! ## Definitions -/

/-- The parameter that collects the arguments matched by a bare `...`. Model of `VA_ARGS`. -/
def variadicName : Text := "__VA_ARGS__".toList

/-- What follows `...` at the front of the lexemes, if it stands there. Model of `is_ellipsis`. -/
def afterEllipsis? : List Lexeme → Option (List Lexeme)
  | a :: b :: c :: rest =>
    if a.isPunct '.' && b.isPunct '.' && c.isPunct '.' then some rest else none
  | _ => none

/-- What follows the `)` that closes a parameter list, if nothing but blanks
    stands before it. -/
def afterClosing? (ts : List Lexeme) : Option (List Lexeme) :=
  match ts.dropWhile Lexeme.isBlank with
  | t :: rest => if t.isPunct ')' then some rest else none
  | [] => none

/-- The rest of a parameter list, and what follows it. `names` are the parameters up to the last
    comma and `last` is the name read since then. A list ends after `...`, which stands for a
    parameter of its own or, behind a name, makes that parameter collect the surplus arguments.
    Model of `parse_params`. -/
def readParameters (names : List Text) (last : Option Text) :
    List Lexeme → Option (Parameters × List Lexeme)
  | [] => none
  | t :: ts =>
    if t.isBlank then readParameters names last ts
    else if t.isPunct ')' then
      match last with
      | some name => some (.fixed (names ++ [name]), ts)
      | none => if names.isEmpty then some (.fixed [], ts) else none
    else match afterEllipsis? (t :: ts) with
      | some rest =>
        (afterClosing? rest).map fun after => (.variadic names (last.getD variadicName), after)
      | none =>
        match last with
        | none => if t.kind = .word then readParameters names (some t.text) ts else none
        | some name => if t.isPunct ',' then readParameters (names ++ [name]) none ts else none

/-- A body lexeme as it is stored: comments and line feeds become a space. -/
def bodyLexeme (t : Lexeme) : Lexeme :=
  if t.kind = .comment ∨ t.kind = .newline then .spaceAt t.line else t

/-- The table after a definition with the given text behind the directive. The name is followed by
    a parameter list only if a parenthesis touches it. Model of `define_tokens`. -/
def define (table : MacroTable) (args : List Lexeme) (line : Nat) :
    Except PreprocessError MacroTable :=
  match Lexeme.stripBlank args with
  | [] => .error ⟨.invalidMacro, line⟩
  | name :: rest =>
    if name.kind ≠ .word then .error ⟨.invalidMacro, line⟩
    else
      let store (parameters : Parameters) (body : List Lexeme) : MacroTable :=
        table.insert ⟨name.text, parameters, (Lexeme.stripBlank body).map bodyLexeme⟩
      match rest with
      | [] => .ok (store .none [])
      | t :: ts =>
        if t.isPunct '(' then
          match readParameters [] none ts with
          | some (parameters, body) => .ok (store parameters body)
          | none => .error ⟨.invalidParameters name.text, line⟩
        else .ok (store .none (t :: ts))

/-- The table after a definition given as text, which has no line of its own. Model of
    `define_text`. -/
def defineText (table : MacroTable) (cs : Text) : Except PreprocessError MacroTable :=
  table.define (Lexeme.scan cs) 0

end MacroTable

end IdlFrontend
