import IdlFrontend.Proofs.Macro.Invocation
import IdlFrontend.Proofs.Macro.Spacing

/-!
# Macros as plain records

A macro may be kept as a plain record: the names of its parameters, if it has a list of them,
and a mark that says whether the last one collects the surplus arguments. Such a list is read
with marks as well, for whether it is variadic by now and whether a name has to come next.
Nothing in the form of a record keeps a macro without parameters from being variadic, and `...`
makes a list variadic in three ways: alone in the list, behind a comma, and behind a name.

A table of such records is changed as a table of macros is. A change that fails leaves it as it was.

Results:

* `readNames_eq`: a list that is read with marks is the list that `readParameters` reads.
* `RecordTable.after_eq`: after any changes, the records are those of the macros.
* `Macro.wellFormed_record`: the record of a macro is variadic only if it has a parameter.
-/

namespace IdlFrontend

open Lexeme MacroTable

/-! ## Records -/

/-- A macro as a record. -/
structure MacroRecord where
  name : Text
  /-- The names of the parameters. A macro without a list of them is replaced wherever its name
      stands. -/
  parameters : Option (List Text)
  /-- The last parameter collects the surplus arguments. -/
  variadic : Bool
  body : List Lexeme
deriving DecidableEq, Repr

/-- A macro that is variadic has a parameter. -/
def MacroRecord.WellFormed (r : MacroRecord) : Prop :=
  r.variadic → ∃ names, r.parameters = some names ∧ names ≠ []

/-- The names of the parameters, if there is a list of them. -/
def Parameters.list? : Parameters → Option (List Text)
  | .none => .none
  | .fixed names => some names
  | .variadic leading rest => some (leading ++ [rest])

theorem Parameters.getD_list? (parameters : Parameters) :
    parameters.list?.getD [] = parameters.names := by
  cases parameters <;> rfl

theorem Parameters.list?_eq_none_iff {parameters : Parameters} :
    parameters.list? = .none ↔ parameters = .none := by
  cases parameters <;> simp [list?]

/-- Whether the last parameter collects the surplus arguments. -/
def Parameters.isVariadic : Parameters → Bool
  | .none | .fixed _ => false
  | .variadic _ _ => true

/-- The record of a macro. -/
def Macro.record (m : Macro) : MacroRecord :=
  ⟨m.name, m.parameters.list?, m.parameters.isVariadic, m.body⟩

theorem Macro.wellFormed_record (m : Macro) : m.record.WellFormed := by
  intro hvariadic
  unfold record at hvariadic ⊢
  match hparameters : m.parameters with
  | .none | .fixed _ =>
    rw [hparameters] at hvariadic
    cases hvariadic
  | .variadic leading rest => exact ⟨leading ++ [rest], rfl, by simp⟩

/-! ## Lists of parameters -/

theorem length_afterEllipsis?_lt {ts rest : List Lexeme} (h : afterEllipsis? ts = some rest) :
    rest.length < ts.length := by
  obtain ⟨a, b, c, rfl, -⟩ := afterEllipsis?_eq_some_iff.1 h
  simp only [List.length_cons]
  omega

/-- The rest of a list of parameters, and what follows it. `names` are the parameters so far,
    `variadic` marks a list with `...` behind which it has to close, and `expectName` marks that a
    name or `...` has to come next. -/
def readNames (names : List Text) (variadic expectName : Bool) :
    List Lexeme → Option ((List Text × Bool) × List Lexeme)
  | [] => none
  | t :: ts =>
    if t.isBlank then readNames names variadic expectName ts
    else if t.isPunct ')' then
      if expectName && !names.isEmpty then none else some ((names, variadic), ts)
    else if variadic then none
    else if expectName then
      if t.kind = .word then readNames (names ++ [t.text]) variadic false ts
      else match _h : afterEllipsis? (t :: ts) with
        | some rest => readNames (names ++ [variadicName]) true false rest
        | none => none
    else if t.isPunct ',' then readNames names variadic true ts
    else match _h : afterEllipsis? (t :: ts) with
      | some rest => readNames names true false rest
      | none => none
termination_by ts => ts.length
decreasing_by
  all_goals first
    | exact length_afterEllipsis?_lt _h
    | simp

theorem readNames_cons (names : List Text) (variadic expectName : Bool) (t : Lexeme)
    (ts : List Lexeme) :
    readNames names variadic expectName (t :: ts) =
      if t.isBlank then readNames names variadic expectName ts
      else if t.isPunct ')' then
        if expectName && !names.isEmpty then none else some ((names, variadic), ts)
      else if variadic then none
      else if expectName then
        if t.kind = .word then readNames (names ++ [t.text]) variadic false ts
        else (afterEllipsis? (t :: ts)).bind (readNames (names ++ [variadicName]) true false)
      else if t.isPunct ',' then readNames names variadic true ts
      else (afterEllipsis? (t :: ts)).bind (readNames names true false) := by
  rw [readNames]
  cases afterEllipsis? (t :: ts) <;> rfl

/-- Behind `...` only the parenthesis is left to read. -/
theorem readNames_variadic (names : List Text) (ts : List Lexeme) :
    readNames names true false ts = (afterClosing? ts).map ((names, true), ·) := by
  induction ts with
  | nil => rw [readNames]; rfl
  | cons t ts ih =>
    rw [readNames_cons, afterClosing?]
    by_cases hblank : t.isBlank
    · rw [if_pos hblank, List.dropWhile_cons_of_pos hblank, ih, afterClosing?]
    · rw [if_neg hblank, List.dropWhile_cons_of_neg hblank]
      dsimp only
      split <;> rfl

/-- What a list of parameters is read as, in the form of a record. -/
def Parameters.marked (parameters : Parameters) : Option (List Text) × Bool :=
  (parameters.list?, parameters.isVariadic)

/-- The list that is read with types keeps the last name apart until a comma or `...` follows it. -/
theorem readNames_eq (names : List Text) (last : Option Text) (ts : List Lexeme) :
    (readNames (names ++ last.toList) false last.isNone ts).map (Prod.map (Prod.map some id) id) =
      (readParameters names last ts).map (Prod.map Parameters.marked id) := by
  induction ts generalizing names last with
  | nil => rw [readNames]; rfl
  | cons t ts ih =>
    have hellipsis (rest : List Lexeme) (name : Text) :
        (readNames (names ++ [name]) true false rest).map (Prod.map (Prod.map some id) id) =
          ((afterClosing? rest).map fun after => (Parameters.variadic names name, after)).map
            (Prod.map Parameters.marked id) := by
      rw [readNames_variadic, Option.map_map, Option.map_map]
      rfl
    rw [readNames_cons, readParameters.eq_def]
    dsimp only
    by_cases hblank : t.isBlank
    · rw [if_pos hblank, if_pos hblank, ih]
    rw [if_neg hblank, if_neg hblank]
    by_cases hclose : t.isPunct ')'
    · rw [if_pos hclose, if_pos hclose]
      cases last with
      | none => cases names <;> rfl
      | some name => rfl
    rw [if_neg hclose, if_neg hclose, if_neg Bool.false_ne_true]
    cases last with
    | none =>
      rw [Option.toList_none, List.append_nil, if_pos Option.isNone_none]
      by_cases hword : t.kind = .word
      · have hdot : t.isPunct '.' = false := by simp [isPunct, hword]
        rw [if_pos hword, afterEllipsis?_cons_of_not_dot hdot]
        dsimp only
        rw [if_pos hword]
        exact ih names (some t.text)
      · rw [if_neg hword]
        cases hrest : afterEllipsis? (t :: ts) with
        | none =>
          dsimp only
          rw [if_neg hword]
          rfl
        | some rest => exact hellipsis rest _
    | some name =>
      rw [Option.toList_some,
        if_neg (show ¬Option.isNone (some name) = true from Bool.false_ne_true)]
      by_cases hcomma : t.isPunct ','
      · have hdot :
            t.isPunct '.' = false := by simp [isPunct_iff_of_isPunct hcomma, ← Bool.not_eq_true]
        have hnext := ih (names ++ [name]) none
        rw [Option.toList_none, List.append_nil] at hnext
        rw [if_pos hcomma, afterEllipsis?_cons_of_not_dot hdot]
        dsimp only
        rw [if_pos hcomma]
        exact hnext
      · rw [if_neg hcomma]
        cases hrest : afterEllipsis? (t :: ts) with
        | none =>
          dsimp only
          rw [if_neg hcomma]
          rfl
        | some rest => exact hellipsis rest name

/-! ## Tables -/

/-- The records that are currently in a table. -/
structure RecordTable where
  records : List MacroRecord := []
deriving DecidableEq, Repr

/-- What is done to a table between two expansions. -/
inductive TableChange where
  /-- A definition given as text. -/
  | text (cs : Text)
  /-- A definition given by the lexemes behind a directive on the given line. -/
  | lexemes (args : List Lexeme) (line : Nat)
  | removal (name : Text)
deriving DecidableEq, Repr

namespace RecordTable

/-- The record of the given name. -/
def find? (table : RecordTable) (name : Text) : Option MacroRecord :=
  table.records.find? (·.name == name)

/-- The table without the record of the given name. -/
def erase (table : RecordTable) (name : Text) : RecordTable :=
  ⟨table.records.filter (·.name != name)⟩

/-- The table with `r` in place of the record of its name. -/
def insert (table : RecordTable) (r : MacroRecord) : RecordTable :=
  ⟨r :: (table.erase r.name).records⟩

/-- The table after a definition with the given text behind the directive. -/
def define (table : RecordTable) (args : List Lexeme) (line : Nat) :
    Except PreprocessError RecordTable :=
  match stripBlank args with
  | [] => .error ⟨.invalidMacro, line⟩
  | name :: rest =>
    if name.kind ≠ .word then .error ⟨.invalidMacro, line⟩
    else
      let store (parameters : Option (List Text)) (variadic : Bool) (body : List Lexeme) :
          RecordTable :=
        table.insert ⟨name.text, parameters, variadic, (stripBlank body).map bodyLexeme⟩
      match rest with
      | [] => .ok (store none false [])
      | t :: ts =>
        if t.isPunct '(' then
          match readNames [] false true ts with
          | some ((names, variadic), body) => .ok (store (some names) variadic body)
          | none => .error ⟨.invalidParameters name.text, line⟩
        else .ok (store none false (t :: ts))

/-- The table after a change. -/
def apply (table : RecordTable) : TableChange → Except PreprocessError RecordTable
  | .text cs => table.define (scan cs) 0
  | .lexemes args line => table.define args line
  | .removal name => .ok (table.erase name)

/-- The table after changes to an empty one. A change that fails leaves the table as it was. -/
def after (changes : List TableChange) : RecordTable :=
  changes.foldl (fun table change => (table.apply change).toOption.getD table) {}

end RecordTable

namespace MacroTable

/-- The table after a change. -/
def apply (table : MacroTable) : TableChange → Except PreprocessError MacroTable
  | .text cs => table.defineText cs
  | .lexemes args line => table.define args line
  | .removal name => .ok (table.erase name)

/-- The table after changes to an empty one. A change that fails leaves the table as it was. -/
def after (changes : List TableChange) : MacroTable :=
  changes.foldl (fun table change => (table.apply change).toOption.getD table) {}

/-- The records of the macros. -/
def records (table : MacroTable) : RecordTable := ⟨table.macros.map Macro.record⟩

theorem find?_records (table : MacroTable) (name : Text) :
    table.records.find? name = (table.find? name).map Macro.record := List.find?_map ..

theorem records_erase (table : MacroTable) (name : Text) :
    (table.erase name).records = table.records.erase name := by
  unfold records RecordTable.erase erase
  rw [List.filter_map]
  rfl

theorem records_insert (table : MacroTable) (m : Macro) :
    (table.insert m).records = table.records.insert m.record := by
  unfold RecordTable.insert
  rw [show m.record.name = m.name from rfl, ← records_erase]
  rfl

/-- A definition puts the record of the macro in the table, or fails in the same way. -/
theorem records_define (table : MacroTable) (args : List Lexeme) (line : Nat) :
    table.records.define args line = (table.define args line).map records := by
  unfold RecordTable.define define
  cases stripBlank args with
  | nil => rfl
  | cons name rest =>
    dsimp only
    split
    · rfl
    have hstore (parameters : Parameters) (body : List Lexeme) :
        (.ok (table.records.insert ⟨name.text, parameters.list?, parameters.isVariadic, body⟩) :
          Except PreprocessError RecordTable) =
            .ok (table.insert ⟨name.text, parameters, body⟩).records :=
      congrArg Except.ok (records_insert table ⟨name.text, parameters, body⟩).symm
    cases rest with
    | nil => exact hstore .none _
    | cons t ts =>
      dsimp only
      split
      · have hread := readNames_eq [] none ts
        rw [Option.toList_none, List.append_nil, Option.isNone_none] at hread
        cases hparameters : readParameters [] none ts with
        | none =>
          rw [hparameters] at hread
          rw [Option.map_eq_none_iff.1 hread]
          rfl
        | some r =>
          rw [hparameters] at hread
          obtain ⟨⟨⟨names, variadic⟩, body⟩, hnames, heq⟩ := Option.map_eq_some_iff.1 hread
          obtain ⟨hmarked, rfl⟩ := Prod.mk.inj heq
          obtain ⟨hlist, rfl⟩ := Prod.mk.inj hmarked
          rw [hnames]
          dsimp only
          rw [show some names = r.1.list? from hlist]
          exact hstore r.1 _
      · exact hstore .none _

theorem records_apply (table : MacroTable) (change : TableChange) :
    table.records.apply change = (table.apply change).map records := by
  cases change with
  | text cs => exact records_define table (scan cs) 0
  | lexemes args line => exact records_define table args line
  | removal name => exact congrArg Except.ok (records_erase table name).symm

end MacroTable

/-- After any changes, the records are those of the macros. -/
theorem RecordTable.after_eq (changes : List TableChange) :
    RecordTable.after changes = (MacroTable.after changes).records := by
  have hstep (table : MacroTable) (change : TableChange) :
      (table.records.apply change).toOption.getD table.records =
        ((table.apply change).toOption.getD table).records := by
    rw [MacroTable.records_apply]
    cases table.apply change <;> rfl
  show changes.foldl (fun table change => (table.apply change).toOption.getD table)
    (MacroTable.records {}) = _
  exact List.foldl_hom MacroTable.records hstep

end IdlFrontend
