import IdlFrontend.Condition.Reading
import IdlFrontend.Macro.Expansion
import IdlFrontend.Text.Numeral

/-!
# Directive lines

A line whose first lexeme other than space is `#` is a directive. This module
recognises such lines and reads what stands behind the directive's name.

Results:

* `directive?_cons_of_ne_space`: a line that begins with anything but space and
  `#` is no directive; a comment counts.
-/

namespace IdlFrontend

/-- A directive. -/
structure DirectiveLine where
  /-- The line of the `#`. -/
  line : Nat
  /-- The lexemes behind the `#`, without the blanks around them. -/
  content : List Lexeme
deriving DecidableEq, Repr

/-- The directive on a line of lexemes. -/
def directive? (group : List Lexeme) : Option DirectiveLine :=
  match group.dropWhile (·.kind == .space) with
  | hash :: rest =>
    if hash.isPunct '#' then some ⟨hash.line, Lexeme.stripBlank rest⟩ else none
  | [] => none

theorem directive?_cons_of_ne_space {t : Lexeme} (ts : List Lexeme) (hspace : t.kind ≠ .space)
    (hhash : t.isPunct '#' = false) : directive? (t :: ts) = none := by
  simp [directive?, hspace, hhash]

namespace DirectiveLine

/-- Which directive it is. A number in the place of a name is short for `line`. -/
def name? (d : DirectiveLine) : Option DirectiveName :=
  match d.content with
  | [] => none
  | t :: _ => if t.kind = .number then some (.command .line) else DirectiveName.ofText? t.text

/-- The lexemes behind the name, without the blanks around them. -/
def args (d : DirectiveLine) : List Lexeme := Lexeme.stripBlank d.content.tail

/-- The lexemes that give the number of the next line: those behind the name, or all of them in
    the short form. -/
def lineTarget (d : DirectiveLine) : List Lexeme :=
  if d.content.head?.any (·.kind == .number) then d.content else d.args

end DirectiveLine

/-- The name that a directive is about, if its first lexeme is one. -/
def firstName? : List Lexeme → Option Text
  | t :: _ => if t.kind = .word then some t.text else none
  | [] => none

/-- A text that begins and ends in a quote, without these two. Whether the last one closes a
    literal is not looked at. Model of `unquote`. -/
def unquote? : Text → Option Text
  | '"' :: rest => if rest.getLast? == some '"' then some rest.dropLast else none
  | _ => none

/-! ## Includes and line numbers -/

/-- The file that `"name"` or `<name>` names, and whether it is quoted. Model of
    `include_target`. -/
def includeTarget? : List Lexeme → Option (Text × Bool)
  | [] => none
  | t :: ts =>
    if t.kind = .string then (unquote? t.text).map (·, true)
    else if t.isPunct '<' && ts.any (·.isPunct '>') then
      some (((ts.takeWhile fun u => !u.isPunct '>').map Lexeme.text).flatten, false)
    else none

/-- The number of the next line, and the new name of the file if one is given, in `N "file"`. What
    follows is ignored. Model of `parse_line_directive`. -/
def readLineChange (args : List Lexeme) : Option (Nat × Option Text) :=
  match args.filter (!·.isBlank) with
  | [] => none
  | number :: rest =>
    if number.kind ≠ .number then none
    else match Text.lineNumber? number.text, rest with
      | none, _ => none
      | some n, [] => some (n, none)
      | some n, file :: _ =>
        if file.kind = .string then (unquote? file.text).map fun name => (n, some name) else none

/-! ## Conditions -/

/-- The name that `defined NAME` or `defined ( NAME )` asks about, and what follows it. The
    lexemes begin behind `defined`. Model of `parse_defined`. -/
def definedName? (ts : List Lexeme) : Option (Text × List Lexeme) :=
  match ts.dropWhile Lexeme.isBlank with
  | [] => none
  | t :: ts =>
    if t.kind = .word then some (t.text, ts)
    else if t.isPunct '(' then
      match ts.dropWhile Lexeme.isBlank with
      | [] => none
      | name :: ts =>
        if name.kind = .word then
          (MacroTable.afterClosing? ts).map (name.text, ·)
        else none
    else none

theorem length_afterClosing?_le {ts rest : List Lexeme}
    (h : MacroTable.afterClosing? ts = some rest) : rest.length ≤ ts.length := by
  unfold MacroTable.afterClosing? at h
  have hle := (List.dropWhile_suffix Lexeme.isBlank (l := ts)).length_le
  split at h
  next t after heq =>
    split at h
    · cases h
      rw [heq, List.length_cons] at hle
      omega
    · cases h
  · cases h

theorem length_definedName?_le {ts rest : List Lexeme} {name : Text}
    (h : definedName? ts = some (name, rest)) : rest.length ≤ ts.length := by
  unfold definedName? at h
  have hle := (List.dropWhile_suffix Lexeme.isBlank (l := ts)).length_le
  split at h
  · cases h
  next t us heq =>
    rw [heq, List.length_cons] at hle
    split at h
    · cases h
      omega
    · split at h
      · have hle' := (List.dropWhile_suffix Lexeme.isBlank (l := us)).length_le
        split at h
        · cases h
        next u vs heq' =>
          rw [heq', List.length_cons] at hle'
          split at h
          · obtain ⟨after, hafter, hpair⟩ := Option.map_eq_some_iff.1 h
            cases hpair
            have := length_afterClosing?_le hafter
            omega
          · cases h
      · cases h

/-- The lexemes of a condition with every question about a definition answered
    by 1 or 0, and without comments. -/
def answerDefined (table : MacroTable) (line : Nat) :
    List Lexeme → Except PreprocessError (List Lexeme)
  | [] => .ok []
  | t :: ts =>
    if t.kind = .word ∧ t.text = "defined".toList then
      match _h : definedName? ts with
      | none => .error ⟨.malformedDefined, line⟩
      | some (name, rest) =>
        (answerDefined table line rest).map
          (⟨.number, [if table.isDefined name then '1' else '0'], t.line⟩ :: ·)
    else if t.kind = .comment then answerDefined table line ts
    else (answerDefined table line ts).map (t :: ·)
termination_by ts => ts.length
decreasing_by
  · have := length_definedName?_le _h
    simp only [List.length_cons]
    omega
  · simp
  · simp

/-- The text that is evaluated for expanded lexemes: every blank lexeme counts as
    one space. -/
def conditionText (ts : List Lexeme) : Text :=
  ts.flatMap fun t => if t.isBlank then [' '] else t.text

/-- Whether the condition of an `#if` or `#elif` on the given line holds. Model of
    `eval_condition`. -/
def conditionHolds (table : MacroTable) (args : List Lexeme) (line : Nat) :
    Except PreprocessError Bool := do
  let answered ← answerDefined table line args
  let text := conditionText (← table.expand answered)
  match Condition.evaluate text with
  | .ok value => return value != 0
  | .error _ => throw ⟨.invalidCondition (Text.trim isWhiteSpace text), line⟩

/-- Whether the condition of a directive that opens a conditional holds. -/
def Opener.holds (opener : Opener) (table : MacroTable) (args : List Lexeme) (line : Nat) :
    Except PreprocessError Bool :=
  match opener with
  | .condition => conditionHolds table args line
  | .defined => definedHolds true
  | .undefined => definedHolds false
where
  /-- Whether the name behind the directive is defined, or is not. -/
  definedHolds (wanted : Bool) : Except PreprocessError Bool :=
    match firstName? args with
    | some name => .ok (table.isDefined name == wanted)
    | none => .error ⟨.malformed (.branch (.opener opener)), line⟩

/-- Whether the condition behind a directive of a conditional holds. `#else` has
    none, and counts as one that does. -/
def DirectiveLine.branchHolds (d : DirectiveLine) (table : MacroTable) :
    BranchName → Except PreprocessError Bool
  | .opener opener => opener.holds table d.args d.line
  | .elif => conditionHolds table d.args d.line
  | .otherwise | .endif => .ok true

end IdlFrontend
