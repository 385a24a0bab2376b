import IdlFrontend.Proofs.Lexeme.Whole
import IdlFrontend.Proofs.Macro.Scoping
import IdlFrontend.Proofs.Session.Run

/-!
# The macro for the name of a source

The macro `__FILE__` is defined by a text in which the name of the source is quoted, and which
is cut into lexemes like any other. A name without line feeds is one literal again, whatever
quotes and backslashes there are in it.

Results:

* `decodeName_quoteName`: a name that is quoted can be decoded.
* `fileBody_eq`: it is a single literal.
* `MacroTable.namesSource_of_find?`: the macro expands to that literal, in all places.
-/

namespace IdlFrontend

open Lexeme

namespace Session

variable {name : Text}

/-! ## Quoted names -/

/-- What a body of a literal stands for: a pair of backslashes for one, and an escaped quote for
    a quote. -/
def decodeName : Text → Text
  | '\\' :: '\\' :: cs => '\\' :: decodeName cs
  | '\\' :: '"' :: cs => '"' :: decodeName cs
  | c :: cs => c :: decodeName cs
  | [] => []

theorem quoteName_cons (c : Char) (cs : Text) :
    quoteName (c :: cs) = (if c == '\\' || c == '"' then ['\\', c] else [c]) ++ quoteName cs :=
  List.flatMap_cons

theorem decodeName_quoteName (name : Text) : decodeName (quoteName name) = name := by
  induction name with
  | nil => rfl
  | cons c cs ih =>
    rw [quoteName_cons]
    by_cases hslash : c = '\\'
    · subst hslash
      exact congrArg ('\\' :: ·) ih
    by_cases hquote : c = '"'
    · subst hquote
      exact congrArg ('"' :: ·) ih
    · rw [if_neg (by simp [hslash, hquote]), List.singleton_append, decodeName, ih]
      · exact fun _ h => absurd h hslash
      · exact fun _ h => absurd h hslash

/-- The closing quote is the first one that the scanner takes for it. -/
theorem quotedLength_quoteName (h : '\n' ∉ name) :
    quotedLength '"' (quoteName name ++ ['"']) = (quoteName name ++ ['"']).length := by
  induction name with
  | nil => rfl
  | cons c cs ih =>
    rw [List.mem_cons, not_or] at h
    have hrest := ih h.2
    have hfeed : c ≠ '\n' := fun heq => h.1 heq.symm
    rw [quoteName_cons, List.append_assoc]
    by_cases hescaped : c = '\\' ∨ c = '"'
    · rw [if_pos (by simpa using hescaped)]
      show quotedLength '"' ('\\' :: c :: (quoteName cs ++ ['"'])) = _
      rw [quotedLength, hrest]
      · rfl
      · exact hfeed
    · obtain ⟨hslash, hquote⟩ := not_or.1 hescaped
      rw [if_neg (by simpa using hescaped), List.singleton_append,
        quotedLength_cons hfeed hslash, if_neg (by simpa using hquote), hrest]
      rfl

theorem isWhole_quoteName (h : '\n' ∉ name) : IsWhole .string ('"' :: (quoteName name ++ ['"'])) :=
  congrArg (LexemeKind.string, ·) (quotedLength_quoteName h)

/-- A name without line feeds is one literal. -/
theorem fileBody_eq (h : '\n' ∉ name) :
    fileBody name = [⟨.string, '"' :: (quoteName name ++ ['"']), 1⟩] := by
  have hend : ∀ d ∈ ([] : Text).head?, runsInto .string ('"' :: (quoteName name ++ ['"'])) d =
      false := by
    rintro _ ⟨⟩
  have hscan := scanFrom_append (isWhole_quoteName h) (by decide) hend 1
  rw [List.append_nil, scanFrom] at hscan
  show (stripBlank (scanFrom 1 ('"' :: (quoteName name ++ ['"'])))).map _ = _
  rw [hscan]
  rfl

end Session

namespace MacroTable

variable {table : MacroTable} {name : Text}

/-- A macro whose body is a single lexeme and no word expands to that lexeme, wherever it is not
    hidden. -/
theorem expandHiding_single {t u : Lexeme} {m : Macro} (hword : t.kind = .word)
    (hfind : table.find? t.text = some m) (hparameters : m.parameters = .none)
    (hbody : m.body = [u]) (hu : u.kind ≠ .word) {hidden : List Text} (hhidden : t.text ∉ hidden)
    (ts : List Lexeme) :
    table.expandHiding table.macros.length hidden (t :: ts) =
      (table.expandHiding table.macros.length hidden ts).map ({ u with line := t.line } :: ·) := by
  have hfront : table.front false t ts = .invocation m [] ts := by
    rw [front, if_neg (by simp [hword]), hfind]
    dsimp only
    rw [if_pos hparameters]
  have hput : substitute m [] t.line = [{ u with line := t.line }] := by
    rw [substitute_none hparameters, hbody]
    rfl
  have hkept (hidden' : List Text) : table.expandHiding table.macros.length hidden'
      [{ u with line := t.line }] = .ok [{ u with line := t.line }] := by
    rw [expandHiding_cons, front, if_pos (.inl hu), expandHiding_nil]
    rfl
  rw [expandHiding_cons, decide_eq_false hhidden, hfront]
  dsimp only
  rw [List.mapM_nil]
  show (table.expandHiding _ _ (substitute m [] t.line) >>= _) = _
  rw [hput, hkept]
  rfl

/-- Wherever it is not hidden, in the text of a line, in an argument or in the body of a macro,
    `__FILE__` expands to exactly one lexeme: a whole string literal on its line, whose body is
    decoded to the name. -/
def NamesSource (table : MacroTable) (name : Text) : Prop :=
  ∃ body, Session.decodeName body = name ∧ IsWhole .string ('"' :: (body ++ ['"'])) ∧
    ∀ hidden, "__FILE__".toList ∉ hidden → ∀ line ts,
      table.expandHiding table.macros.length hidden (⟨.word, "__FILE__".toList, line⟩ :: ts) =
        (table.expandHiding table.macros.length hidden ts).map (⟨.string, '"' :: (body ++ ['"']),
          line⟩ :: ·)

/-- The macro for a name without line feeds names it. -/
theorem namesSource_of_find? (hfind : table.find? "__FILE__".toList = some (Session.fileMacro name))
    (h : '\n' ∉ name) : table.NamesSource name :=
  ⟨Session.quoteName name, Session.decodeName_quoteName name, Session.isWhole_quoteName h,
    fun _ hhidden line ts => expandHiding_single (t := ⟨.word, _, line⟩) rfl hfind rfl
      (Session.fileBody_eq h) (by rintro ⟨⟩) hhidden ts⟩

end MacroTable

end IdlFrontend
