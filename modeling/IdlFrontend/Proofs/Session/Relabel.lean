import IdlFrontend.Preprocess.Directive
import IdlFrontend.Proofs.Macro.Spacing

/-!
# Other line numbers

What a directive is, and what it names, does not depend on the numbers of the lines on
which its lexemes stand.

Results:

* `directive?_relabel`: a line with other line numbers is the same directive.
* `includeTarget?_relabel`, `firstName?_relabel`, `readLineChange_relabel`: it names the same.
-/

namespace IdlFrontend

open Lexeme

/-- The lexemes with other line numbers. -/
def Lexeme.relabel (g : Nat → Nat) (ts : List Lexeme) : List Lexeme :=
  ts.map fun t => { t with line := g t.line }

variable (g : Nat → Nat) (ts : List Lexeme)

theorem keepsShape_relabel : KeepsShape fun t => { t with line := g t.line } :=
  ⟨fun _ => rfl, fun _ _ => rfl, fun _ => Iff.rfl, fun _ _ => rfl⟩

theorem Lexeme.stripBlank_relabel : stripBlank (relabel g ts) = relabel g (stripBlank ts) :=
  stripBlank_map (keepsShape_relabel g) ts

/-- The directive with other line numbers. -/
def DirectiveLine.relabel (d : DirectiveLine) :
    DirectiveLine := ⟨g d.line, Lexeme.relabel g d.content⟩

theorem directive?_relabel :
    directive? (relabel g ts) = (directive? ts).map (DirectiveLine.relabel g) := by
  have hdrop : (relabel g ts).dropWhile (·.kind == .space) =
      relabel g (ts.dropWhile (·.kind == .space)) := List.dropWhile_map ..
  rw [directive?, directive?, hdrop]
  cases ts.dropWhile (·.kind == .space) with
  | nil => rfl
  | cons hash rest =>
    show (if hash.isPunct '#' then some (⟨_, stripBlank (relabel g rest)⟩ : DirectiveLine)
      else none) = Option.map (DirectiveLine.relabel g)
        (if hash.isPunct '#' then some ⟨hash.line, stripBlank rest⟩ else none)
    rw [stripBlank_relabel]
    split <;> rfl

theorem DirectiveLine.name?_relabel (d : DirectiveLine) : (d.relabel g).name? = d.name? := by
  obtain ⟨line, content⟩ := d
  cases content <;> rfl

theorem DirectiveLine.args_relabel (d : DirectiveLine) :
    (d.relabel g).args = Lexeme.relabel g d.args := by
  rw [args, args, ← stripBlank_relabel]
  obtain ⟨line, content⟩ := d
  cases content <;> rfl

theorem DirectiveLine.lineTarget_relabel (d : DirectiveLine) :
    (d.relabel g).lineTarget = Lexeme.relabel g d.lineTarget := by
  have hhead : (d.relabel g).content.head?.any (·.kind == .number) =
      d.content.head?.any (·.kind == .number) := by
    obtain ⟨line, content⟩ := d
    cases content <;> rfl
  unfold lineTarget
  rw [hhead, args_relabel]
  split <;> rfl

theorem includeTarget?_relabel : includeTarget? (relabel g ts) = includeTarget? ts := by
  cases ts with
  | nil => rfl
  | cons t ts =>
    have hany : (relabel g ts).any (·.isPunct '>') = ts.any (·.isPunct '>') := List.any_map
    have htext : ((relabel g ts).takeWhile fun u => !u.isPunct '>').map Lexeme.text =
        (ts.takeWhile fun u => !u.isPunct '>').map Lexeme.text := by
      rw [relabel, List.takeWhile_map, List.map_map]
      rfl
    show (if t.kind = .string then (unquote? t.text).map (·, true)
      else if t.isPunct '<' && (relabel g ts).any (·.isPunct '>') then
        some ((((relabel g ts).takeWhile fun u => !u.isPunct '>').map Lexeme.text).flatten, false)
      else none) = _
    rw [hany, htext]
    rfl

theorem firstName?_relabel : firstName? (relabel g ts) = firstName? ts := by
  cases ts <;> rfl

theorem readLineChange_relabel :
    readLineChange (relabel g ts) = readLineChange ts := by
  have hfilter : (relabel g ts).filter (!·.isBlank) = relabel g (ts.filter (!·.isBlank)) :=
    List.filter_map
  unfold readLineChange
  rw [hfilter]
  generalize ts.filter (!·.isBlank) = us
  rcases us with _ | ⟨number, _ | ⟨file, rest⟩⟩
  · rfl
  · rfl
  · simp only [relabel, List.map_cons]
    cases number.text.lineNumber? <;> rfl

theorem definedName?_relabel :
    definedName? (relabel g ts) = (definedName? ts).map fun r => (r.1, relabel g r.2) := by
  have hdrop (ts : List Lexeme) :
      (relabel g ts).dropWhile Lexeme.isBlank = relabel g (ts.dropWhile Lexeme.isBlank) :=
    dropWhile_isBlank_map (keepsShape_relabel g) ts
  unfold definedName?
  rw [hdrop]
  cases ts.dropWhile Lexeme.isBlank with
  | nil => rfl
  | cons t us =>
    have hus := hdrop us
    have hpunct : Lexeme.isPunct ⟨t.kind, t.text, g t.line⟩ '(' = t.isPunct '(' := rfl
    rw [show relabel g (t :: us) = ⟨t.kind, t.text, g t.line⟩ :: relabel g us from rfl]
    dsimp only
    rw [hus, hpunct]
    by_cases hword : t.kind = .word
    · rw [if_pos hword, if_pos hword]
      rfl
    rw [if_neg hword, if_neg hword]
    cases t.isPunct '(' with
    | false => rfl
    | true =>
      cases us.dropWhile Lexeme.isBlank with
      | nil => rfl
      | cons name rest =>
        have hclose : MacroTable.afterClosing? (relabel g rest) =
            (MacroTable.afterClosing? rest).map (relabel g) :=
          MacroTable.afterClosing?_map (keepsShape_relabel g) rest
        rw [show relabel g (name :: rest) = ⟨name.kind, name.text, g name.line⟩ :: relabel g
          rest from rfl]
        dsimp only
        rw [if_pos rfl, if_pos rfl, hclose]
        by_cases hname : name.kind = .word
        · rw [if_pos hname, if_pos hname, Option.map_map, Option.map_map]
          rfl
        · rw [if_neg hname, if_neg hname]
          rfl

end IdlFrontend
