import IdlFrontend.Text.LineBreak
import IdlFrontend.Text.WhiteSpace

/-!
# Line splicing

A physical line whose text ends in a backslash is continued by the next one.
Splicing moves the continuation up and leaves an empty line in its place, so
that every other line keeps its number.

Results:

* `length_splice`: splicing keeps the number of lines.
-/

namespace IdlFrontend.Source

/-- Whether a line asks for the next one to be appended. -/
def isContinued (line : Text) : Bool := line.getLast? == some '\\'

/-- The logical lines that begin with the partial line `current`, which has
    already absorbed `absorbed` physical lines. The absorbed lines follow it as
    empty lines. -/
def spliceOnto (current : Text) (absorbed : Nat) : List Text → List Text
  | [] => current :: List.replicate absorbed []
  | line :: lines =>
    if isContinued current then spliceOnto (current.dropLast ++ line) (absorbed + 1) lines
    else current :: (List.replicate absorbed [] ++ spliceOnto line 0 lines)

/-- The lines with each continued line joined to its continuations. Model of the loop of
    `join_continuations`. -/
def splice : List Text → List Text
  | [] => []
  | line :: lines => spliceOnto line 0 lines

/-- The source text as logical lines: physical lines are trimmed at the end and spliced, and every
    line break is written as a line feed. Model of `join_continuations`. -/
def joinContinuations (cs : Text) : Text :=
  Text.join ['\n'] (splice (cs.physicalLines.map (Text.trimEnd isWhiteSpace))) ++
    if cs.endsInLineBreak then ['\n'] else []

theorem length_spliceOnto (current : Text) (absorbed : Nat) (lines : List Text) :
    (spliceOnto current absorbed lines).length = lines.length + absorbed + 1 := by
  induction lines generalizing current absorbed with
  | nil => simp [spliceOnto]
  | cons line lines ih =>
    rw [spliceOnto]
    split
    · rw [ih, List.length_cons]; omega
    · simp only [List.length_cons, List.length_append, List.length_replicate, ih]; omega

theorem length_splice (lines : List Text) : (splice lines).length = lines.length := by
  cases lines with
  | nil => rfl
  | cons line lines => rw [splice, length_spliceOnto, List.length_cons, Nat.add_zero]

end IdlFrontend.Source
