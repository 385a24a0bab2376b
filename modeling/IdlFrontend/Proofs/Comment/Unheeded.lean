import IdlFrontend.Proofs.Comment.Place
import IdlFrontend.Proofs.Macro.Spacing
import IdlFrontend.Proofs.Session.Condensed
import IdlFrontend.Proofs.Session.Relabel

/-!
# Comments that nothing heeds

A comment is not always as good as a space. It keeps the number sign behind it from
beginning a directive; a pragma line is written without its comments, and a condition is
evaluated without them; a macro stores one space for each; and the name in an include
directive contains them. Everywhere else nothing depends on it.

Results:

* `Unheeded`: the places on a line where a comment makes no difference.
* `Unheeded.renumber`: they do not depend on the line numbers.
-/

namespace IdlFrontend

open Lexeme

/-! ## Positions on a line -/

/-- Whether space stands next to a place between the lexemes `pre` and `post`. -/
def Lexeme.isPadded (pre post : List Lexeme) : Bool :=
  pre.getLast?.any (·.kind == .space) || post.head?.any (·.kind == .space)

/-- A comment between the lexemes `pre` and `post` of its line does not stand where the
    preprocessor could tell it from a space. -/
structure Unheeded (pre post : List Lexeme) : Prop where
  /-- No number sign behind the comment would begin a directive. -/
  start : (∀ t ∈ pre, t.kind = .space) → directive? post = none
  /-- In a pragma, another space keeps the lexemes around the comment apart. -/
  pragma : ∀ d ∈ directive? (pre ++ post), d.name? = some (.command .pragma) →
    isPadded pre post ∨ ∀ t ∈ post, t.isBlank
  /-- In the body of a macro, the comment is the only space that is stored for the gap. -/
  definition : ∀ d ∈ directive? pre, d.name? = some (.command .define) →
    MacroTable.bodyOf d.args = [] ∨ isPadded pre post = false ∨ ∀ t ∈ post, t.isBlank
  /-- In an include directive, the comment does not stand inside of what names the file. -/
  target : ∀ d ∈ directive? pre, d.name? = some (.command .include) →
    d.args = [] ∨ (includeTarget? d.args).isSome ∨ ∀ t ∈ post, t.isBlank
  /-- The comment does not stand inside of a condition. -/
  condition : ∀ d ∈ directive? pre,
    d.name? = some (.branch (.opener .condition)) ∨ d.name? = some (.branch .elif) →
      d.args = [] ∨ ∀ t ∈ post, t.isBlank

/-! ## Moved line numbers -/

section Renumber

open Session (renumber)

variable (shift : Int) (ts : List Lexeme)

/-- The directive with its line numbers moved. -/
def DirectiveLine.renumber (d : DirectiveLine) : DirectiveLine :=
  ⟨shiftLine d.line shift, Session.renumber shift d.content⟩

theorem keepsShape_renumber : KeepsShape fun t => { t with line := shiftLine t.line shift } :=
  keepsShape_relabel (shiftLine · shift)

theorem directive?_renumber :
    directive? (renumber shift ts) = (directive? ts).map (DirectiveLine.renumber shift) :=
  directive?_relabel (shiftLine · shift) ts

theorem DirectiveLine.name?_renumber (d : DirectiveLine) : (d.renumber shift).name? = d.name? :=
  d.name?_relabel (shiftLine · shift)

theorem DirectiveLine.args_renumber (d : DirectiveLine) :
    (d.renumber shift).args = Session.renumber shift d.args :=
  d.args_relabel (shiftLine · shift)

theorem MacroTable.bodyOf_renumber :
    MacroTable.bodyOf (renumber shift ts) = renumber shift (MacroTable.bodyOf ts) := by
  match ts with
  | [] | [_] => rfl
  | _ :: t :: ts =>
    show (if t.isPunct '(' then ((readParameters [] none (renumber shift ts)).map Prod.snd).getD []
      else renumber shift (t :: ts)) = _
    rw [bodyOf, renumber, readParameters_map (keepsShape_renumber shift)]
    split
    · cases readParameters [] none ts <;> rfl
    · rfl

theorem includeTarget?_renumber : includeTarget? (renumber shift ts) = includeTarget? ts :=
  includeTarget?_relabel (shiftLine · shift) ts

variable {shift ts} {pre post : List Lexeme}

theorem isPadded_renumber :
    isPadded (renumber shift pre) (renumber shift post) = isPadded pre post := by
  rw [isPadded, isPadded, renumber, renumber, List.getLast?_map, List.head?_map, Option.any_map,
    Option.any_map]

theorem forall_mem_renumber {p : Lexeme → Prop}
    (hp : ∀ t, p { t with line := shiftLine t.line shift } ↔ p t) :
    (∀ t ∈ renumber shift ts, p t) ↔ ∀ t ∈ ts, p t := by
  rw [renumber, List.forall_mem_map]
  exact forall₂_congr fun t _ => hp t

theorem Unheeded.renumber (h : Unheeded pre post) (shift : Int) :
    Unheeded (renumber shift pre) (Session.renumber shift post) := by
  have hpre : ∀ d ∈ directive? (Session.renumber shift pre), ∃ d' ∈ directive? pre,
      d'.name? = d.name? ∧ d.args = Session.renumber shift d'.args := by
    intro d hd
    rw [directive?_renumber, Option.mem_def, Option.map_eq_some_iff] at hd
    obtain ⟨d', hd', rfl⟩ := hd
    exact ⟨d', hd', (d'.name?_renumber shift).symm, d'.args_renumber shift⟩
  have hblank : (∀ t ∈ Session.renumber shift post, t.isBlank) ↔ ∀ t ∈ post, t.isBlank :=
    forall_mem_renumber fun _ => Iff.rfl
  refine {
    start := fun hspaces => ?start
    pragma := fun d hd hname => ?pragma
    definition := fun d hd hname => ?definition
    target := fun d hd hname => ?target
    condition := fun d hd hname => ?condition }
  case start =>
    rw [directive?_renumber, h.start ((forall_mem_renumber fun _ => Iff.rfl).1 hspaces)]
    rfl
  case pragma =>
    have happend : Session.renumber shift pre ++ Session.renumber shift post =
        Session.renumber shift (pre ++ post) := List.map_append.symm
    rw [happend, directive?_renumber, Option.mem_def, Option.map_eq_some_iff] at hd
    obtain ⟨d', hd', rfl⟩ := hd
    rw [isPadded_renumber, hblank]
    exact h.pragma d' hd' (by rw [← d'.name?_renumber shift, hname])
  case definition =>
    obtain ⟨d', hd', hname', hargs⟩ := hpre d hd
    rw [hargs, MacroTable.bodyOf_renumber, isPadded_renumber, hblank]
    refine (h.definition d' hd' (hname'.trans hname)).imp (fun hnil => ?_) id
    rw [hnil]
    rfl
  case target =>
    obtain ⟨d', hd', hname', hargs⟩ := hpre d hd
    rw [hargs, includeTarget?_renumber, hblank]
    refine (h.target d' hd' (hname'.trans hname)).imp (fun hnil => ?_) id
    rw [hnil]
    rfl
  case condition =>
    obtain ⟨d', hd', hname', hargs⟩ := hpre d hd
    rw [hargs, hblank]
    refine (h.condition d' hd' (by rwa [hname'])).imp (fun hnil => ?_) id
    rw [hnil]
    rfl

end Renumber

end IdlFrontend
