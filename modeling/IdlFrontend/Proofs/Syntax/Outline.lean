import Mathlib.Algebra.GroupWithZero.Nat
import IdlFrontend.Proofs.Syntax.Visitor
import IdlFrontend.Syntax.Outline

/-!
# The lines of an outline

A walk calls the visitor that writes an outline for everything that is entered, for everything that
is left and for every leaf. A visit is a call of the first or the last kind. The outline has an
entry for every visit, indented by the containers that are open there, and all of them are closed
in the end.

Results:

* `Specification.outline_eq`: the entries of an outline and its depth.
* `Outline.count_text`: the line feeds in the text of an outline.
-/

namespace IdlFrontend

/-- An event that is not the end of a container, with the containers that are open there. -/
structure Visit where
  around : List Container
  event : Event

/-- What an outline writes for an event, without the indentation. -/
def Event.outline : Event → Text
  | .enter c => c.outline
  | .leave _ => []
  | .leaf l => l.outline

/-- The visits among events, where the containers `around` are open in front of them. -/
def Event.visits (around : List Container) : List Event → List Visit
  | [] => []
  | .enter c :: es => ⟨around, .enter c⟩ :: visits (c :: around) es
  | .leave _ :: es => visits around.tail es
  | .leaf l :: es => ⟨around, .leaf l⟩ :: visits around es

/-- The visits of a specification. -/
def Specification.visits (s : Specification) : List Visit := Event.visits [] s.events

/-- The entry of a visit: two spaces for every open container, and what is visited. -/
def Visit.entry (v : Visit) : Text := List.replicate (2 * v.around.length) ' ' ++ v.event.outline

namespace Outline

theorem run_forM_visit (es : List Event) (o : Outline) :
    ((es.forM visit).run o).2 = es.foldl Outline.after o := by
  induction es generalizing o with
  | nil => rfl
  | cons e es ih => exact ih (o.after e)

/-- The outline behind events that leave no container but those they have entered. -/
theorem foldl_after {es : List Event} {around left : List Container} {o : Outline}
    (hdepth : o.depth = around.length) (h : es.foldlM Event.track around = some left) :
    (es.foldl Outline.after o).depth = left.length ∧
      (es.foldl Outline.after o).lines.reverse =
        o.lines.reverse ++ (Event.visits around es).map Visit.entry := by
  induction es generalizing around o with
  | nil =>
    cases h
    exact ⟨hdepth, (List.append_nil _).symm⟩
  | cons e es ih =>
    rw [List.foldlM_cons] at h
    obtain ⟨now, hnow, hrest⟩ := Option.bind_eq_some_iff.1 h
    have hentry (e : Event) (rest : List Visit) :
        ((List.replicate (2 * o.depth) ' ' ++ e.outline) :: o.lines).reverse ++
          rest.map Visit.entry =
          o.lines.reverse ++ (⟨around, e⟩ :: rest : List Visit).map Visit.entry := by
      rw [hdepth]
      simp [Visit.entry]
    cases e with
    | enter c =>
      cases hnow
      obtain ⟨hend, hlines⟩ := ih (o := o.after (.enter c)) (congrArg (· + 1) hdepth) hrest
      exact ⟨hend, hlines.trans (hentry (.enter c) _)⟩
    | leaf l =>
      cases hnow
      obtain ⟨hend, hlines⟩ := ih (o := o.after (.leaf l)) hdepth hrest
      exact ⟨hend, hlines.trans (hentry (.leaf l) _)⟩
    | leave c =>
      cases around with
      | nil => cases hnow
      | cons d outer =>
        simp only [Event.track] at hnow
        split at hnow
        · cases hnow
          exact ih (o := o.after (.leave c)) (congrArg (· - 1) hdepth) hrest
        · cases hnow

/-- The line feeds in the text: one behind every entry, and those in the entries. -/
theorem count_text (o : Outline) :
    o.text.count '\n' = o.lines.length + (o.lines.map (List.count '\n')).sum := by
  have hcount (lines : List Text) : (lines.flatMap fun line => line ++ ['\n']).count '\n' =
      lines.length + (lines.map (List.count '\n')).sum := by
    induction lines with
    | nil => rfl
    | cons line lines ih =>
      simp only [List.flatMap_cons, List.count_append, List.count_singleton_self, ih,
        List.length_cons, List.map_cons, List.sum_cons]
      omega
  rw [text, hcount, List.length_reverse, List.map_reverse, List.sum_reverse]

end Outline

/-- **The outline has an entry for every visit.** The entries are in the order of the visits and
    indented by the containers around them, all of which are closed in the end. -/
theorem Specification.outline_eq (s : Specification) :
    s.outline.depth = 0 ∧ s.outline.lines.reverse = s.visits.map Visit.entry := by
  rw [Specification.outline, Specification.walk_eq_forM_events, Outline.run_forM_visit]
  have hdepth : ({} : Outline).depth = ([] : List Container).length := rfl
  exact Outline.foldl_after hdepth s.balanced_events

end IdlFrontend
