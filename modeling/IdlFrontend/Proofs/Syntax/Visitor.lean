import IdlFrontend.Syntax.Walk

/-!
# Visitors that fail

A visitor is called for one event after the other. Each call may change the state of the
visitor, and may fail. To say what a visitor has received, its calls are noted down in front of
it, so that the note has every event for which it was called and no other.

Results:

* `Specification.balanced_events`: every container that is entered is left again, the innermost
  one first.
* `Visitor.outcome_noting`, `Visitor.outcome_noting_of_error`: the calls for a list of events.
* `Specification.walk_noting`: what a visitor receives of a specification, and what comes of it.
-/

namespace IdlFrontend

/-! ## Balance -/

/-- The containers that are open behind an event, the innermost first. Only the innermost one can
    be left. -/
def Event.track (around : List Container) : Event → Option (List Container)
  | .enter c => some (c :: around)
  | .leave c => match around with
    | d :: outer => if c = d then some outer else none
    | [] => none
  | .leaf _ => some around

/-- Every container that is entered is left again, the innermost one first. -/
def Event.Balanced (xs : List Event) : Prop := xs.foldlM Event.track [] = some []

instance (xs : List Event) : Decidable (Event.Balanced xs) := inferInstanceAs (Decidable (_ = _))

/-- Events that leave the open containers as they were. -/
def Event.Level (xs : List Event) : Prop := ∀ around, xs.foldlM Event.track around = some around

theorem Event.level_nil : Event.Level [] := fun _ => rfl

theorem Event.level_leaf (l : Leaf) : Event.Level [.leaf l] := fun _ => rfl

theorem Event.Level.append {xs ys : List Event} (hx : Event.Level xs) (hy : Event.Level ys) :
    Event.Level (xs ++ ys) := by
  intro around
  rw [List.foldlM_append, hx around]
  exact hy around

theorem Event.Level.around {inner : List Event} (h : Event.Level inner) (c : Container) :
    Event.Level (c.around inner) := by
  intro outer
  show (inner ++ [Event.leave c]).foldlM Event.track (c :: outer) = some outer
  rw [List.foldlM_append, h (c :: outer)]
  simp [Event.track]

theorem level_fieldEvents (fs : List Field) : Event.Level (fieldEvents fs) := by
  induction fs with
  | nil => exact Event.level_nil
  | cons f fs ih => exact (Event.level_leaf (.field f)).append ih

mutual

theorem Definition.level_events : ∀ d : Definition, Event.Level d.events
  | .module ⟨_, ds⟩ => by
    rw [Definition.events]
    exact (Definition.level_listEvents ds).around _
  | .interface ⟨_, _, _, none⟩ => by
    rw [Definition.events]
    exact Event.level_nil.around _
  | .interface ⟨_, _, _, some ds⟩ => by
    rw [Definition.events]
    exact (Definition.level_listEvents ds).around _
  | .valueType ⟨_, _, _, none⟩ => by
    rw [Definition.events]
    exact Event.level_nil.around _
  | .valueType ⟨_, _, _, some ds⟩ => by
    rw [Definition.events]
    exact (Definition.level_listEvents ds).around _
  | .struct s => by
    rw [Definition.events]
    exact (level_fieldEvents s.fields).around _
  | .union u => by
    rw [Definition.events]
    exact (level_fieldEvents _).around _
  | .enum e => by
    rw [Definition.events]
    exact Event.level_nil.around _
  | .typeDef t => Event.level_leaf (.typeDef t)
  | .native n => Event.level_leaf (.native n)
  | .attribute a => Event.level_leaf (.attribute a)
  | .operation o => Event.level_leaf (.operation o)
  | .field f => Event.level_leaf (.field f)
  | .constant c => Event.level_leaf (.constant c)
  | .exception _ => Event.level_nil
  | .fragment _ => Event.level_nil

theorem Definition.level_listEvents : ∀ ds : List Definition, Event.Level (Definition.listEvents ds)
  | [] => Event.level_nil
  | d :: ds => by
    rw [Definition.listEvents]
    exact (Definition.level_events d).append (Definition.level_listEvents ds)

end

theorem Specification.balanced_events (s : Specification) : Event.Balanced s.events :=
  (Definition.level_listEvents s.definitions).around (.specification s) []

/-! ## Calls -/

/-- A visitor with a state of its own, each of whose calls may fail. -/
abbrev Visitor (ε σ : Type) := Event → ExceptT ε (StateM σ) PUnit

namespace Visitor

variable {ε σ : Type}

/-- What calls of a visitor come to, and the state behind them. -/
def outcome (calls : ExceptT ε (StateM σ) PUnit) (s : σ) : Except ε PUnit × σ :=
  Id.run (StateT.run (ExceptT.run calls) s)

/-- What a call for an event comes to, and the state behind it. -/
def call (visit : Visitor ε σ) (x : Event) (s : σ) : Except ε PUnit × σ := outcome (visit x) s

/-- The visitor behind one that notes down every event before it hands it on. -/
def noting (visit : Visitor ε σ) : Visitor ε (σ × List Event) := fun x =>
  ExceptT.mk fun (s, seen) =>
    let (r, t) := visit.call x s
    pure (r, t, seen ++ [x])

/-- The calls for the events, one after the other, all succeed, and lead from one state to the
    other. -/
inductive Accepts (visit : Visitor ε σ) : σ → List Event → σ → Prop
  | nil (s : σ) : Accepts visit s [] s
  | cons {s t u : σ} {x : Event} {xs : List Event} :
    visit.call x s = (.ok ⟨⟩, t) → Accepts visit t xs u → Accepts visit s (x :: xs) u

/-- A walk with notes: what it returns, the last state of the visitor and the events that the
    visitor was called for. -/
def receive (visit : Visitor ε σ) (spec : Specification) (s : σ) :
    Except ε PUnit × σ × List Event :=
  outcome (spec.walk visit.noting) (s, [])

variable {visit : Visitor ε σ} {s t u : σ} {x : Event} {xs seen : List Event} {e : ε}

/-- The calls behind one that succeeds, or the error of one that fails. -/
theorem outcome_forM_cons (visit : Visitor ε σ) (x : Event) (xs : List Event) (s : σ) :
    outcome ((x :: xs).forM visit) s =
      match visit.call x s with
      | (.ok _, t) => outcome (xs.forM visit) t
      | (.error e, t) => (.error e, t) := by
  have hforM : (x :: xs).forM visit = visit x >>= fun _ => xs.forM visit := List.forM_cons
  rw [hforM, outcome, ExceptT.run_bind, StateT.run_bind, Id.run_bind]
  show Id.run (StateT.run _ (visit.call x s).2) = _
  rcases hcall : visit.call x s with ⟨e | r, t⟩ <;>
  · have hresult : (Id.run (StateT.run (ExceptT.run (visit x)) s)).1 = _ := congrArg Prod.fst hcall
    rw [hresult]
    rfl

theorem call_noting (visit : Visitor ε σ) (x : Event) (s : σ) (seen : List Event) :
    visit.noting.call x (s, seen) = ((visit.call x s).1, (visit.call x s).2, seen ++ [x]) := rfl

theorem outcome_noting (h : visit.Accepts s xs t) (seen ys : List Event) :
    outcome ((xs ++ ys).forM visit.noting) (s, seen) =
      outcome (ys.forM visit.noting) (t, seen ++ xs) := by
  induction h generalizing seen with
  | nil => rw [List.nil_append, List.append_nil]
  | cons hcall _ ih =>
    rw [List.cons_append, outcome_forM_cons, call_noting, hcall]
    dsimp only
    rw [ih, List.append_assoc, List.singleton_append]

/-- A call that fails is the last one. -/
theorem outcome_noting_of_error (h : visit.call x s = (.error e, t)) (xs : List Event) :
    outcome ((x :: xs).forM visit.noting) (s, seen) = (.error e, t, seen ++ [x]) := by
  rw [outcome_forM_cons, call_noting, h]

/-- A visitor none of whose calls fails accepts every list of events. -/
theorem exists_accepts (h : ∀ x s, (visit.call x s).1 = .ok ⟨⟩) (s : σ) (xs : List Event) :
    ∃ t, visit.Accepts s xs t := by
  induction xs generalizing s with
  | nil => exact ⟨s, .nil s⟩
  | cons x xs ih =>
    obtain ⟨t, ht⟩ := ih (visit.call x s).2
    exact ⟨t, .cons (Prod.ext (h x s) rfl) ht⟩

theorem receive_eq (visit : Visitor ε σ) (spec : Specification) (s : σ) :
    visit.receive spec s = outcome (spec.events.forM visit.noting) (s, []) := by
  rw [receive, Specification.walk_eq_forM_events]

end Visitor

/-- **What a visitor receives.** The events of a specification are balanced. A visitor that never
    fails is called for all of them. A visitor whose call number `n` is the first to fail has
    been called for the first `n` events before, is called for no other one behind, and the walk
    returns its error. -/
theorem Specification.walk_noting {ε σ : Type} (visit : Visitor ε σ)
    (spec : Specification) (s : σ) :
    Event.Balanced spec.events ∧
      ((∀ x t, (visit.call x t).1 = .ok ⟨⟩) →
        ∃ t, visit.Accepts s spec.events t ∧ visit.receive spec s = (.ok ⟨⟩, t, spec.events)) ∧
      ∀ (n : Nat) (hn : n < spec.events.length) (t u : σ) (e : ε),
        visit.Accepts s (spec.events.take n) t → visit.call spec.events[n] t = (.error e, u) →
          visit.receive spec s = (.error e, u, spec.events.take n ++ [spec.events[n]]) := by
  refine ⟨spec.balanced_events, fun hnever => ?_, fun n hn t u e haccepts hcall => ?_⟩
  · obtain ⟨t, ht⟩ := Visitor.exists_accepts hnever s spec.events
    have hrun := Visitor.outcome_noting ht [] []
    rw [List.append_nil] at hrun
    refine ⟨t, ht, ?_⟩
    rw [Visitor.receive_eq, hrun]
    rfl
  · have hevents : spec.events.take n ++ spec.events[n] :: spec.events.drop (n + 1) =
        spec.events := by
      rw [List.getElem_cons_drop, List.take_append_drop]
    have hrun := Visitor.outcome_noting haccepts []
      (spec.events[n] :: spec.events.drop (n + 1))
    rw [hevents, Visitor.outcome_noting_of_error hcall] at hrun
    rw [Visitor.receive_eq, hrun]
    rfl

/-- A visitor that counts its calls and fails at one of them. -/
def Visitor.failingAt {ε : Type} (n : Nat) (e : ε) : Visitor ε Nat := fun _ =>
  ExceptT.mk fun k => (if k = n then .error e else .ok ⟨⟩, k + 1)

/-- A visitor that fails at the second field of a structure sees neither the end of the structure
    nor that of the module around it. -/
theorem Specification.walk_noting_secondField :
    let field (name : Text) : Field := ⟨.basic .long, [.simple name], []⟩
    let struct : StructType := ⟨some ['S'], [], [field ['a'], field ['b']]⟩
    let spec : Specification := ⟨[.module ⟨['M'], [.struct struct]⟩]⟩
    let seen :
    List Event := [.enter (.specification spec), .enter (.module ⟨['M'], [.struct struct]⟩),
      .enter (.struct struct), .leaf (.field (field ['a'])), .leaf (.field (field ['b']))]
    (Visitor.failingAt 4 "stop").Accepts 0 (spec.events.take 4) 4 ∧
      (Visitor.failingAt 4 "stop").receive spec 0 = (.error "stop", 5, seen) := by
  intro field struct spec seen
  have haccepts : (Visitor.failingAt 4 "stop").Accepts 0 (spec.events.take 4) 4 :=
    .cons rfl (.cons rfl (.cons rfl (.cons rfl (.nil 4))))
  have hlength : 4 < spec.events.length := by decide
  exact ⟨haccepts, (Specification.walk_noting (Visitor.failingAt 4 "stop") spec 0).2.2 4 hlength
    4 5 "stop" haccepts rfl⟩

end IdlFrontend
