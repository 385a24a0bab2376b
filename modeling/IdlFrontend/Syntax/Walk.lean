import IdlFrontend.Syntax.Definition

/-!
# Walking a specification

A walk shows a specification to a visitor as a sequence of events, in the order of
the source. What contains other things is entered before them and left behind them.
Exceptions and code fragments are passed over, and so are the names in an
enumeration.

Results:

* `Specification.walk_eq_forM_events`: the walk shows exactly the events, in any
  monad; a visitor that stops has seen those before, and sees none after.
-/

namespace IdlFrontend

/-- What can contain other things. -/
inductive Container where
  | specification (s : Specification)
  | module (m : Module)
  | interface (i : Interface)
  | valueType (v : ValueType)
  | struct (s : StructType)
  | union (u : UnionType)
  | enum (e : EnumType)
deriving DecidableEq

/-- What contains nothing that is shown. -/
inductive Leaf where
  | typeDef (t : TypeDef)
  | native (n : NativeType)
  | attribute (a : Attribute)
  | operation (o : Operation)
  | field (f : Field)
  | constant (c : Constant)
deriving DecidableEq

/-- What a visitor is shown. -/
inductive Event where
  | enter (c : Container)
  | leave (c : Container)
  | leaf (l : Leaf)
deriving DecidableEq

/-! ## Events -/

/-- Events between entering and leaving a container. -/
def Container.around (c : Container) (inner : List Event) : List Event :=
  .enter c :: inner ++ [.leave c]

/-- The events of fields. -/
def fieldEvents (fs : List Field) : List Event := fs.map fun f => .leaf (.field f)

mutual

/-- The events of a definition. -/
def Definition.events : Definition → List Event
  | .module ⟨name, ds⟩ => (Container.module ⟨name, ds⟩).around (Definition.listEvents ds)
  | .interface ⟨name, ps, ss, none⟩ => (Container.interface ⟨name, ps, ss, none⟩).around []
  | .interface ⟨name, ps, ss, some ds⟩ =>
    (Container.interface ⟨name, ps, ss, some ds⟩).around (Definition.listEvents ds)
  | .valueType ⟨name, ps, t, none⟩ => (Container.valueType ⟨name, ps, t, none⟩).around []
  | .valueType ⟨name, ps, t, some ds⟩ =>
    (Container.valueType ⟨name, ps, t, some ds⟩).around (Definition.listEvents ds)
  | .struct s => (Container.struct s).around (fieldEvents s.fields)
  | .union u => (Container.union u).around (fieldEvents (u.cases.map UnionCase.element))
  | .enum e => (Container.enum e).around []
  | .typeDef t => [.leaf (.typeDef t)]
  | .native n => [.leaf (.native n)]
  | .attribute a => [.leaf (.attribute a)]
  | .operation o => [.leaf (.operation o)]
  | .field f => [.leaf (.field f)]
  | .constant c => [.leaf (.constant c)]
  | .exception _ | .fragment _ => []
termination_by structural d => d

/-- The events of definitions, one after the other. -/
def Definition.listEvents : List Definition → List Event
  | [] => []
  | d :: ds => d.events ++ Definition.listEvents ds
termination_by structural ds => ds

end

/-- The events of a specification. -/
def Specification.events (s : Specification) : List Event :=
  (Container.specification s).around (Definition.listEvents s.definitions)

/-! ## Walks -/

section Walk

variable {m : Type → Type} [Monad m]

/-- Shows a container around what `inner` shows. -/
def Container.walk (visit : Event → m PUnit) (c : Container) (inner : m PUnit) : m PUnit := do
  visit (.enter c)
  inner
  visit (.leave c)

/-- Shows fields. -/
def walkFields (visit : Event → m PUnit) (fs : List Field) : m PUnit :=
  fs.forM fun f => visit (.leaf (.field f))

mutual

/-- Shows a definition. Model of `walk_definition`. -/
def Definition.walk (visit : Event → m PUnit) : Definition → m PUnit
  | .module ⟨name, ds⟩ =>
    (Container.module ⟨name, ds⟩).walk visit (Definition.walkList visit ds)
  | .interface ⟨name, ps, ss, none⟩ =>
    (Container.interface ⟨name, ps, ss, none⟩).walk visit (pure ⟨⟩)
  | .interface ⟨name, ps, ss, some ds⟩ =>
    (Container.interface ⟨name, ps, ss, some ds⟩).walk visit (Definition.walkList visit ds)
  | .valueType ⟨name, ps, t, none⟩ =>
    (Container.valueType ⟨name, ps, t, none⟩).walk visit (pure ⟨⟩)
  | .valueType ⟨name, ps, t, some ds⟩ =>
    (Container.valueType ⟨name, ps, t, some ds⟩).walk visit (Definition.walkList visit ds)
  | .struct s => (Container.struct s).walk visit (walkFields visit s.fields)
  | .union u => (Container.union u).walk visit (walkFields visit (u.cases.map UnionCase.element))
  | .enum e => (Container.enum e).walk visit (pure ⟨⟩)
  | .typeDef t => visit (.leaf (.typeDef t))
  | .native n => visit (.leaf (.native n))
  | .attribute a => visit (.leaf (.attribute a))
  | .operation o => visit (.leaf (.operation o))
  | .field f => visit (.leaf (.field f))
  | .constant c => visit (.leaf (.constant c))
  | .exception _ | .fragment _ => pure ⟨⟩
termination_by structural d => d

/-- Shows definitions, one after the other. Model of `walk_definitions`. -/
def Definition.walkList (visit : Event → m PUnit) : List Definition → m PUnit
  | [] => pure ⟨⟩
  | d :: ds => do
    d.walk visit
    Definition.walkList visit ds
termination_by structural ds => ds

end

/-- Shows a specification. Model of `walk`. -/
def Specification.walk (visit : Event → m PUnit) (s : Specification) : m PUnit :=
  (Container.specification s).walk visit (Definition.walkList visit s.definitions)

/-! ## Walks show the events -/

variable [LawfulMonad m]

theorem Container.walk_forM (visit : Event → m PUnit) (c : Container) (inner : List Event) :
    c.walk visit (inner.forM visit) = (c.around inner).forM visit := by
  simp [Container.walk, Container.around]

theorem walkFields_eq (visit : Event → m PUnit) (fs : List Field) :
    walkFields visit fs = (fieldEvents fs).forM visit := by
  simp [walkFields, fieldEvents]

omit [LawfulMonad m] in
theorem forM_nil_eq (visit : Event → m PUnit) :
    (pure ⟨⟩ : m PUnit) = ([] : List Event).forM visit := rfl

mutual

theorem Definition.walk_eq (visit : Event → m PUnit) :
    ∀ d : Definition, d.walk visit = d.events.forM visit
  | .module ⟨_, ds⟩ => by
    rw [Definition.walk, Definition.events, Definition.walkList_eq visit ds, Container.walk_forM]
  | .interface ⟨_, _, _, none⟩ => by
    rw [Definition.walk, Definition.events, forM_nil_eq visit, Container.walk_forM]
  | .interface ⟨_, _, _, some ds⟩ => by
    rw [Definition.walk, Definition.events, Definition.walkList_eq visit ds, Container.walk_forM]
  | .valueType ⟨_, _, _, none⟩ => by
    rw [Definition.walk, Definition.events, forM_nil_eq visit, Container.walk_forM]
  | .valueType ⟨_, _, _, some ds⟩ => by
    rw [Definition.walk, Definition.events, Definition.walkList_eq visit ds, Container.walk_forM]
  | .struct _ => by
    rw [Definition.walk, Definition.events, walkFields_eq, Container.walk_forM]
  | .union _ => by
    rw [Definition.walk, Definition.events, walkFields_eq, Container.walk_forM]
  | .enum _ => by
    rw [Definition.walk, Definition.events, forM_nil_eq visit, Container.walk_forM]
  | .typeDef _ => by simp [Definition.walk, Definition.events]
  | .native _ => by simp [Definition.walk, Definition.events]
  | .attribute _ => by simp [Definition.walk, Definition.events]
  | .operation _ => by simp [Definition.walk, Definition.events]
  | .field _ => by simp [Definition.walk, Definition.events]
  | .constant _ => by simp [Definition.walk, Definition.events]
  | .exception _ => by simp [Definition.walk, Definition.events]
  | .fragment _ => by simp [Definition.walk, Definition.events]

theorem Definition.walkList_eq (visit : Event → m PUnit) :
    ∀ ds : List Definition, Definition.walkList visit ds = (Definition.listEvents ds).forM visit
  | [] => by simp [Definition.walkList, Definition.listEvents]
  | d :: ds => by
    simp [Definition.walkList, Definition.listEvents, Definition.walk_eq visit d,
      Definition.walkList_eq visit ds]

end

theorem Specification.walk_eq_forM_events (visit : Event → m PUnit) (s : Specification) :
    s.walk visit = s.events.forM visit := by
  rw [Specification.walk, Specification.events, Definition.walkList_eq, Container.walk_forM]

end Walk

end IdlFrontend
