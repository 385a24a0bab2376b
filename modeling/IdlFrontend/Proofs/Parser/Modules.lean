import IdlFrontend.Proofs.Parser.Returns
import IdlFrontend.Syntax.Walk

/-!
# The modules that are opened

A module is opened where its head is read, and nothing but a definition opens modules. The names
of the modules in what a parser returns are those of the heads that it has read, in their order.
None of them is in an interface or a value type.

Results:

* `leads_definition`, `leads_specification`: the modules that are opened.
-/

namespace IdlFrontend

/-! ## Modules in definitions -/

/-- The name of the module that is entered. -/
def Event.moduleName? : Event → Option Text
  | .enter (.module m) => some m.name
  | _ => none

/-- The names of the modules in the order in which they are entered. -/
def Definition.openedModules (d : Definition) : List Text := d.events.filterMap Event.moduleName?

/-- The names of the modules in definitions, one after the other. -/
def Definition.openedModulesOf (ds : List Definition) : List Text :=
  (Definition.listEvents ds).filterMap Event.moduleName?

/-- The names of the modules where a definition may stand. -/
def openedModules? (d? : Option Definition) : List Text := d?.elim [] Definition.openedModules

theorem filterMap_moduleName?_around {c : Container} (hc : (Event.enter c).moduleName? = none)
    (inner : List Event) : (c.around inner).filterMap Event.moduleName? =
      inner.filterMap Event.moduleName? := by
  rw [Container.around, List.cons_append, List.filterMap_cons_none hc, List.filterMap_append]
  exact List.append_nil _

theorem openedModulesOf_cons (d : Definition) (ds : List Definition) :
    Definition.openedModulesOf (d :: ds) = d.openedModules ++ Definition.openedModulesOf ds := by
  rw [Definition.openedModulesOf, Definition.listEvents, List.filterMap_append]
  rfl

theorem flatMap_openedModules? (ds : List (Option Definition)) :
    ds.flatMap openedModules? = Definition.openedModulesOf (ds.filterMap id) := by
  induction ds with
  | nil => rfl
  | cons d? ds ih =>
    cases d? with
    | none => exact ih
    | some d =>
      show d.openedModules ++ ds.flatMap openedModules? =
        Definition.openedModulesOf (d :: ds.filterMap id)
      rw [openedModulesOf_cons, ih]

theorem openedModulesOf_eq_nil {ds : List (Option Definition)}
    (h : ∀ d? ∈ ds, openedModules? d? = []) :
    Definition.openedModulesOf (ds.filterMap id) = [] := by
  rw [← flatMap_openedModules?]
  exact List.flatMap_eq_nil_iff.2 h

theorem openedModules_module (m : Module) :
    (Definition.module m).openedModules = m.name :: Definition.openedModulesOf m.definitions := by
  obtain ⟨name, ds⟩ := m
  show name :: (Definition.listEvents ds ++ [Event.leave _]).filterMap Event.moduleName? = _
  rw [List.filterMap_append]
  exact congrArg (name :: ·) (List.append_nil _)

theorem filterMap_moduleName?_fieldEvents (fs : List Field) :
    (fieldEvents fs).filterMap Event.moduleName? = [] := by
  induction fs with
  | nil => rfl
  | cons f fs ih => exact ih

theorem openedModules_struct (s : StructType) : (Definition.struct s).openedModules = [] := by
  rw [Definition.openedModules, Definition.events, filterMap_moduleName?_around rfl]
  exact filterMap_moduleName?_fieldEvents _

theorem openedModules_union (u : UnionType) : (Definition.union u).openedModules = [] := by
  rw [Definition.openedModules, Definition.events, filterMap_moduleName?_around rfl]
  exact filterMap_moduleName?_fieldEvents _

theorem openedModules_interface {i : Interface}
    (h : ∀ ds ∈ i.body, Definition.openedModulesOf ds = []) :
    (Definition.interface i).openedModules = [] := by
  obtain ⟨name, properties, supers, _ | ds⟩ := i
  · rfl
  · rw [Definition.openedModules, Definition.events, filterMap_moduleName?_around rfl]
    exact h _ rfl

theorem openedModules_valueType {v : ValueType}
    (h : ∀ ds ∈ v.definitions, Definition.openedModulesOf ds = []) :
    (Definition.valueType v).openedModules = [] := by
  obtain ⟨name, properties, base, _ | ds⟩ := v
  · rfl
  · rw [Definition.openedModules, Definition.events, filterMap_moduleName?_around rfl]
    exact h _ rfl

namespace Parser

variable {C : Course} {α β : Type} {Q : β → Prop} {p : Parser α}

/-! ## Declarations -/

/-- Nothing is asked of the stream. -/
abbrev Anything : TokenStream → Prop := fun _ => True

theorem returns_anything : Maintains Anything p := fun _ _ _ _ _ => ⟨trivial, trivial⟩

/-- What is returned does not depend on what was read before. -/
theorem returns_bind {f : α → Parser β} (hf : ∀ a, Returns Anything Q (f a)) :
    Returns Anything Q (p >>= f) := returns_anything.bind fun a _ => hf a

/-- A declaration opens no module. -/
def ClosedDeclaration (d? : Option Definition) : Prop := openedModules? d? = []

theorem returns_ended {d : Definition} (hd : d.openedModules = []) :
    Returns Anything ClosedDeclaration (ended d) := returns_bind fun _ => returns_pure hd

theorem returns_constructed? (type : Parser TypeSpec) (properties : List Property) :
    Returns Anything (fun r? => ∀ r ∈ r?, r.2.openedModules = [])
      (constructed? type properties) := by
  have hsome (type : TypeSpec) {d : Definition} (hd : d.openedModules = []) :
      Returns Anything (fun r? => ∀ r ∈ r?, r.2.openedModules = []) (pure (some (type, d))) :=
    returns_pure fun r hr => by cases hr; exact hd
  refine returns_bind fun kind? => ?_
  split
  · exact returns_bind fun s => hsome _ (openedModules_struct s)
  · exact returns_bind fun u => hsome _ (openedModules_union u)
  · exact returns_bind fun _ => hsome _ rfl
  · exact returns_pure fun _ hr => by cases hr

theorem returns_valueTypeOf {member : Parser (Option Definition)}
    (h : Returns Anything ClosedDeclaration member) (l : Lead) :
    Returns Anything (fun v => (Definition.valueType v).openedModules = [])
      (valueTypeOf member l) := by
  have hrest (name : Option Text) (base : Option TypeSpec) :
      Returns Anything (fun v => (Definition.valueType v).openedModules = []) (do
        if ← acceptPunct .openBrace then
          let members ← manyUntil .closeBrace member
          return ⟨name, l.properties, base, some (members.filterMap id)⟩
        else return ⟨name, l.properties, base, none⟩) := by
    refine returns_bind fun _ => returns_ite (fun _ => ?_) fun _ => returns_pure rfl
    refine (returns_manyUntil returns_anything h).bind fun members hmembers => returns_pure ?_
    refine openedModules_valueType fun ds hds => ?_
    cases hds
    exact openedModulesOf_eq_nil hmembers
  refine returns_bind fun _ => returns_bind fun name => returns_bind fun _ =>
    returns_bind fun _ => ?_
  refine returns_ite (fun _ => returns_bind fun base => hrest name base) fun _ => ?_
  exact returns_ite_bind (fun _ => returns_anything) (fun _ => returns_anything) fun base _ =>
    hrest name base

theorem returns_declaration? {valueType : Lead → Parser ValueType} {l : Lead}
    (h : Returns Anything (fun v => (Definition.valueType v).openedModules = []) (valueType l)) :
    Returns Anything ClosedDeclaration (declaration? valueType l) := by
  refine returns_bind fun kind? => ?_
  split
  · exact returns_bind fun _ => returns_pure rfl
  · exact returns_bind fun _ => returns_pure rfl
  · exact h.bind fun _ hv => returns_pure hv
  · exact returns_bind fun _ => returns_pure rfl
  · exact returns_bind fun _ => returns_pure rfl
  · exact returns_pure rfl

/-- A lone semicolon opens no module, and neither does a code fragment. -/
theorem returns_bare? (l : Lead) :
    Returns Anything (fun d?? => ∀ d? ∈ d??, ClosedDeclaration d?) (bare? l) := by
  have hsome {d? : Option Definition} (hd : ClosedDeclaration d?) :
      Returns Anything (fun d?? => ∀ d? ∈ d??, ClosedDeclaration d?) (pure (some d?)) :=
    returns_pure fun _ h => by cases h; exact hd
  have hnone : Returns Anything (fun d?? : Option (Option Definition) => ∀ d? ∈ d??,
      ClosedDeclaration d?) (pure none) := returns_pure fun _ h => by cases h
  refine returns_ite (fun _ => hnone) fun _ => returns_bind fun _ =>
    returns_ite (fun _ => hsome rfl) fun _ => ?_
  exact returns_bind fun _ => returns_ite (fun _ => returns_bind fun _ => hsome rfl) fun _ => hnone

theorem returns_typedMember (l : Lead) :
    Returns Anything (fun d => d.openedModules = []) (typedMember l) := by
  refine returns_bind fun _ => returns_ite (fun _ => ?_) fun _ => ?_
  · exact returns_bind fun _ => returns_bind fun _ => returns_pure rfl
  refine returns_bind fun _ => returns_bind fun _ => returns_bind fun _ =>
    returns_ite (fun _ => ?_) fun _ => ?_
  · exact returns_bind fun _ => returns_bind fun _ => returns_bind fun _ => returns_pure rfl
  · exact returns_bind fun _ => returns_bind fun _ => returns_bind fun _ => returns_pure rfl

/-- No module is in a value type. -/
theorem returns_valueMember : Returns Anything ClosedDeclaration valueMember := by
  refine returns_recurse (J := fun _ => True) (fun member hmember _ _ => ?_) trivial
  refine returns_bind fun l => returns_bind fun _ => (returns_bare? l).bind fun d?? hd?? => ?_
  split
  next d? => exact returns_pure (hd?? d? rfl)
  refine (returns_constructed? typeSpec l.properties).bind fun r? hr? => ?_
  split
  next type d =>
    refine returns_bind fun _ => returns_ite (fun _ => returns_ended (hr? _ rfl)) fun _ => ?_
    exact returns_bind fun _ => returns_pure rfl
  refine (returns_declaration? (returns_valueTypeOf (hmember () trivial) l)).bind fun d? hd? => ?_
  split
  next d => exact returns_ended hd?
  refine returns_bind fun _ => returns_ite (fun _ => returns_bind fun _ => returns_ended rfl)
    fun _ => ?_
  exact (returns_typedMember l).bind fun _ hd => returns_pure hd

theorem returns_declarationOrType? (l : Lead) :
    Returns Anything ClosedDeclaration (declarationOrType? valueType l) := by
  refine (returns_constructed? typeSpec l.properties).bind fun r? hr => ?_
  cases r? with
  | none => exact returns_declaration? (returns_valueTypeOf returns_valueMember l)
  | some r => exact returns_pure (hr r rfl)

theorem returns_interfaceMember : Returns Anything ClosedDeclaration interfaceMember := by
  refine returns_bind fun l => returns_bind fun _ => (returns_bare? l).bind fun d?? hd?? => ?_
  split
  next d? => exact returns_pure (hd?? d? rfl)
  refine (returns_declarationOrType? l).bind fun d? hd? => ?_
  split
  next d => exact returns_ended hd?
  refine returns_bind fun _ => returns_ite (fun _ => returns_bind fun _ => returns_ended rfl)
    fun _ => ?_
  exact returns_bind fun _ => returns_ended rfl

/-- No module is in an interface. -/
theorem returns_interface (l : Lead) :
    Returns Anything (fun i => (Definition.interface i).openedModules = []) (interface l) := by
  refine returns_ite (fun _ => returns_of_fails (fails_fail _).bind) fun _ => ?_
  refine returns_bind fun _ => returns_bind fun name => returns_bind fun _ =>
    returns_bind fun _ => ?_
  refine returns_ite (fun _ => returns_pure rfl) fun _ => returns_bind fun _ => ?_
  refine returns_ite_bind (fun _ => returns_anything) (fun _ => returns_anything) fun _ _ =>
    returns_bind fun _ => ?_
  refine (returns_manyUntil returns_anything returns_interfaceMember).bind fun members hmembers =>
    returns_pure ?_
  refine openedModules_interface fun ds hds => ?_
  cases hds
  exact openedModulesOf_eq_nil hmembers

/-! ## Definitions -/

/-- What comes of a definition that is closed by its semicolon. -/
theorem leads_ended {d : Definition} (hd : d.openedModules = []) :
    Leads C (fun _ => true) openedModules? (ended d) :=
  (advances_expectPunct _ _).bind fun _ => leads_pure rfl hd

theorem leads_moduleOf {definition : Parser (Option Definition)}
    (h : Leads C (fun _ => false) openedModules? definition) :
    Leads C (fun _ => true) (fun m => (Definition.module m).openedModules)
      (moduleOf definition) := by
  rw [moduleOf_eq]
  intro s m u hrun
  obtain ⟨name, s₁, hhead, hrest⟩ := exists_of_run_bind hrun
  obtain ⟨_, s₂, hopen, hbody⟩ := exists_of_run_bind hrest
  obtain ⟨ds, s₃, hmany, hend⟩ := exists_of_run_bind hbody
  rw [run_pure] at hend
  cases hend
  have hnames := leads_manyUntil .closeBrace h s₂ ds u hmany
  dsimp only at hnames
  rw [flatMap_openedModules?] at hnames
  dsimp only
  rw [openedModules_module]
  exact C.trans (C.module hhead) (C.trans (advances_expectPunct _ _ s₁ _ s₂ hopen) hnames)

theorem leads_interfaceOrDeclaration (l : Lead) :
    Leads C (fun _ => true) openedModules? (interfaceOrDeclaration l) := by
  refine (goes_isNext _).bind fun _ => leads_ite (fun _ => ?_) fun _ => ?_
  · intro s d? u hrun
    obtain ⟨i, s₁, hi, hrest⟩ := exists_of_run_bind hrun
    have hclosed := (returns_interface l s i s₁ trivial hi).2
    exact C.trans ((advances_interface l).goes s i s₁ hi) (leads_ended hclosed s₁ d? u hrest)
  · intro s d? u hrun
    obtain ⟨m?, s₁, hm, hrest⟩ := exists_of_run_bind hrun
    have hclosed := (returns_declarationOrType? l s m? s₁ trivial hm).2
    cases m? with
    | none => exact absurd hrest (fails_unexpected _ _ _ _)
    | some m =>
      exact C.trans ((leads_declarationOrType? l (advances_valueType l)).goes s _ s₁ hm)
        (leads_ended hclosed s₁ d? u hrest)

theorem leads_afterLead {definition : Parser (Option Definition)}
    (h : Leads C (fun _ => false) openedModules? definition) (l : Lead) (t : Token) :
    Leads C (fun _ => true) openedModules? (afterLead definition l t) := by
  intro s d? u hrun
  obtain ⟨d??, s₁, hbare, hrest⟩ := exists_of_run_bind hrun
  have hread := leads_bare? (C := C) l s d?? s₁ hbare
  cases d?? with
  | some d? =>
    rw [run_pure] at hrest
    cases hrest
    have hclosed : openedModules? d? = [] := (returns_bare? l s _ _ trivial hbare).2 d? rfl
    rw [hclosed]
    exact hread
  | none =>
    refine C.trans hread
      (leads_ite (fun hempty => ?_) (fun _ => leads_interfaceOrDeclaration l) s₁ d? u hrest)
    split
    · exact (leads_moduleOf h).bind_closing (advances_expectPunct _ _).goes fun _ => rfl
    · exact advances_scopedName.bind fun _ => leads_pure rfl rfl
    · exact advances_scopedName.bind fun _ => leads_pure rfl rfl
    · exact leads_interfaceOrDeclaration l

theorem leads_definitionRound {definition : Unit → Parser (Option Definition)}
    (h : Leads C (fun _ => false) openedModules? (definition ())) (i : Unit) :
    Leads C (fun _ => true) openedModules? (definitionRound definition i) :=
  goes_lead.bind fun l => leads_peek_bind fun t => (leads_afterLead h l t).at

/-- **A definition opens the modules that it contains.** -/
theorem leads_definition : Leads C (fun _ => true) openedModules? definition :=
  leads_recurse (fun _ h i => leads_definitionRound (h ()).weaken i) ()

theorem leads_nextDefinition :
    Leads C Option.isSome (fun d?? => d??.elim [] openedModules?) nextDefinition := by
  refine leads_peek?_bind fun t? => ?_
  cases t? with
  | none => exact (leads_pure rfl rfl).at
  | some t => exact (leads_definition.bind_pure (f := some) (fun _ => rfl) fun _ => rfl).at

/-- **A specification opens the modules that it contains.** -/
theorem leads_specification :
    Leads C (fun _ => false) (fun spec => Definition.openedModulesOf spec.definitions)
      specification := by
  rw [specification]
  exact (leads_many rfl leads_nextDefinition.weaken).bind_pure (fun _ => rfl) fun ds =>
    (flatMap_openedModules? ds).symm

end Parser

end IdlFrontend
