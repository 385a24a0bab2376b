import IdlFrontend.Grammar.Member
import IdlFrontend.Proofs.Parser.Types

/-!
# The attributes and operations that are read

An operation is read in two places, with the type of its result read before or by it.
Both lead to `yields_operationOf`.

Results:

* `yields_attributes`, `yields_operation`: attributes and operations.
* `yields_parametersAfter`: parameters, and the parameter for variable arguments.
-/

namespace IdlFrontend.Parser

/-- No direction in front of a parameter is there twice, and each is one of the dialect. -/
structure ParameterLead.WellFormed (dialect : Dialect) (l : ParameterLead) : Prop where
  directions : l.directions.Nodup
  not_optional : dialect = .omg → .optional ∉ l.directions
  properties : Property.Distinct l.properties

variable {d : Dialect}

/-! ## Types of values that are passed -/

theorem yields_checkUsable (type : TypeSpec) :
    Yields d (fun _ => ¬type.IsSequence) (checkUsable type) := by
  cases type with
  | sequence => exact yields_fail _
  | basic | named | fixedPoint | string | struct | union | enum =>
    exact yields_pure fun h => h.elim

theorem yields_usableType :
    Yields d (fun t => t.WellFormed ∧ ¬t.IsSequence) usableType := by
  refine yields_kind?.bind fun kind? _ => ?_
  split
  · exact yields_unexpected _
  · exact yields_unexpected _
  · exact yields_unexpected _
  · refine yields_simpleType.bind fun type htype => (yields_checkUsable type).bind fun _ h => ?_
    exact yields_pure ⟨htype.1, h⟩

theorem yields_raisesList : Yields d (fun names => names ≠ []) raisesList := by
  refine (yields_expectPunct _ _).bind fun _ _ => yields_scopedNames.bind fun names h => ?_
  exact (yields_expectPunct _ _).bind fun _ _ => yields_pure h

/-! ## Attributes -/

theorem yields_isWord (word : Text) : Yields d (fun _ => True) (isWord word) :=
  yields_peek?.bind fun _ _ => yields_pure True.intro

theorem yields_attributeName : Yields d (fun _ => True) attributeName := by
  refine (yields_identifier _).bind fun name _ => ?_
  refine yields_recurse (J := fun _ => True) (fun more hmore a _ => ?_) True.intro
  refine (yields_isWord _).bind fun _ _ => (yields_isWord _).bind fun _ _ => ?_
  refine yields_ite (fun _ => ?_) fun _ => yields_pure True.intro
  refine yields_take.bind fun _ _ => (yields_expectKeyword _ _).bind fun _ _ => ?_
  refine yields_raisesList.bind fun _ _ => yields_ite (fun _ => ?_) fun _ => ?_
  · exact hmore _ True.intro
  · exact hmore _ True.intro

theorem yields_attributes {l : Lead} (hl : l.WellFormed) :
    Yields d Attribute.WellFormed (attributes l) := by
  refine (yields_expectKeyword _ _).bind fun _ _ => (yields_isNext _).bind fun _ _ => ?_
  refine yields_ite_bind (P := Property.Distinct) (fun _ => ?_) (fun _ => ?_)
    fun properties hproperties => ?_
  · exact yields_propertyList hl.properties
  · exact yields_pure hl.properties
  refine yields_usableType.bind fun type htype => (yields_acceptPunct _).bind fun _ _ => ?_
  refine (yields_commaList yields_attributeName).bind fun names hnames => yields_pure ?_
  exact ⟨htype.1, htype.2, hnames.1, hproperties⟩

/-! ## Parameters -/

theorem yields_addDirections {before : List Direction} (h : before.Nodup) (ds : List Direction) :
    Yields d (fun directions => directions.Nodup ∧ directions = before ++ ds)
      (addDirections before ds) := by
  induction ds generalizing before with
  | nil => exact yields_pure ⟨h, (List.append_nil _).symm⟩
  | cons direction ds ih =>
    refine yields_ite (fun _ => yields_fail _) fun hnew => ?_
    have hnodup : (before ++ [direction]).Nodup := by
      rw [← List.concat_eq_append]
      exact h.concat (by simpa using hnew)
    exact (ih hnodup).mono fun _ hds => ⟨hds.1, hds.2.trans (List.append_cons _ _ _).symm⟩

/-- The word for what can be left out is a keyword of one dialect only. -/
theorem optional_notMem_of_directions? {kind? : Option TokenKind} {ds : List Direction}
    (hin : ∀ k, kind? = some (.keyword k) → k.isIn .omg) (h : kind?.bind directions? = some ds) :
    .optional ∉ ds := by
  obtain ⟨kind, rfl, hds⟩ := Option.bind_eq_some_iff.1 h
  unfold directions? at hds
  split at hds <;> cases hds
  next => decide
  next => decide
  next => decide
  next => exact absurd (hin _ rfl) (by decide)

theorem yields_parameterLead : Yields d (ParameterLead.WellFormed d) parameterLead := by
  refine yields_recurse (J := ParameterLead.WellFormed d) (fun more hmore l hl => ?_)
    ⟨.nil, fun _ => List.not_mem_nil, Property.Distinct.nil⟩
  refine (yields_isNext _).bind fun _ _ => yields_ite (fun _ => ?_) fun _ => ?_
  · exact (yields_propertyList hl.properties).bind fun _ h =>
      hmore _ ⟨hl.directions, hl.not_optional, h⟩
  refine yields_kind?.bind fun kind? hkind => ?_
  split
  · exact yields_pure hl
  next ds hds =>
    refine (yields_addDirections hl.directions ds).bind fun directions hdirections => ?_
    refine yields_take.bind fun _ _ => hmore _ ⟨hdirections.1, fun homg => ?_, hl.properties⟩
    subst homg
    show Direction.optional ∉ directions
    rw [hdirections.2, List.mem_append, not_or]
    exact ⟨hl.not_optional rfl, optional_notMem_of_directions? hkind hds⟩

theorem yields_parameterType :
    Yields d (fun r => r.1.WellFormed ∧ ¬r.1.IsSequence) parameterType := by
  refine (yields_acceptKeyword _).bind fun _ _ => yields_ite (fun _ => ?_) fun _ => ?_
  · exact yields_pure ⟨.basic _, fun h => h.elim⟩
  · refine yields_usableType.bind fun type htype => (yields_acceptPunct _).bind fun _ _ => ?_
    exact yields_pure htype

/-- The parameter that stands for variable arguments is always made in the same way. -/
theorem wellFormed_variable {type : TypeSpec} {properties : List Property} (nullable : Bool)
    (htype : type.WellFormed) (hsequence : ¬type.IsSequence)
    (hproperties : Property.Distinct properties) :
    (Parameter.variable type nullable properties).WellFormed ∧
      (Parameter.variable type nullable properties).IsVariable :=
  ⟨⟨htype, hsequence, List.nodup_singleton _, nofun, hproperties⟩, rfl, rfl, rfl⟩

theorem yields_typedVarargs {l : ParameterLead} {type : TypeSpec} {nullable : Bool}
    (hl : l.WellFormed d) (htype : type.WellFormed) (hsequence : ¬type.IsSequence) :
    Yields d (fun p => p.WellFormed ∧ p.IsVariable) (typedVarargs l type nullable) := by
  refine yields_unless fun _ => (yields_identifier _).bind fun _ _ => yields_pure ?_
  exact wellFormed_variable nullable htype hsequence hl.properties

theorem yields_namedParameter {l : ParameterLead} {type : TypeSpec} {nullable : Bool}
    (hl : l.WellFormed d) (htype : type.WellFormed) (hsequence : ¬type.IsSequence) :
    Yields d (fun p => p.WellFormed ∧ p.IsNamed d) (namedParameter l type nullable) := by
  refine (yields_identifier _).bind fun name hname => (yields_acceptPunct _).bind fun _ _ => ?_
  refine yields_ite_bind (P := fun _ => True) (fun _ => ?_) (fun _ => ?_) fun value? _ => ?_
  · exact yields_constExpr.map fun _ _ => True.intro
  · exact yields_pure True.intro
  refine yields_get.bind fun s hs => yields_unless fun hdirected => yields_unless fun hdefault => ?_
  refine yields_pure ⟨⟨htype, hsequence, hl.directions, fun hvalue => ?_, hl.properties⟩, ?_⟩
  · simpa [hvalue] using hdefault
  refine ⟨?_, fun homg => ?_, hl.not_optional⟩
  · obtain ⟨c, cs, rfl, hc⟩ := hname
    rintro ⟨rfl, -⟩
    exact absurd hc (by decide)
  · rw [hs.dialect_eq, homg] at hdirected
    by_contra hnone
    rw [not_or] at hnone
    exact hdirected (by simp [hnone.1, hnone.2])

theorem yields_acceptVarargs : Yields d (fun _ => True) acceptVarargs :=
  (yields_acceptPunct _).bind fun _ _ =>
    yields_ite (fun _ => yields_pure True.intro) fun _ => yields_acceptKeyword _

/-- What holds of the parameters and the variable arguments of an operation. -/
def ParametersWellFormed (dialect : Dialect) (r : List Parameter × Option Parameter) : Prop :=
  (∀ p ∈ r.1, p.WellFormed ∧ p.IsNamed dialect) ∧ ∀ p ∈ r.2, p.WellFormed ∧ p.IsVariable

theorem yields_parametersAfter {before : List Parameter}
    (h : ∀ p ∈ before, p.WellFormed ∧ p.IsNamed d) :
    Yields d (ParametersWellFormed d) (parametersAfter before) := by
  refine yields_recurse (J := fun before => ∀ p ∈ before, Parameter.WellFormed p ∧ p.IsNamed d)
    (fun more hmore before hbefore => ?_) h
  refine yields_acceptVarargs.bind fun _ _ => yields_ite (fun _ => ?_) fun _ => ?_
  · refine (yields_expectPunct _ _).bind fun _ _ => yields_pure ⟨hbefore, fun p hp => ?_⟩
    cases hp
    exact wellFormed_variable false (.basic .any) (fun h => h.elim) Property.Distinct.nil
  refine yields_parameterLead.bind fun l hl => yields_parameterType.bind fun r hr => ?_
  refine (yields_acceptPunct _).bind fun _ _ => yields_ite (fun _ => ?_) fun _ => ?_
  · refine (yields_typedVarargs hl hr.1 hr.2).bind fun varargs hvarargs => ?_
    refine yields_unless fun _ => (yields_expectPunct _ _).bind fun _ _ => ?_
    refine yields_pure ⟨hbefore, fun p hp => ?_⟩
    cases hp
    exact hvarargs
  · refine (yields_namedParameter hl hr.1 hr.2).bind fun p hp => ?_
    have hparameters : ∀ q ∈ before ++ [p], q.WellFormed ∧ q.IsNamed d :=
      List.forall_mem_append.2 ⟨hbefore, List.forall_mem_singleton.2 hp⟩
    refine (yields_acceptPunct _).bind fun _ _ => yields_ite (fun _ => ?_) fun _ => ?_
    · exact hmore _ hparameters
    · refine (yields_expectPunct _ _).bind fun _ _ => yields_pure ⟨hparameters, ?_⟩
      exact fun _ h => by cases h

theorem yields_parameters : Yields d (ParametersWellFormed d) parameters := by
  have hnone : ∀ p ∈ ([] : List Parameter), p.WellFormed ∧ p.IsNamed d := List.forall_mem_nil _
  refine (yields_expectPunct _ _).bind fun _ _ => (yields_acceptPunct _).bind fun _ _ => ?_
  refine yields_ite (fun _ => yields_pure ⟨hnone, ?_⟩) fun _ => yields_parametersAfter hnone
  exact fun _ h => by cases h

/-! ## Operations -/

theorem yields_contextItem : Yields d (fun _ => True) contextItem :=
  (yields_expect _ _).bind fun _ _ => yields_adjacentStrings.bind fun _ _ => yields_pure True.intro

theorem yields_contextList : Yields d (fun items => items ≠ []) contextList := by
  refine (yields_expectPunct _ _).bind fun _ _ => ?_
  refine (yields_commaList yields_contextItem).bind fun items hitems => ?_
  exact (yields_expectPunct _ _).bind fun _ _ => yields_pure hitems.1

theorem yields_operationOf {l : Lead} {returnType : TypeSpec} {name : Text} (hl : l.WellFormed)
    (htype : returnType.WellFormed) (hsequence : ¬returnType.IsSequence) :
    Yields d (Operation.WellFormed d) (operationOf l returnType name) := by
  refine yields_parameters.bind fun parameters hparameters => ?_
  refine (yields_acceptKeyword _).bind fun _ _ => ?_
  refine yields_ite_bind (P := fun _ => True) (fun _ => ?_) (fun _ => ?_) fun raises _ => ?_
  · exact yields_raisesList.map fun _ _ => True.intro
  · exact yields_pure True.intro
  refine (yields_acceptKeyword _).bind fun _ _ => ?_
  refine yields_ite_bind (P := fun _ => True) (fun _ => ?_) (fun _ => ?_) fun context _ => ?_
  · exact yields_contextList.map fun _ _ => True.intro
  · exact yields_pure True.intro
  exact yields_pure ⟨htype, hsequence, hparameters.1, hparameters.2, hl.modifiers, hl.properties⟩

theorem yields_operation {l : Lead} (hl : l.WellFormed) :
    Yields d (Operation.WellFormed d) (operation l) := by
  refine (yields_acceptKeyword _).bind fun _ _ => ?_
  refine yields_ite_bind (P := fun t => t.WellFormed ∧ ¬t.IsSequence) (fun _ => ?_) (fun _ => ?_)
    fun returnType htype => (yields_identifier _).bind fun _ _ => ?_
  · exact yields_pure ⟨.basic _, fun h => h.elim⟩
  · exact yields_usableType
  · exact yields_operationOf hl htype.1 htype.2

end IdlFrontend.Parser
