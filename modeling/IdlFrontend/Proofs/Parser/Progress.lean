import IdlFrontend.Proofs.Parser.Course
import IdlFrontend.Proofs.Parser.Productions

/-!
# The course of every production

One lemma for each production, from names up to interfaces: it reads something, or it may read
nothing, or its result tells which. None of them opens a module.

Results:

* `advances_constExpr`, `advances_typeSpec`, `advances_interface`: productions that read
  something whenever they succeed.
* `leads_bare?`, `leads_declarationOrType?`: productions that read something if they return
  something.
-/

namespace IdlFrontend.Parser

variable {C : Course} {α : Type}

/-! ## Names and constant expressions -/

theorem leads_nextSegment : Leads C Option.isSome (fun _ => []) nextSegment :=
  (leads_acceptPunct _).bind_ite ((advances_identifier _).bind fun _ => goes_pure _)
    (leads_pure rfl rfl)

theorem advances_scopedName : Advances C scopedName :=
  (leads_acceptPunct _).goes.bind fun _ => (advances_identifier _).bind fun _ =>
    leads_nextSegment.goes.many.bind fun _ => goes_pure _

theorem advances_scopedNames : Advances C scopedNames := advances_scopedName.commaList

theorem leads_operator? (ops : List BinaryOp) :
    Leads C Option.isSome (fun _ => []) (operator? ops) := by
  refine leads_kind?_bind fun t? => ?_
  cases hop : ops.find? fun op => t?.map Token.kind == some (.punct op.punct) with
  | none => exact (leads_pure rfl rfl).at
  | some op =>
    refine leadsAt_get_bind fun s => leadsAt_ite (fun _ => (leads_pure rfl rfl).at) fun _ => ?_
    have hfound := List.find?_some hop
    have hkind := beq_iff_eq.1 hfound
    obtain ⟨t, rfl, ht⟩ := Option.map_eq_some_iff.1 hkind
    exact leadsAt_take_bind (by simp [ht]) (goes_pure _)

theorem leads_nextOperand {tight : Parser ConstExpr} (h : Goes C tight) (ops : List BinaryOp) :
    Leads C Option.isSome (fun _ => []) (nextOperand tight ops) :=
  (leads_operator? ops).bind_option (fun _ => h.bind fun _ => goes_pure _) (leads_pure rfl rfl)

theorem advances_leftGrouped {operand : Parser ConstExpr} (h : Advances C operand)
    (levels : List (List BinaryOp)) : Advances C (leftGrouped operand levels) := by
  induction levels with
  | nil => exact h
  | cons ops tighter ih =>
    exact ih.bind fun first => (leads_nextOperand ih.goes ops).goes.many.bind fun _ => goes_pure _

theorem leads_nextString : Leads C Option.isSome (fun _ => []) nextString :=
  leads_isNext_take (by simp) (fun t => goes_pure (some t)) (leads_pure rfl rfl)

theorem advances_strings : Advances C strings :=
  (advances_expect (by simp) _).bind fun _ => leads_nextString.goes.many.bind fun _ => goes_pure _

theorem literal?_of_module {t : Token} (ht : t.kind = .keyword .module) : literal? t = none := by
  rw [literal?, ht]

theorem advances_primary {expr : Parser ConstExpr} (h : Goes C expr) :
    Advances C (primary expr) := by
  refine leads_peek_bind fun t => ?_
  split
  · exact (advances_scopedName.bind fun _ => goes_pure _).at
  · exact (advances_scopedName.bind fun _ => goes_pure _).at
  next ht =>
    refine leadsAt_take_bind (by simp [ht]) (h.shielded.bind fun _ => ?_)
    exact (advances_expectPunct _ _).bind fun _ => goes_pure _
  · exact advances_strings.at
  · cases hliteral : literal? t with
    | none => exact (leads_of_fails (fails_unexpected _)).at
    | some literal =>
      refine leadsAt_take_bind (fun ht => ?_) (goes_pure _)
      cases hliteral.symm.trans (literal?_of_module ht)

theorem advances_unary {expr : Parser ConstExpr} (h : Goes C expr) : Advances C (unary expr) := by
  refine leads_kind?_bind fun t? => ?_
  cases hop : (t?.map Token.kind).bind unaryOp? with
  | none => exact (advances_primary h).at
  | some op =>
    obtain ⟨kind, hkind, hunary⟩ := Option.bind_eq_some_iff.1 hop
    obtain ⟨t, rfl, rfl⟩ := Option.map_eq_some_iff.1 hkind
    refine leadsAt_take_bind (fun ht => ?_) ((advances_primary h).goes.bind fun _ => goes_pure _)
    rw [ht] at hunary
    cases hunary

theorem advances_expressionRound {expr : Unit → Parser ConstExpr} (h : Goes C (expr ()))
    (i : Unit) :
    Advances C (expressionRound expr i) :=
  advances_leftGrouped (advances_unary h) _

theorem advances_constExpr : Advances C constExpr :=
  leads_recurse (fun _ hexpr i => advances_expressionRound (hexpr ()).goes i) ()

/-! ## Properties and modifiers -/

theorem goes_propertyValue? : Goes C propertyValue? := by
  refine leads_isNext_take (by simp) (fun t => goes_pure _) ?_
  refine (leads_acceptPunct _).bind_ite (leads_take_bind (fun t => ?_) fun t ht => ?_)
    (goes_pure none)
  · refine leads_ite (fun _ => leads_isNext_take (by simp) (fun _ => goes_pure _) (goes_pure _))
      fun _ => ?_
    cases literal? t with
    | some literal => exact goes_pure _
    | none => exact leads_of_fails (fails_fail _).bind
  · rw [if_neg (by simp [ht]), literal?_of_module ht]
    exact (fails_fail _).bind

theorem goes_propertyRound {more : List Property → Parser (List Property)}
    (hmore : ∀ ps, Goes C (more ps)) (before : List Property) :
    Goes C (propertyRound more before) := by
  refine (leads_acceptPunct _).bind_ite (goes_pure before) ?_
  refine (advances_identifier _).bind fun key => goes_propertyValue?.bind fun value =>
    leads_unless ?_
  refine (leads_acceptPunct _).bind_ite (hmore _) ?_
  exact (advances_expectPunct _ _).bind fun _ => goes_pure _

theorem goes_propertiesAfter (before : List Property) : Goes C (propertiesAfter before) :=
  leads_recurse (fun _ => goes_propertyRound) before

theorem advances_propertyList (before : List Property) : Advances C (propertyList before) :=
  advances_openBracket (goes_propertiesAfter before)

theorem goes_leadRound {more : Lead → Parser Lead} (hmore : ∀ l, Goes C (more l)) (l : Lead) :
    Goes C (leadRound more l) := by
  refine (goes_isNext _).bind fun _ => leads_ite (fun _ => ?_) fun _ => ?_
  · exact (advances_propertyList _).bind fun _ => hmore _
  refine leads_kind?_bind fun t? => ?_
  cases hmodifier : (t?.map Token.kind).bind modifier? with
  | none => exact (goes_pure l).at
  | some m =>
    obtain ⟨kind, hkind, hm⟩ := Option.bind_eq_some_iff.1 hmodifier
    obtain ⟨t, rfl, rfl⟩ := Option.map_eq_some_iff.1 hkind
    refine leadsAt_ite (fun _ => (leads_of_fails (fails_fail _).bind).at) fun _ => ?_
    refine leadsAt_take_bind (fun ht => ?_) (hmore _)
    rw [ht] at hm
    cases hm

theorem goes_lead : Goes C lead := leads_recurse (fun _ => goes_leadRound) {}

/-! ## Declarators -/

theorem leads_nextDimension : Leads C Option.isSome (fun _ => []) nextDimension := by
  refine (leads_acceptPunct _).bind_ite ?_ (leads_pure rfl rfl)
  refine (leads_acceptPunct _).bind_ite (goes_pure _) (advances_constExpr.bind fun _ => ?_)
  exact (advances_expectPunct _ _).bind fun _ => goes_pure _

theorem goes_dimensions : Goes C dimensions := leads_nextDimension.goes.many

theorem advances_declarator : Advances C declarator :=
  (advances_identifier _).bind fun _ => goes_dimensions.bind fun _ => goes_pure _

theorem advances_declarators : Advances C declarators := advances_declarator.commaList

/-! ## Simple types -/

theorem goes_longType : Goes C longType :=
  (leads_acceptKeyword (by decide)).bind_ite (goes_pure _)
    ((leads_acceptKeyword (by decide)).bind_ite (goes_pure _) (goes_pure _))

theorem goes_unsignedType : Goes C unsignedType := by
  refine (leads_acceptKeyword (by decide)).bind_ite (goes_pure _) ?_
  refine (leads_acceptKeyword (by decide)).bind_ite ?_ (leads_of_fails (fails_unexpected _))
  exact (leads_acceptKeyword (by decide)).bind_ite (goes_pure _) (goes_pure _)

theorem advances_sequenceType {simple : Parser TypeSpec} (h : Goes C simple) :
    Advances C (sequenceType simple) := by
  refine (advances_expectPunct _ _).bind fun _ => goes_enterAngle.bind fun _ =>
    h.bind fun element => ?_
  refine (leads_acceptPunct _).goes.bind fun _ => ?_
  refine leads_ite_bind (fun _ => advances_constExpr.goes.map) (fun _ => goes_pure none)
    fun bound => ?_
  exact (advances_closeAngle _).bind fun _ => goes_pure _

theorem goes_stringType (wide : Bool) : Goes C (stringType wide) := by
  refine (leads_acceptPunct _).bind_ite (goes_enterAngle.bind fun _ => ?_) (goes_pure _)
  exact advances_constExpr.bind fun _ => (advances_closeAngle _).bind fun _ => goes_pure _

theorem advances_fixedType : Advances C fixedType := by
  refine (advances_expectPunct _ _).bind fun _ => goes_enterAngle.bind fun _ => ?_
  refine advances_constExpr.bind fun _ => (advances_expectPunct _ _).bind fun _ => ?_
  refine (advances_expect (by simp) _).bind fun _ => ?_
  exact (advances_closeAngle _).bind fun _ => goes_pure _

theorem advances_simpleRound {simple : Unit → Parser TypeSpec} (h : Goes C (simple ())) (i : Unit) :
    Advances C (simpleRound simple i) := by
  refine leads_peek_bind fun t => ?_
  split
  · exact (advances_scopedName.bind fun _ => goes_pure _).at
  · exact (advances_scopedName.bind fun _ => goes_pure _).at
  next ht => exact leadsAt_take_bind (by simp [ht]) (goes_longType.bind fun _ => goes_pure _)
  next ht => exact leadsAt_take_bind (by simp [ht]) (goes_unsignedType.bind fun _ => goes_pure _)
  next ht => exact leadsAt_take_bind (by simp [ht]) (advances_sequenceType h).goes
  next ht => exact leadsAt_take_bind (by simp [ht]) (goes_stringType false)
  next ht => exact leadsAt_take_bind (by simp [ht]) (goes_stringType true)
  next ht => exact leadsAt_take_bind (by simp [ht]) advances_fixedType.goes
  · cases htype : basicType? t.kind with
    | none => exact (leads_of_fails (fails_unexpected _)).at
    | some type =>
      refine leadsAt_take_bind (fun ht => ?_) (goes_pure _)
      rw [ht] at htype
      cases htype

theorem advances_simpleType : Advances C simpleType :=
  leads_recurse (fun _ hsimple i => advances_simpleRound (hsimple ()).goes i) ()

/-! ## Constructed types -/

theorem advances_enumType (properties : List Property) : Advances C (enumType properties) := by
  refine (advances_expectKeyword (by decide) _).bind fun _ => goes_identifier?.bind fun _ => ?_
  refine (advances_expectPunct _ _).bind fun _ => (advances_identifier _).bind fun _ => ?_
  refine (advances_identifier _).goes.commaMore.bind fun _ => ?_
  exact (advances_expectPunct _ _).bind fun _ => goes_pure _

theorem advances_fieldOf (type : TypeSpec) (properties : List Property) :
    Advances C (fieldOf type properties) :=
  advances_declarators.bind fun _ => (advances_expectPunct _ _).bind fun _ => goes_pure _

section Types

variable {type : Parser TypeSpec} (htype : Goes C type)

include htype

theorem advances_field : Advances C (field type) :=
  goes_lead.bind fun l => htype.bind fun _ => advances_fieldOf _ l.properties

theorem goes_fields : Goes C (fields type) := Goes.manyUntil _ (advances_field htype).goes

theorem advances_structType (properties : List Property) :
    Advances C (structType type properties) := by
  refine (advances_expectKeyword (by decide) _).bind fun _ => goes_identifier?.bind fun _ => ?_
  exact (advances_expectPunct _ _).bind fun _ => (goes_fields htype).bind fun _ => goes_pure _

omit htype in
theorem advances_selector : Advances C selector := by
  refine (goes_isNext _).bind fun _ => leads_ite (fun _ => ?_) fun _ => ?_
  · exact (advances_enumType []).bind fun _ => goes_pure _
  · exact advances_simpleType.bind fun _ => leads_ite (fun _ => goes_pure _) fun _ =>
      leads_of_fails (fails_fail _)

omit htype in
theorem leads_nextLabel : Leads C Option.isSome (fun _ => []) nextLabel := by
  refine (leads_acceptKeyword (by decide)).bind_ite (advances_constExpr.bind fun _ => ?_) ?_
  · exact (advances_expectPunct _ _).bind fun _ => goes_pure _
  · refine (leads_acceptKeyword (by decide)).bind_ite ?_ (leads_pure rfl rfl)
    exact (advances_expectPunct _ _).bind fun _ => goes_pure _

omit htype in
theorem goes_caseLabels : Goes C caseLabels :=
  leads_nextLabel.goes.many.bind fun labels => leads_ite
    (fun _ => leads_of_fails (fails_unexpected _))
    fun _ => goes_pure labels

theorem advances_unionCase : Advances C (unionCase type) :=
  goes_caseLabels.bind fun _ => htype.bind fun _ => advances_declarator.bind fun _ =>
    (advances_expectPunct _ _).bind fun _ => goes_pure _

theorem advances_unionType (properties : List Property) :
    Advances C (unionType type properties) := by
  refine (advances_expectKeyword (by decide) _).bind fun _ => goes_identifier?.bind fun _ => ?_
  refine (advances_expectKeyword (by decide) _).bind fun _ =>
    (advances_expectPunct _ _).bind fun _ => ?_
  refine advances_selector.bind fun _ => (advances_expectPunct _ _).bind fun _ => ?_
  refine (advances_expectPunct _ _).bind fun _ => (advances_unionCase htype).bind fun _ => ?_
  exact (Goes.manyUntil _ (advances_unionCase htype).goes).bind fun _ => goes_pure _

theorem leads_constructed? (properties : List Property) :
    Leads C Option.isSome (fun _ => []) (constructed? type properties) := by
  refine goes_kind?.bind fun kind? => ?_
  split
  · exact (advances_structType htype properties).bind fun _ => goes_pure _
  · exact (advances_unionType htype properties).bind fun _ => goes_pure _
  · exact (advances_enumType properties).bind fun _ => goes_pure _
  · exact leads_pure rfl rfl

end Types

theorem advances_typeRound {type : Unit → Parser TypeSpec} (h : Goes C (type ())) (i : Unit) :
    Advances C (typeRound type i) :=
  (leads_constructed? h []).bind_option (fun _ => goes_pure _) advances_simpleType

theorem advances_typeSpec : Advances C typeSpec :=
  leads_recurse (fun _ htype i => advances_typeRound (htype ()).goes i) ()

/-! ## Attributes and operations -/

theorem goes_checkUsable (type : TypeSpec) : Goes C (checkUsable type) := by
  cases type with
  | sequence => exact leads_of_fails (fails_fail _)
  | basic | named | fixedPoint | string | struct | union | enum => exact goes_pure ()

theorem advances_usableType : Advances C usableType := by
  refine goes_kind?.bind fun kind? => ?_
  split
  · exact leads_of_fails (fails_unexpected _)
  · exact leads_of_fails (fails_unexpected _)
  · exact leads_of_fails (fails_unexpected _)
  · exact advances_simpleType.bind fun type => (goes_checkUsable type).bind fun _ => goes_pure type

theorem advances_raisesList : Advances C raisesList :=
  (advances_expectPunct _ _).bind fun _ => advances_scopedNames.bind fun names =>
    (advances_expectPunct _ _).bind fun _ => goes_pure names

theorem goes_clauseRound {more : AttributeName → Parser AttributeName}
    (hmore : ∀ a, Goes C (more a)) (a : AttributeName) : Goes C (clauseRound more a) := by
  have hclause (t : Token) (ht : t.kind = .identifier) (getter : Bool) : LeadsAt C (some t)
      (fun _ => false) (fun _ => []) (do
        let _ ← take
        expectKeyword .raises "after 'getter' or 'setter'"
        let names ← raisesList
        if getter then more { a with getterRaises := a.getterRaises ++ names }
        else more { a with setterRaises := a.setterRaises ++ names }) := by
    refine leadsAt_take_bind (by simp [ht])
      ((advances_expectKeyword (by decide) _).bind fun _ => ?_)
    exact advances_raisesList.bind fun names => leads_ite (fun _ => hmore _) fun _ => hmore _
  unfold clauseRound isWord
  rw [bind_assoc]
  refine leads_peek?_bind fun t? => ?_
  rw [pure_bind, bind_assoc]
  refine leadsAt_peek?_bind (fun t ht => ?_) fun hnone u? => ?_
  · subst ht
    rw [pure_bind]
    refine leadsAt_ite (fun hword => hclause t ?_ _) fun _ => (goes_pure a).at
    grind
  · subst hnone
    rw [pure_bind]
    refine leadsAt_ite (fun hword => ?_) fun _ => (goes_pure a).at
    cases u? with
    | none => cases hword
    | some t => exact hclause t (by grind) false

theorem advances_attributeName : Advances C attributeName :=
  (advances_identifier _).bind fun name => leads_recurse (fun _ => goes_clauseRound) ⟨name, [], []⟩

theorem advances_attributes (l : Lead) : Advances C (attributes l) := by
  refine (advances_expectKeyword (by decide) _).bind fun _ => (goes_isNext _).bind fun _ => ?_
  refine leads_ite_bind (fun _ => (advances_propertyList _).goes) (fun _ => goes_pure _)
    fun properties => ?_
  refine advances_usableType.bind fun type => (leads_acceptPunct _).goes.bind fun _ => ?_
  exact advances_attributeName.commaList.bind fun _ => goes_pure _

theorem run_addDirections {before ds directions : List Direction} {s u : TokenStream}
    (h : run (addDirections before ds) s = (.ok directions, u)) : u = s := by
  induction ds generalizing before with
  | nil =>
    rw [addDirections, run_pure] at h
    cases h
    rfl
  | cons d ds ih =>
    rw [addDirections] at h
    split at h
    · exact absurd h (fails_fail _ _ _ _)
    · exact ih h

theorem goes_parameterLeadRound {more : ParameterLead → Parser ParameterLead}
    (hmore : ∀ l, Goes C (more l)) (l : ParameterLead) : Goes C (parameterLeadRound more l) := by
  refine (goes_isNext _).bind fun _ => leads_ite (fun _ => ?_) fun _ => ?_
  · exact (advances_propertyList _).bind fun _ => hmore _
  refine leads_kind?_bind fun t? => ?_
  cases hdirections : (t?.map Token.kind).bind directions? with
  | none => exact (goes_pure l).at
  | some ds =>
    obtain ⟨kind, hkind, hds⟩ := Option.bind_eq_some_iff.1 hdirections
    obtain ⟨t, rfl, rfl⟩ := Option.map_eq_some_iff.1 hkind
    refine leadsAt_bind (fun _ _ _ => run_addDirections) fun _ =>
      leadsAt_take_bind (fun ht => ?_) (hmore _)
    rw [ht] at hds
    cases hds

theorem goes_parameterLead : Goes C parameterLead :=
  leads_recurse (fun _ => goes_parameterLeadRound) {}

theorem advances_parameterType : Advances C parameterType :=
  (leads_acceptKeyword (by decide)).bind_ite (goes_pure _)
    (advances_usableType.bind fun _ => (leads_acceptPunct _).goes.bind fun _ => goes_pure _)

theorem advances_typedVarargs (l : ParameterLead) (type : TypeSpec) (nullable : Bool) :
    Advances C (typedVarargs l type nullable) := by
  unfold typedVarargs
  exact leads_unless ((advances_identifier _).bind fun _ => goes_pure _)

theorem advances_namedParameter (l : ParameterLead) (type : TypeSpec) (nullable : Bool) :
    Advances C (namedParameter l type nullable) := by
  refine (advances_identifier _).bind fun name => (leads_acceptPunct _).goes.bind fun _ => ?_
  refine leads_ite_bind (fun _ => advances_constExpr.goes.map) (fun _ => goes_pure none)
    fun value? => ?_
  exact leads_get_bind fun s => leads_unless (leads_unless (goes_pure _))

theorem leads_acceptVarargs : Leads C id (fun _ => []) acceptVarargs :=
  (leads_acceptPunct _).bind_ite (goes_pure true) (leads_acceptKeyword (by decide))

theorem goes_parameterRound {more : List Parameter → Parser (List Parameter × Option Parameter)}
    (hmore : ∀ ps, Goes C (more ps)) (before : List Parameter) :
    Goes C (parameterRound more before) := by
  refine leads_acceptVarargs.bind_ite ((advances_expectPunct _ _).bind fun _ => goes_pure _) ?_
  refine goes_parameterLead.bind fun l => advances_parameterType.bind fun r => ?_
  refine (leads_acceptPunct _).bind_ite ?_ ?_
  · refine (advances_typedVarargs l r.1 r.2).bind fun varargs => leads_unless ?_
    exact (advances_expectPunct _ _).bind fun _ => goes_pure _
  · refine (advances_namedParameter l r.1 r.2).bind fun p => ?_
    refine (leads_acceptPunct _).bind_ite (hmore _) ?_
    exact (advances_expectPunct _ _).bind fun _ => goes_pure _

theorem goes_parametersAfter (before : List Parameter) : Goes C (parametersAfter before) :=
  leads_recurse (fun _ => goes_parameterRound) before

theorem advances_parameters : Advances C parameters :=
  (advances_expectPunct _ _).bind fun _ => (leads_acceptPunct _).bind_ite (goes_pure _)
    (goes_parametersAfter [])

theorem advances_contextItem : Advances C contextItem :=
  (advances_expect (by simp) _).bind fun _ => leads_nextString.goes.many.bind fun _ => goes_pure _

theorem advances_contextList : Advances C contextList :=
  (advances_expectPunct _ _).bind fun _ => advances_contextItem.commaList.bind fun items =>
    (advances_expectPunct _ _).bind fun _ => goes_pure items

theorem advances_operationOf (l : Lead) (returnType : TypeSpec) (name : Text) :
    Advances C (operationOf l returnType name) := by
  refine advances_parameters.bind fun r => (leads_acceptKeyword (by decide)).goes.bind fun _ => ?_
  refine leads_ite_bind (fun _ => advances_raisesList.goes.map) (fun _ => goes_pure none)
    fun raises => ?_
  refine (leads_acceptKeyword (by decide)).goes.bind fun _ => ?_
  exact leads_ite_bind (fun _ => advances_contextList.goes.map) (fun _ => goes_pure none)
    fun context => goes_pure _

theorem advances_operation (l : Lead) : Advances C (operation l) := by
  refine (leads_acceptKeyword (by decide)).goes.bind fun _ => ?_
  exact leads_ite_bind (fun _ => goes_pure _) (fun _ => advances_usableType.goes) fun type =>
    (advances_identifier _).bind fun name => (advances_operationOf l type name).goes

/-! ## Declarations -/

theorem advances_typeDef (l : Lead) : Advances C (typeDef l) :=
  (advances_expectKeyword (by decide) _).bind fun _ => advances_typeSpec.bind fun _ =>
    advances_declarators.bind fun _ => goes_pure _

theorem advances_native (l : Lead) : Advances C (native l) := by
  refine (advances_expectKeyword (by decide) _).bind fun _ =>
    (advances_identifier _).bind fun _ => ?_
  refine (leads_acceptPunct _).bind_ite ?_ (goes_pure _)
  refine (advances_expect (by simp) _).bind fun _ => ?_
  exact (advances_expectPunct _ _).bind fun _ => goes_pure _

theorem advances_exceptionType (l : Lead) : Advances C (exceptionType l) :=
  (advances_expectKeyword (by decide) _).bind fun _ => (advances_identifier _).bind fun _ =>
    (advances_expectPunct _ _).bind fun _ => (goes_fields advances_typeSpec.goes).bind fun _ =>
      goes_pure _

theorem advances_constantType : Advances C constantType := by
  refine (leads_acceptKeyword (by decide)).bind_ite ((goes_isNext _).bind fun _ => ?_) ?_
  · exact leads_unless (goes_pure _)
  · exact advances_simpleType.bind fun _ => leads_ite (fun _ => goes_pure _) fun _ =>
      leads_of_fails (fails_fail _)

theorem advances_constant (l : Lead) : Advances C (constant l) :=
  (advances_expectKeyword (by decide) _).bind fun _ => advances_constantType.bind fun _ =>
    (advances_identifier _).bind fun _ => (advances_expectPunct _ _).bind fun _ =>
      advances_constExpr.bind fun _ => goes_pure _

/-! ## Value types -/

theorem advances_valueTypeOf {member : Parser (Option Definition)} (h : Goes C member) (l : Lead) :
    Advances C (valueTypeOf member l) := by
  refine (advances_expectKeyword (by decide) _).bind fun _ => goes_identifier?.bind fun name => ?_
  have hrest (base : Option TypeSpec) : Goes C
      (do if ← acceptPunct .openBrace then
            let members ← manyUntil .closeBrace member
            return (⟨name, l.properties, base, some (members.filterMap id)⟩ : ValueType)
          else return ⟨name, l.properties, base, none⟩) :=
    (leads_acceptPunct _).bind_ite ((h.manyUntil _).bind fun _ => goes_pure _) (goes_pure _)
  refine (leads_acceptPunct _).goes.bind fun _ => goes_kind?.bind fun _ => ?_
  refine leads_ite (fun _ => advances_typeSpec.goes.map.bind hrest) fun _ => ?_
  exact leads_ite_bind (fun _ => advances_typeSpec.goes.map) (fun _ => goes_pure none) hrest

theorem leads_declaration? {valueType : Lead → Parser ValueType} (l : Lead)
    (h : Advances C (valueType l)) :
    Leads C Option.isSome (fun _ => []) (declaration? valueType l) := by
  refine goes_kind?.bind fun kind? => ?_
  split
  · exact (advances_typeDef l).bind fun _ => goes_pure _
  · exact (advances_native l).bind fun _ => goes_pure _
  · exact h.bind fun _ => goes_pure _
  · exact (advances_exceptionType l).bind fun _ => goes_pure _
  · exact (advances_constant l).bind fun _ => goes_pure _
  · exact leads_pure rfl rfl

theorem leads_declarationOrType? {valueType : Lead → Parser ValueType} (l : Lead)
    (h : Advances C (valueType l)) :
    Leads C Option.isSome (fun _ => []) (declarationOrType? valueType l) :=
  (leads_constructed? advances_typeSpec.goes l.properties).bind_option (fun _ => goes_pure _)
    (leads_declaration? l h)

theorem leads_bare? (l : Lead) : Leads C Option.isSome (fun _ => []) (bare? l) := by
  refine leads_ite (fun _ => leads_pure rfl rfl) fun _ => ?_
  refine (leads_acceptPunct _).bind_ite (goes_pure _) ?_
  exact leads_isNext_take (by simp) (fun _ => goes_pure _) (leads_pure rfl rfl)

theorem advances_ended (d : Definition) : Advances C (ended d) :=
  (advances_expectPunct _ _).bind fun _ => goes_pure _

theorem advances_typedMember (l : Lead) : Advances C (typedMember l) := by
  refine (goes_isNext _).bind fun _ => leads_ite (fun _ => ?_) fun _ => ?_
  · exact (advances_operation l).bind fun _ => (advances_expectPunct _ _).bind fun _ => goes_pure _
  refine advances_typeSpec.bind fun type => (advances_identifier _).bind fun name => ?_
  refine (goes_isNext _).bind fun _ => leads_ite (fun _ => ?_) fun _ => ?_
  · refine (goes_checkUsable type).bind fun _ => (advances_operationOf l type name).bind fun _ => ?_
    exact (advances_expectPunct _ _).bind fun _ => goes_pure _
  · refine goes_dimensions.bind fun _ => advances_declarator.goes.commaMore.bind fun _ => ?_
    exact (advances_expectPunct _ _).bind fun _ => goes_pure _

theorem advances_valueMemberRound {member : Unit → Parser (Option Definition)}
    (h : Goes C (member ())) (i : Unit) : Advances C (valueMemberRound member i) := by
  refine goes_lead.bind fun l => leads_peek_bind fun _ => ?_
  refine Leads.at (Leads.bind_option (leads_bare? l) (fun d? => ?_) ?_)
  · exact goes_pure d?
  refine (leads_constructed? advances_typeSpec.goes l.properties).bind_option (fun r => ?_) ?_
  · refine (goes_isNext _).bind fun _ => leads_ite (fun _ => ?_) fun _ => ?_
    · exact (advances_ended _).goes
    · exact (advances_fieldOf _ []).bind fun _ => goes_pure _
  refine (leads_declaration? l (advances_valueTypeOf h l)).bind_option
    (fun d => (advances_ended d).goes) ?_
  refine (goes_isNext _).bind fun _ => leads_ite (fun _ => ?_) fun _ => ?_
  · exact (advances_attributes l).bind fun _ => (advances_ended _).goes
  · exact (advances_typedMember l).bind fun _ => goes_pure _

theorem advances_valueMember : Advances C valueMember :=
  leads_recurse (fun _ hmember i => advances_valueMemberRound (hmember ()).goes i) ()

theorem advances_valueType (l : Lead) : Advances C (valueType l) :=
  advances_valueTypeOf advances_valueMember.goes l

/-! ## Interfaces -/

theorem advances_interfaceMember : Advances C interfaceMember := by
  refine goes_lead.bind fun l => leads_peek_bind fun _ => ?_
  refine Leads.at (Leads.bind_option (leads_bare? l) (fun d? => ?_) ?_)
  · exact goes_pure d?
  refine (leads_declarationOrType? l (advances_valueType l)).bind_option
    (fun d => (advances_ended d).goes) ?_
  refine (goes_isNext _).bind fun _ => leads_ite (fun _ => ?_) fun _ => ?_
  · exact (advances_attributes l).bind fun _ => (advances_ended _).goes
  · exact (advances_operation l).bind fun _ => (advances_ended _).goes

theorem advances_interfaceName : Advances C interfaceName := by
  refine leads_peek_bind fun t => ?_
  split
  case h_4 => exact (leads_of_fails (fails_unexpected _)).at
  all_goals
    next hkind =>
      refine leadsAt_take_bind (by simp [hkind]) ?_
      split
      · exact leads_of_fails (fails_fail _)
      · exact goes_pure _

theorem advances_interface (l : Lead) : Advances C (interface l) := by
  unfold interface
  refine leads_unless ((advances_expectKeyword (by decide) _).bind fun _ => ?_)
  refine advances_interfaceName.bind fun name => ?_
  refine (goes_isNext _).bind fun _ => (goes_isNext _).bind fun _ => ?_
  refine leads_ite (fun _ => goes_pure _) fun _ => (leads_acceptPunct _).goes.bind fun _ => ?_
  refine leads_ite_bind (fun _ => advances_scopedNames.goes) (fun _ => goes_pure [])
    fun supers => ?_
  refine (advances_expectPunct _ _).bind fun _ => ?_
  exact (advances_interfaceMember.goes.manyUntil _).bind fun _ => goes_pure _

end IdlFrontend.Parser
