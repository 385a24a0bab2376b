import IdlFrontend.Frontend
import IdlFrontend.Proofs.Parser.Members

/-!
# The definitions that are read

The productions from declarations up to a whole specification. A value type and a module
contain definitions of their own kind, which their readers take as a parameter.

Results:

* `yields_definition`: definitions at every depth.
* `Specification.wellFormed_of_ofText`: a specification that was read is well-formed.
-/

namespace IdlFrontend

namespace Parser

variable {d : Dialect}

/-- What holds of what a place for a definition yields, where nothing may stand. -/
def MemberWellFormed (dialect : Dialect) (m? : Option Definition) : Prop :=
  ∀ m ∈ m?, m.WellFormed dialect

/-- A definition that there is. -/
theorem memberWellFormed_some {m : Definition} (h : m.WellFormed d) :
    MemberWellFormed d (some m) := fun _ hm => by cases hm; exact h

theorem memberWellFormed_none : MemberWellFormed d none := fun _ h => by cases h

/-- The definitions among what a body consists of. -/
theorem wellFormed_of_mem_filterMap {ms : List (Option Definition)}
    (h : ∀ m? ∈ ms, MemberWellFormed d m?) : ∀ m ∈ ms.filterMap id, m.WellFormed d := by
  intro m hm
  obtain ⟨m?, hmem, hsome⟩ := List.mem_filterMap.1 hm
  exact h m? hmem m hsome

/-! ## Declarations -/

theorem yields_typeDef {l : Lead} (hl : l.WellFormed) :
    Yields d TypeDef.WellFormed (typeDef l) :=
  (yields_expectKeyword _ _).bind fun _ _ => yields_typeSpec.bind fun _ htype =>
    yields_declarators.bind fun _ hds => yields_pure ⟨htype, hds.1, hds.2, hl.properties⟩

theorem yields_native {l : Lead} (hl : l.WellFormed) :
    Yields d (fun n => Property.Distinct n.properties) (native l) := by
  refine (yields_expectKeyword _ _).bind fun _ _ => (yields_identifier _).bind fun _ _ => ?_
  refine (yields_acceptPunct _).bind fun _ _ => yields_ite (fun _ => ?_) fun _ => ?_
  · refine (yields_expect _ _).bind fun _ _ => (yields_expectPunct _ _).bind fun _ _ => ?_
    exact yields_pure hl.properties
  · exact yields_pure hl.properties

theorem yields_exceptionType {l : Lead} (hl : l.WellFormed) :
    Yields d ExceptionType.WellFormed (exceptionType l) := by
  refine (yields_expectKeyword _ _).bind fun _ _ => (yields_identifier _).bind fun _ _ => ?_
  refine (yields_expectPunct _ _).bind fun _ _ =>
    (yields_fields yields_typeSpec).bind fun fs h => ?_
  exact yields_pure ⟨h, hl.properties⟩

/-- A type that is no constructed one passes the check only if a constant can be of it. -/
theorem isConstant_of_isConstantType {type : TypeSpec} (hsimple : type.IsSimple)
    (h : isConstantType type) : type.IsConstant := by
  cases type with
  | basic type => cases type <;> simp_all [isConstantType, TypeSpec.IsConstant, TypeSpec.IsSimple]
  | named | string => exact True.intro
  | fixedPoint | sequence => cases h
  | struct | union | enum => exact hsimple

theorem yields_constantType : Yields d (fun t => t.WellFormed ∧ t.IsConstant) constantType := by
  refine (yields_acceptKeyword _).bind fun _ _ => yields_ite (fun _ => ?_) fun _ => ?_
  · refine (yields_isNext _).bind fun _ _ => yields_unless fun _ => yields_pure ⟨.basic _, ?_⟩
    show BasicType.fixed ∉ _
    decide
  · refine yields_simpleType.bind fun type htype => yields_ite (fun h => ?_) fun _ => yields_fail _
    exact yields_pure ⟨htype.1, isConstant_of_isConstantType htype.2 h⟩

theorem yields_constant {l : Lead} (hl : l.WellFormed) :
    Yields d Constant.WellFormed (constant l) := by
  refine (yields_expectKeyword _ _).bind fun _ _ => yields_constantType.bind fun type htype => ?_
  refine (yields_identifier _).bind fun _ _ => (yields_expectPunct _ _).bind fun _ _ => ?_
  exact yields_constExpr.bind fun _ _ => yields_pure ⟨htype.1, htype.2, hl.properties⟩

/-! ## Value types -/

theorem yields_valueTypeOf {member : Parser (Option Definition)} {l : Lead}
    (hmember : Yields d (MemberWellFormed d) member) (hl : l.WellFormed) :
    Yields d (ValueType.WellFormed d) (valueTypeOf member l) := by
  have hbase : Yields d (fun t? => ∀ t ∈ t?, TypeSpec.WellFormed t) (some <$> typeSpec) :=
    yields_typeSpec.map fun _ ht _ h => by cases h; exact ht
  refine (yields_expectKeyword _ _).bind fun _ _ => yields_identifier?.bind fun name _ => ?_
  have hrest : ∀ base : Option TypeSpec, (∀ t ∈ base, t.WellFormed) →
      Yields d (ValueType.WellFormed d) (do
        if ← acceptPunct .openBrace then
          let members ← manyUntil .closeBrace member
          return ⟨name, l.properties, base, some (members.filterMap id)⟩
        else return ⟨name, l.properties, base, none⟩) := by
    intro base hbase
    refine (yields_acceptPunct _).bind fun _ _ => yields_ite (fun _ => ?_) fun _ => ?_
    · refine (yields_manyUntil _ hmember).bind fun members hmembers => yields_pure ?_
      refine .intro hl.properties hbase fun ds hds => ?_
      cases hds
      exact wellFormed_of_mem_filterMap hmembers
    · exact yields_pure (.intro hl.properties hbase fun _ h => by cases h)
  refine (yields_acceptPunct _).bind fun _ _ => yields_kind?.bind fun _ _ => ?_
  refine yields_ite (fun _ => hbase.bind hrest) fun _ => ?_
  refine yields_ite_bind (fun _ => hbase) (fun _ => yields_pure fun _ h => ?_) hrest
  cases h

theorem yields_declaration? {valueType : Lead → Parser ValueType} {l : Lead}
    (hvalueType : Yields d (ValueType.WellFormed d) (valueType l)) (hl : l.WellFormed) :
    Yields d (MemberWellFormed d) (declaration? valueType l) := by
  refine yields_kind?.bind fun kind? _ => ?_
  split
  · exact (yields_typeDef hl).bind fun _ h => yields_pure (memberWellFormed_some (.typeDef h))
  · exact (yields_native hl).bind fun _ h => yields_pure (memberWellFormed_some (.native h))
  · exact hvalueType.bind fun _ h => yields_pure (memberWellFormed_some (.valueType h))
  · exact (yields_exceptionType hl).bind fun _ h =>
      yields_pure (memberWellFormed_some (.exception h))
  · exact (yields_constant hl).bind fun _ h => yields_pure (memberWellFormed_some (.constant h))
  · exact yields_pure memberWellFormed_none

theorem yields_declarationOrType? {valueType : Lead → Parser ValueType} {l : Lead}
    (hvalueType : Yields d (ValueType.WellFormed d) (valueType l)) (hl : l.WellFormed) :
    Yields d (MemberWellFormed d) (declarationOrType? valueType l) := by
  refine (yields_constructed? yields_typeSpec hl.properties).bind fun r? hr? => ?_
  split
  next r m => exact yields_pure (memberWellFormed_some (hr? _ rfl).2)
  next => exact yields_declaration? hvalueType hl

theorem yields_bare? (l : Lead) :
    Yields d (fun m?? => ∀ m? ∈ m??, MemberWellFormed d m?) (bare? l) := by
  refine yields_ite (fun _ => yields_pure fun _ h => by cases h) fun _ => ?_
  refine (yields_acceptPunct _).bind fun _ _ => yields_ite (fun _ => ?_) fun _ => ?_
  · exact yields_pure fun _ h => by cases h; exact memberWellFormed_none
  refine (yields_isNext _).bind fun _ _ => yields_ite (fun _ => ?_) fun _ => ?_
  · refine yields_take.bind fun t _ => yields_pure fun _ h => ?_
    cases h
    exact memberWellFormed_some (.fragment t.text)
  · exact yields_pure fun _ h => by cases h

theorem yields_ended {m : Definition} (h : m.WellFormed d) :
    Yields d (MemberWellFormed d) (ended m) :=
  (yields_expectPunct _ _).bind fun _ _ => yields_pure (memberWellFormed_some h)

theorem yields_typedMember {l : Lead} (hl : l.WellFormed) :
    Yields d (Definition.WellFormed d) (typedMember l) := by
  refine (yields_isNext _).bind fun _ _ => yields_ite (fun _ => ?_) fun _ => ?_
  · refine (yields_operation hl).bind fun o ho => (yields_expectPunct _ _).bind fun _ _ => ?_
    exact yields_pure (.operation ho)
  refine yields_typeSpec.bind fun type htype => (yields_identifier _).bind fun name _ => ?_
  refine (yields_isNext _).bind fun _ _ => yields_ite (fun _ => ?_) fun _ => ?_
  · refine (yields_checkUsable type).bind fun _ hsequence => ?_
    refine (yields_operationOf hl htype hsequence).bind fun o ho => ?_
    exact (yields_expectPunct _ _).bind fun _ _ => yields_pure (.operation ho)
  · refine yields_dimensions.bind fun dimensions _ => ?_
    refine (yields_commaMore yields_declarator).bind fun more hmore => ?_
    refine (yields_expectPunct _ _).bind fun _ _ => yields_pure (.field ?_)
    exact .intro htype (List.cons_ne_nil _ _)
      (List.forall_mem_cons.2 ⟨wellFormed_ofDimensions name dimensions, hmore⟩) hl.properties

theorem yields_valueMember : Yields d (MemberWellFormed d) valueMember := by
  refine yields_recurse (J := fun _ => True) (fun member hmember _ _ => ?_) True.intro
  refine yields_lead.bind fun l hl => yields_peek.bind fun _ _ => ?_
  refine (yields_bare? l).bind fun m?? hm?? => ?_
  split
  next m? => exact yields_pure (hm?? m? rfl)
  refine (yields_constructed? yields_typeSpec hl.properties).bind fun r? hr? => ?_
  split
  next type m =>
    refine (yields_isNext _).bind fun _ _ => yields_ite (fun _ => ?_) fun _ => ?_
    · exact yields_ended (hr? _ rfl).2
    · exact (yields_fieldOf (hr? _ rfl).1 Property.Distinct.nil).bind fun _ hf =>
        yields_pure (memberWellFormed_some (.field hf))
  refine (yields_declaration? (yields_valueTypeOf (hmember () True.intro) hl) hl).bind
    fun m? hm? => ?_
  split
  next m => exact yields_ended (hm? m rfl)
  refine (yields_isNext _).bind fun _ _ => yields_ite (fun _ => ?_) fun _ => ?_
  · exact (yields_attributes hl).bind fun _ ha => yields_ended (.attribute ha)
  · exact (yields_typedMember hl).bind fun _ hm => yields_pure (memberWellFormed_some hm)

theorem yields_valueType {l : Lead} (hl : l.WellFormed) :
    Yields d (ValueType.WellFormed d) (valueType l) := yields_valueTypeOf yields_valueMember hl

/-! ## Interfaces -/

theorem yields_interfaceMember : Yields d (MemberWellFormed d) interfaceMember := by
  refine yields_lead.bind fun l hl => yields_peek.bind fun _ _ => ?_
  refine (yields_bare? l).bind fun m?? hm?? => ?_
  split
  next m? => exact yields_pure (hm?? m? rfl)
  refine (yields_declarationOrType? (yields_valueType hl) hl).bind fun m? hm? => ?_
  split
  next m => exact yields_ended (hm? m rfl)
  refine (yields_isNext _).bind fun _ _ => yields_ite (fun _ => ?_) fun _ => ?_
  · exact (yields_attributes hl).bind fun _ ha => yields_ended (.attribute ha)
  · exact (yields_operation hl).bind fun _ ho => yields_ended (.operation ho)

theorem yields_unlessBuiltin (name : Text) :
    Yields d (fun name => builtinInterface? name = none) (do
      let _ ← take
      match builtinInterface? name with
      | some builtin => fail (.builtinInterfaceName builtin)
      | none => return name) := by
  refine yields_take.bind fun _ _ => ?_
  split
  · exact yields_fail _
  next h => exact yields_pure h

theorem yields_interfaceName :
    Yields d (fun name => builtinInterface? name = none) interfaceName := by
  refine yields_peek.bind fun t _ => ?_
  split
  · exact yields_unlessBuiltin _
  · exact yields_unlessBuiltin _
  · exact yields_unlessBuiltin _
  · exact yields_unexpected _

theorem yields_interface {l : Lead} (hl : l.WellFormed) :
    Yields d (Interface.WellFormed d) (interface l) := by
  refine yields_unless fun _ => (yields_expectKeyword _ _).bind fun _ _ => ?_
  refine yields_interfaceName.bind fun name hname => ?_
  have hobject : name.map Char.toLower ≠ "object".toList := by
    intro h
    simp [builtinInterface?, h] at hname
  have htypeCode : name.map Char.toLower ≠ "typecode".toList := by
    intro h
    simp [builtinInterface?, h] at hname
  refine (yields_isNext _).bind fun _ _ => (yields_isNext _).bind fun _ _ => ?_
  refine yields_ite (fun _ => ?_) fun _ => (yields_acceptPunct _).bind fun _ _ => ?_
  · exact yields_pure (.intro hobject htypeCode hl.properties Iff.rfl fun _ h => by cases h)
  refine yields_ite_bind (P := fun _ => True) (fun _ => yields_scopedNames.trivial)
    (fun _ => yields_pure True.intro) fun supers _ => (yields_expectPunct _ _).bind fun _ _ => ?_
  refine (yields_manyUntil _ yields_interfaceMember).bind fun members hmembers => yields_pure ?_
  refine .intro hobject htypeCode hl.properties Iff.rfl fun ds hds => ?_
  cases hds
  exact wellFormed_of_mem_filterMap hmembers

/-! ## Modules -/

theorem yields_modulePrefix : Yields d (fun _ => True) modulePrefix := by
  refine yields_get.bind fun s hs => ?_
  have htaken : (s.lexer.takePragma "prefix".toList).2.dialect = s.lexer.dialect := by
    unfold Lexer.takePragma
    split <;> rfl
  revert htaken
  rcases s.lexer.takePragma "prefix".toList with ⟨pragma, lexer⟩
  intro htaken
  refine Yields.bind (yields_set ⟨htaken.trans hs.dialect_eq, hs.ahead⟩) fun _ _ => ?_
  split
  · exact yields_pure True.intro
  · split
    · exact yields_fail _
    · exact yields_pure True.intro
    · exact yields_pure True.intro

theorem yields_moduleOf {definition : Parser (Option Definition)}
    (hdefinition : Yields d (MemberWellFormed d) definition) :
    Yields d (Module.WellFormed d) (moduleOf definition) := by
  refine (yields_expectKeyword _ _).bind fun _ _ => (yields_identifier _).bind fun _ _ => ?_
  refine yields_modulePrefix.bind fun _ _ => (yields_expectPunct _ _).bind fun _ _ => ?_
  refine (yields_manyUntil _ hdefinition).bind fun ms hms => yields_pure (.intro ?_)
  exact wellFormed_of_mem_filterMap hms

theorem yields_interfaceOrDeclaration {l : Lead} (hl : l.WellFormed) :
    Yields d (MemberWellFormed d) (interfaceOrDeclaration l) := by
  refine (yields_isNext _).bind fun _ _ => yields_ite (fun _ => ?_) fun _ => ?_
  · exact (yields_interface hl).bind fun _ hi => yields_ended (.interface hi)
  refine (yields_declarationOrType? (yields_valueType hl) hl).bind fun m? hm? => ?_
  split
  next m => exact yields_ended (hm? m rfl)
  · exact yields_unexpected _

theorem yields_definition : Yields d (MemberWellFormed d) definition := by
  refine yields_recurse (J := fun _ => True) (fun definition hdefinition _ _ => ?_) True.intro
  refine yields_lead.bind fun l hl => yields_peek.bind fun t _ => ?_
  refine (yields_bare? l).bind fun m?? hm?? => ?_
  split
  next m? => exact yields_pure (hm?? m? rfl)
  refine yields_ite (fun _ => ?_) fun _ => yields_interfaceOrDeclaration hl
  split
  · refine (yields_moduleOf (hdefinition () True.intro)).bind fun m hm => ?_
    exact (yields_expectPunct _ _).bind fun _ _ =>
      yields_pure (memberWellFormed_some (.module hm))
  · exact yields_scopedName.bind fun _ _ => yields_pure memberWellFormed_none
  · exact yields_scopedName.bind fun _ _ => yields_pure memberWellFormed_none
  · exact yields_interfaceOrDeclaration hl

theorem yields_specification : Yields d (Specification.WellFormed d) specification := by
  refine Yields.bind (yields_many (P := MemberWellFormed d) ?_) fun ms hms => yields_pure ?_
  · refine yields_peek?.bind fun t? _ => ?_
    split
    · exact yields_pure fun _ h => by cases h
    · exact yields_definition.bind fun _ hm => yields_pure fun _ h => by cases h; exact hm
  · exact wellFormed_of_mem_filterMap hms

end Parser

theorem TokenStream.regular_ofText (dialect : Dialect) (cs : Text) :
    (TokenStream.ofText dialect cs).Regular dialect :=
  ⟨rfl, fun _ h => by cases h⟩

/-- **Every specification that is read is well-formed.** -/
theorem Specification.wellFormed_of_ofText {dialect : Dialect} {cs : Text} {spec : Specification}
    (h : Specification.ofText dialect cs = .ok spec) : spec.WellFormed dialect :=
  (Parser.yields_specification _ (TokenStream.regular_ofText dialect cs)).2 spec h

/-- An operation with a parameter that can be left out, in the dialect that knows these. -/
theorem Specification.wellFormed_of_ofText_optional :
    ∃ spec : Specification,
      Specification.ofText .web "[x] interface I {void f(optional long n = 1);};".toList =
        .ok spec ∧
        spec.definitions.length = 1 ∧ spec.WellFormed .web := by
  have hspec : Specification.ofText .web "[x] interface I {void f(optional long n = 1);};".toList =
      .ok ⟨[.interface ⟨['I'], [⟨['x'], none⟩], some [], some [.operation ⟨['f'], .basic .void,
        [⟨['n'], .basic .long, false, [.optional], some (.literal (.integer ['1'])), []⟩],
        none, none, [], none, []⟩]⟩]⟩ := by decide +kernel
  exact ⟨_, hspec, rfl, Specification.wellFormed_of_ofText hspec⟩

end IdlFrontend
