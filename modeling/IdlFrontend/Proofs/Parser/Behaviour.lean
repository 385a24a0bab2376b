import IdlFrontend.Proofs.Parser.Append
import IdlFrontend.Proofs.Parser.History
import IdlFrontend.Proofs.Parser.Productions

/-!
# The behaviour of every production

Every production is put together from the building blocks of parsers, up to the one place where
a mode is entered and the one where a pragma is taken. So each of them does only what is right,
from names up to a whole specification.

Results:

* `behaves_propertyList`: the production that enters a mode.
* `behaves_specification`: a whole specification.
-/

namespace IdlFrontend.Parser

-- The longest productions have many steps, and the instance of each of them counts those behind
-- it twice.
set_option synthInstance.maxSize 100000

variable {cs : Text}

/-! ## Names and constant expressions -/

instance : Behaves cs nextSegment := by
  unfold nextSegment
  infer_instance

instance : Behaves cs scopedName := by
  unfold scopedName
  infer_instance

instance : Behaves cs scopedNames := inferInstanceAs (Behaves cs (commaList scopedName))

instance (ops : List BinaryOp) : Behaves cs (operator? ops) := by
  unfold operator?
  refine .bind inferInstance fun t? => ?_
  split <;> infer_instance

instance {tight : Parser ConstExpr} [Behaves cs tight] (ops : List BinaryOp) :
    Behaves cs (nextOperand tight ops) := by
  unfold nextOperand
  refine .bind inferInstance fun op? => ?_
  split <;> infer_instance

instance {operand : Parser ConstExpr} [Behaves cs operand] (levels : List (List BinaryOp)) :
    Behaves cs (leftGrouped operand levels) := by
  induction levels with
  | nil => assumption
  | cons ops tighter ih =>
    unfold leftGrouped
    infer_instance

instance : Behaves cs nextString := by
  unfold nextString
  infer_instance

instance : Behaves cs strings := by
  unfold strings
  infer_instance

instance {expr : Parser ConstExpr} [Behaves cs expr] : Behaves cs (primary expr) := by
  unfold primary
  refine .bind inferInstance fun t => ?_
  split <;> try infer_instance
  split <;> infer_instance

instance {expr : Parser ConstExpr} [Behaves cs expr] : Behaves cs (unary expr) := by
  unfold unary
  refine .bind inferInstance fun t? => ?_
  split <;> infer_instance

instance : Behaves cs constExpr := by
  refine behaves_recurse (fun expr _ _ => ?_) ()
  unfold expressionRound
  infer_instance

/-! ## Properties and modifiers -/

instance : Behaves cs propertyValue? := by
  unfold propertyValue?
  refine .bind inferInstance fun _ => ?_
  split
  · infer_instance
  · refine .bind inferInstance fun _ => ?_
    split
    · refine .bind inferInstance fun t => ?_
      split
      · infer_instance
      · split <;> infer_instance
    · infer_instance

instance (before : List Property) : Behaves cs (propertiesAfter before) := by
  refine behaves_recurse (fun more _ before => ?_) before
  unfold propertyRound propertyNext
  infer_instance

/-- Behind the opening bracket the parser enters the mode of property lists, before it calls the
    lexer again. -/
theorem behaves_propertyList (before : List Property) : Behaves cs (propertyList before) := by
  refine ⟨fun s hs => BehavesAt.bind (Behaves.behavesAt s) (fun _ _ hexpect => ?_) hs⟩
  obtain ⟨t, u, hpeek, hkind, rfl⟩ := exists_of_run_expectPunct hexpect
  have hentered := behavesAt_push (hs.of_run hpeek) (ahead_of_run_peek? hpeek) hkind
  exact hentered.bind fun _ v _ => Behaves.behavesAt v

instance (before : List Property) : Behaves cs (propertyList before) := behaves_propertyList before

instance : Behaves cs lead := by
  refine behaves_recurse (fun more _ l => .bind inferInstance fun _ => ?_) _
  split
  · infer_instance
  · refine .bind inferInstance fun t? => ?_
    split <;> infer_instance

/-! ## Types -/

instance : Behaves cs nextDimension := by
  unfold nextDimension
  infer_instance

instance : Behaves cs dimensions := by
  unfold dimensions
  infer_instance

instance : Behaves cs declarator := by
  unfold declarator
  infer_instance

instance : Behaves cs declarators := inferInstanceAs (Behaves cs (commaList declarator))

instance : Behaves cs longType := by
  unfold longType
  infer_instance

instance : Behaves cs unsignedType := by
  unfold unsignedType
  infer_instance

instance {simple : Parser TypeSpec} [Behaves cs simple] : Behaves cs (sequenceType simple) := by
  unfold sequenceType
  infer_instance

instance (wide : Bool) : Behaves cs (stringType wide) := by
  unfold stringType
  infer_instance

instance : Behaves cs fixedType := by
  unfold fixedType
  infer_instance

instance : Behaves cs simpleType := by
  refine behaves_recurse (fun simple _ _ => .bind inferInstance fun t => ?_) ()
  split <;> try infer_instance
  split <;> infer_instance

instance (properties : List Property) : Behaves cs (enumType properties) := by
  unfold enumType
  infer_instance

instance (type : TypeSpec) (properties : List Property) : Behaves cs (fieldOf type properties) := by
  unfold fieldOf
  infer_instance

instance {type : Parser TypeSpec} [Behaves cs type] : Behaves cs (field type) := by
  unfold field
  infer_instance

instance {type : Parser TypeSpec} [Behaves cs type] : Behaves cs (fields type) :=
  inferInstanceAs (Behaves cs (manyUntil .closeBrace (field type)))

instance {type : Parser TypeSpec} [Behaves cs type] (properties : List Property) :
    Behaves cs (structType type properties) := by
  unfold structType
  infer_instance

instance : Behaves cs selector := by
  unfold selector
  infer_instance

instance : Behaves cs nextLabel := by
  unfold nextLabel
  infer_instance

instance : Behaves cs caseLabels := by
  unfold caseLabels
  infer_instance

instance {type : Parser TypeSpec} [Behaves cs type] : Behaves cs (unionCase type) := by
  unfold unionCase
  infer_instance

instance {type : Parser TypeSpec} [Behaves cs type] (properties : List Property) :
    Behaves cs (unionType type properties) := by
  unfold unionType
  infer_instance

instance {type : Parser TypeSpec} [Behaves cs type] (properties : List Property) :
    Behaves cs (constructed? type properties) := by
  refine .bind inferInstance fun t? => ?_
  split <;> infer_instance

instance : Behaves cs typeSpec := by
  refine behaves_recurse (fun type _ _ => .bind inferInstance fun d? => ?_) ()
  split <;> infer_instance

/-! ## Members -/

instance (type : TypeSpec) : Behaves cs (checkUsable type) := by
  unfold checkUsable
  split <;> infer_instance

instance : Behaves cs usableType := by
  refine .bind inferInstance fun t? => ?_
  split <;> infer_instance

instance : Behaves cs raisesList := by
  unfold raisesList
  infer_instance

instance (word : Text) : Behaves cs (isWord word) := by
  unfold isWord
  infer_instance

instance : Behaves cs attributeName := by
  refine .bind inferInstance fun name => behaves_recurse (fun more _ a => ?_) _
  unfold clauseRound
  infer_instance

instance (l : Lead) : Behaves cs (attributes l) := by
  unfold attributes
  infer_instance

instance (before ds : List Direction) : Behaves cs (addDirections before ds) := by
  induction ds generalizing before with
  | nil => exact inferInstanceAs (Behaves cs (pure before))
  | cons d ds ih =>
    unfold addDirections
    infer_instance

instance : Behaves cs parameterLead := by
  refine behaves_recurse (fun more _ l => .bind inferInstance fun _ => ?_) _
  split
  · infer_instance
  · refine .bind inferInstance fun t? => ?_
    split <;> infer_instance

instance : Behaves cs parameterType := by
  unfold parameterType
  infer_instance

instance (l : ParameterLead) (type : TypeSpec) (nullable : Bool) :
    Behaves cs (typedVarargs l type nullable) := by
  unfold typedVarargs
  infer_instance

instance (l : ParameterLead) (type : TypeSpec) (nullable : Bool) :
    Behaves cs (namedParameter l type nullable) := by
  unfold namedParameter checkedParameter
  infer_instance

instance : Behaves cs acceptVarargs := by
  unfold acceptVarargs
  infer_instance

instance (before : List Parameter) : Behaves cs (parametersAfter before) := by
  refine behaves_recurse (fun more _ before => ?_) before
  unfold parameterRound parameterNext
  infer_instance

instance : Behaves cs parameters := by
  unfold parameters
  infer_instance

instance : Behaves cs contextItem := by
  unfold contextItem
  infer_instance

instance : Behaves cs contextList := by
  unfold contextList
  infer_instance

instance (l : Lead) (returnType : TypeSpec) (name : Text) :
    Behaves cs (operationOf l returnType name) := by
  unfold operationOf
  infer_instance

instance (l : Lead) : Behaves cs (operation l) := by
  unfold operation
  infer_instance

/-! ## Declarations -/

instance (l : Lead) : Behaves cs (typeDef l) := by
  unfold typeDef
  infer_instance

instance (l : Lead) : Behaves cs (native l) := by
  unfold native
  infer_instance

instance (l : Lead) : Behaves cs (exceptionType l) := by
  unfold exceptionType
  infer_instance

instance : Behaves cs constantType := by
  unfold constantType
  infer_instance

instance (l : Lead) : Behaves cs (constant l) := by
  unfold constant
  infer_instance

instance {member : Parser (Option Definition)} [Behaves cs member] (l : Lead) :
    Behaves cs (valueTypeOf member l) := by
  unfold valueTypeOf
  infer_instance

instance {valueType : Lead → Parser ValueType} [∀ l, Behaves cs (valueType l)] (l : Lead) :
    Behaves cs (declaration? valueType l) := by
  refine .bind inferInstance fun t? => ?_
  split <;> infer_instance

instance {valueType : Lead → Parser ValueType} [∀ l, Behaves cs (valueType l)] (l : Lead) :
    Behaves cs (declarationOrType? valueType l) := by
  refine .bind inferInstance fun d? => ?_
  split <;> infer_instance

instance (l : Lead) : Behaves cs (bare? l) := by
  unfold bare?
  infer_instance

instance (d : Definition) : Behaves cs (ended d) := by
  unfold ended
  infer_instance

instance (l : Lead) : Behaves cs (typedMember l) := by
  unfold typedMember
  infer_instance

instance : Behaves cs valueMember := by
  refine behaves_recurse (fun member _ _ => .bind inferInstance fun l => .bind inferInstance
    fun _ => ?_) ()
  refine .bind inferInstance fun d? => ?_
  split
  · infer_instance
  · refine .bind inferInstance fun d? => ?_
    split
    · infer_instance
    · refine .bind inferInstance fun d? => ?_
      split <;> infer_instance

instance (l : Lead) : Behaves cs (valueType l) :=
  inferInstanceAs (Behaves cs (valueTypeOf valueMember l))

/-! ## Interfaces -/

instance : Behaves cs interfaceMember := by
  refine .bind inferInstance fun l => .bind inferInstance fun _ => .bind inferInstance fun d? => ?_
  split
  · infer_instance
  · refine .bind inferInstance fun d? => ?_
    split <;> infer_instance

instance : Behaves cs interfaceName := by
  refine .bind inferInstance fun t => ?_
  split <;> try infer_instance
  all_goals
    refine .bind inferInstance fun _ => ?_
    split <;> infer_instance

instance (l : Lead) : Behaves cs (interface l) := by
  unfold interface
  infer_instance

/-! ## Modules and specifications -/

instance : Behaves cs modulePrefix := by
  refine ⟨fun s => (Behaves.behavesAt s).bind fun _ _ hget => ?_⟩
  cases hget
  refine (behavesAt_takePragma "prefix".toList).bind fun _ u _ => ?_
  split
  · exact Behaves.behavesAt u
  · split <;> exact Behaves.behavesAt u

instance {definition : Parser (Option Definition)} [Behaves cs definition] :
    Behaves cs (moduleOf definition) := by
  unfold moduleOf
  infer_instance

instance (l : Lead) : Behaves cs (interfaceOrDeclaration l) := by
  refine .bind inferInstance fun _ => ?_
  split
  · infer_instance
  · refine .bind inferInstance fun d? => ?_
    split <;> infer_instance

instance {definition : Parser (Option Definition)} [Behaves cs definition] (l : Lead) (t : Token) :
    Behaves cs (afterLead definition l t) := by
  have hlast : Behaves cs (interfaceOrDeclaration l) := inferInstance
  refine .bind inferInstance fun d? => ?_
  split
  · infer_instance
  · split
    · dsimp only
      split
      · infer_instance
      · infer_instance
      · infer_instance
      · exact hlast
    · exact hlast

instance {definition : Unit → Parser (Option Definition)} [∀ i, Behaves cs (definition i)]
    (i : Unit) :
    Behaves cs (definitionRound definition i) := by
  unfold definitionRound
  infer_instance

instance : Behaves cs definition := behaves_recurse (fun _ _ _ => inferInstance) ()

instance : Behaves cs nextDefinition := by
  refine .bind inferInstance fun t? => ?_
  split <;> infer_instance

/-- **A whole specification.** -/
theorem behaves_specification : Behaves cs specification := by
  unfold specification
  have hitems : Behaves cs (many nextDefinition) := inferInstance
  exact hitems.bind fun _ => inferInstance

end IdlFrontend.Parser
