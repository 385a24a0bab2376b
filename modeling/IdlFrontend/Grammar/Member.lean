import IdlFrontend.Grammar.Type

/-!
# Attributes and operations

    attribute  = "attribute" [properties] usable ["?"] attrname ("," attrname)*
    attrname   = identifier (("getter" | "setter") "raises" raises)*
    operation  = ("void" | usable) identifier parameters ["raises" raises] ["context" context]
    parameters = "(" ")" | "(" varargs ")" | "(" parameter ("," parameter)* ["," varargs] ")"
               | "(" attr* partype "..." identifier ")"
    parameter  = attr* partype identifier ["=" expr]
    partype    = "void" | usable ["?"]
    attr       = "in" | "out" | "inout" | "optional" | properties
    varargs    = "..." | "varargs"
    raises     = "(" name ("," name)* ")"
    context    = "(" string+ ("," string+)* ")"

A usable type is a simple type that is no sequence. The words `getter` and `setter`
are identifiers.
-/

namespace IdlFrontend.Parser

/-! ## Types of values that are passed -/

/-- Fails if values of the type cannot be passed. Model of `check_param_type`. -/
def checkUsable (type : TypeSpec) : Parser Unit := do
  match type with
  | .sequence _ _ => fail (.illegalParameterType type)
  | _ => return ()

/-- A type whose values can be passed. -/
def usableType : Parser TypeSpec := do
  match ← kind? with
  | some (.keyword .struct) | some (.keyword .union) | some (.keyword .enum) =>
    unexpected .parameterType
  | _ =>
    let type ← simpleType
    checkUsable type
    return type

/-- The exceptions in the parentheses behind `raises`. Model of `parse_raises_list`. -/
def raisesList : Parser (List ScopedName) := do
  expectPunct .openParen "after 'raises'"
  let names ← scopedNames
  expectPunct .closeParen "after raises list"
  return names

/-! ## Attributes -/

/-- Whether the next token is an identifier with the given text. Model of `check_word`. -/
def isWord (word : Text) : Parser Bool := do
  return (← peek?).any fun t => t.kind == .identifier && t.text == word

/-- A round of the clauses behind the name of an attribute. -/
def clauseRound (more : AttributeName → Parser AttributeName) (a : AttributeName) :
    Parser AttributeName := do
  let getter ← isWord "getter".toList
  let setter ← isWord "setter".toList
  if getter || setter then
    let _ ← take
    expectKeyword .raises "after 'getter' or 'setter'"
    let names ← raisesList
    if getter then more { a with getterRaises := a.getterRaises ++ names }
    else more { a with setterRaises := a.setterRaises ++ names }
  else return a

/-- The name of an attribute. Exceptions of several clauses are collected. Model of
    `parse_attr_declarator`. -/
def attributeName : Parser AttributeName := do
  let name ← identifier "for attribute name"
  recurse clauseRound ⟨name, [], []⟩

/-- Attributes of one type. Of the modifiers only `readonly` counts. Model of `parse_attribute`. -/
def attributes (l : Lead) : Parser Attribute := do
  expectKeyword .attribute "to start attribute"
  let properties ←
    if ← isPunct .openBracket then propertyList l.properties else pure l.properties
  let type ← usableType
  let nullable ← acceptPunct .question
  let names ← commaList attributeName
  return ⟨type, l.modifiers.contains .readonly, nullable, names, properties⟩

/-! ## Parameters -/

/-- What stands in front of the type of a parameter. Model of `ParamAttributes`. -/
structure ParameterLead where
  directions : List Direction := []
  properties : List Property := []

/-- The directions that a kind of token stands for, if it stands for any. -/
def directions? : TokenKind → Option (List Direction)
  | .keyword .inward => some [.inward]
  | .keyword .out => some [.outward]
  | .keyword .inout => some [.inward, .outward]
  | .keyword .optional => some [.optional]
  | _ => none

/-- Directions behind the directions `before`. No direction may come twice. -/
def addDirections (before : List Direction) : List Direction → Parser (List Direction)
  | [] => return before
  | d :: ds =>
    if before.contains d then fail (.repeatedDirection d) else addDirections (before ++ [d]) ds

/-- A round of what stands in front of the type of a parameter. -/
def parameterLeadRound (more : ParameterLead → Parser ParameterLead) (l : ParameterLead) :
    Parser ParameterLead := do
  if ← isPunct .openBracket then
    more { l with properties := ← propertyList l.properties }
  else match (← kind?).bind directions? with
    | none => return l
    | some ds =>
      let directions ← addDirections l.directions ds
      let _ ← take
      more { l with directions }

/-- Directions and property lists in any order. Model of `parse_param_attributes`. -/
def parameterLead : Parser ParameterLead := recurse parameterLeadRound {}

/-- The type of a parameter, and whether it can be null. Model of `parse_param_type_spec`. -/
def parameterType : Parser (TypeSpec × Bool) := do
  if ← acceptKeyword .void then return (.basic .void, false)
  let type ← usableType
  return (type, ← acceptPunct .question)

/-- Typed variable arguments behind their dots. Their name is dropped. -/
def typedVarargs (l : ParameterLead) (type : TypeSpec) (nullable : Bool) : Parser Parameter := do
  if l.directions != [] && l.directions != [.inward] then fail .outwardVarargs
  let _ ← identifier "after '...'"
  return .variable type nullable l.properties

/-- The checks of a parameter whose words are read. In one dialect a direction is required. -/
def checkedParameter (p : Parameter) : Parser Parameter := do
  let directed := p.directions.contains .inward || p.directions.contains .outward
  if !directed && (← get).lexer.dialect != .web then fail .missingDirection
  if !p.directions.contains .optional && p.value?.isSome then fail .unusableDefault
  return p

/-- A parameter from its name on. -/
def namedParameter (l : ParameterLead) (type : TypeSpec) (nullable : Bool) :
    Parser Parameter := do
  let name ← identifier "for parameter name"
  let value? ← if ← acceptPunct .equal then some <$> constExpr else pure none
  checkedParameter ⟨name, type, nullable, l.directions, value?, l.properties⟩

/-- Takes a sign for untyped variable arguments if one comes next. -/
def acceptVarargs : Parser Bool := do
  if ← acceptPunct .ellipsis then return true else acceptKeyword .varargs

/-- What stands behind the parameters that are read: a comma and more of them, or the closing
    parenthesis. -/
def parameterNext (more : List Parameter → Parser (List Parameter × Option Parameter))
    (parameters : List Parameter) : Parser (List Parameter × Option Parameter) := do
  if ← acceptPunct .comma then more parameters
  else
    expectPunct .closeParen "after parameters"
    return (parameters, none)

/-- A round of the parameters of an operation. -/
def parameterRound (more : List Parameter → Parser (List Parameter × Option Parameter))
    (before : List Parameter) : Parser (List Parameter × Option Parameter) := do
  if ← acceptVarargs then
    expectPunct .closeParen "after variable arguments"
    return (before, some (.variable (.basic .any) false []))
  let l ← parameterLead
  let (type, nullable) ← parameterType
  if ← acceptPunct .ellipsis then
    let varargs ← typedVarargs l type nullable
    if !before.isEmpty then fail .typedVarargsNotAlone
    expectPunct .closeParen "after variable arguments"
    return (before, some varargs)
  parameterNext more (before ++ [← namedParameter l type nullable])

/-- The parameters up to the closing parenthesis, behind the parameters `before`,
    and the variable arguments. -/
def parametersAfter (before : List Parameter) : Parser (List Parameter × Option Parameter) :=
  recurse parameterRound before

/-- The parameters of an operation and its variable arguments. Model of `parse_parameter_decls`. -/
def parameters : Parser (List Parameter × Option Parameter) := do
  expectPunct .openParen "before parameters"
  if ← acceptPunct .closeParen then return ([], none)
  parametersAfter []

/-! ## Operations -/

/-- String literals that stand next to each other, as one text. -/
def contextItem : Parser Text := do
  let first ← expect .string "in context list"
  let more ← many nextString
  return ((first :: more).map fun t => quotedBody t.text).flatten

/-- The texts in the parentheses behind `context`. Model of `parse_context_list`. -/
def contextList : Parser (List Text) := do
  expectPunct .openParen "after 'context'"
  let items ← commaList contextItem
  expectPunct .closeParen "after context list"
  return items

/-- An operation from its parameters on. Model of `parse_operation_rest`. -/
def operationOf (l : Lead) (returnType : TypeSpec) (name : Text) : Parser Operation := do
  let (parameters, varargs) ← parameters
  let raises ← if ← acceptKeyword .raises then some <$> raisesList else pure none
  let context ← if ← acceptKeyword .context then some <$> contextList else pure none
  return ⟨name, returnType, parameters, varargs, raises, l.modifiers, context, l.properties⟩

/-- An operation. Model of `parse_operation`. -/
def operation (l : Lead) : Parser Operation := do
  let returnType ← if ← acceptKeyword .void then pure (.basic .void) else usableType
  let name ← identifier "for operation name"
  operationOf l returnType name

end IdlFrontend.Parser
