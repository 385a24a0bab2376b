import IdlFrontend.Grammar.Member

/-!
# Definitions

    specification = definition*
    definition    = module ";" | interface ";" | declaration ";" | fragment | name | ";"
    export        = declaration ";" | attributes ";" | operation ";" | fragment | ";"
    valuemember   = export | field
    declaration   = typedef | native | valuetype | exception | constant
                  | struct | union | enum
    module        = "module" identifier "{" definition* "}"
    interface     = "interface" identifier [[":" name ("," name)*] "{" export* "}"]
    valuetype     = "valuetype" [identifier] [[":"] type] ["{" valuemember* "}"]
    typedef       = "typedef" type declarator ("," declarator)*
    native        = "native" identifier ["(" raw ")"]
    exception     = "exception" identifier "{" field* "}"
    constant      = "const" type identifier "=" expr

A lead may stand before everything but modules, fragments, bare names and lone
semicolons. Interfaces allow no modifiers; elsewhere those without a meaning are
dropped. Bare names and lone semicolons define nothing.
-/

namespace IdlFrontend

/-- The body of a pragma value in single or double quotes. What follows the closing quote does not
    count. Model of `unquote_pragma`. -/
def pragmaBody? (value : Text) : Option Text :=
  match Text.trim isWhiteSpace value with
  | [] => none
  | quote :: rest => if quote == '"' || quote == '\'' then upTo quote rest else none
where
  /-- The text up to a quote that no backslash escapes. -/
  upTo (quote : Char) : Text → Option Text
    | [] => none
    | '\\' :: c :: cs => (upTo quote cs).map fun body => '\\' :: c :: body
    | c :: cs => if c == quote then some [] else (upTo quote cs).map (c :: ·)

namespace Parser

/-! ## Declarations -/

/-- Another name for a type. Model of `parse_typedef`. -/
def typeDef (l : Lead) : Parser TypeDef := do
  expectKeyword .typeDef "to start typedef"
  let type ← typeSpec
  return ⟨type, ← declarators, l.properties⟩

/-- A native type. The lexer reads what stands in the parentheses as one token. Model of
    `parse_native`. -/
def native (l : Lead) : Parser NativeType := do
  expectKeyword .native "to start native"
  let name ← identifier "after 'native'"
  if ← acceptPunct .openParen then
    let raw ← expect .nativeType "after '('"
    expectPunct .closeParen "after native type"
    return ⟨name, some raw.text, l.properties⟩
  else return ⟨name, none, l.properties⟩

/-- An exception. Model of `parse_exception`. -/
def exceptionType (l : Lead) : Parser ExceptionType := do
  expectKeyword .exception "to start exception"
  let name ← identifier "after 'exception'"
  expectPunct .openBrace "before exception body"
  return ⟨name, ← fields typeSpec, l.properties⟩

/-- Whether constants can have the type. -/
def isConstantType : TypeSpec → Bool
  | .sequence _ _ | .fixedPoint _ _ => false
  | .basic .any | .basic .object | .basic .typeCode => false
  | _ => true

/-- The type of a constant. A fixed-point constant has no sizes. Model of `parse_const_type`. -/
def constantType : Parser TypeSpec := do
  if ← acceptKeyword .fixed then
    if ← isPunct .less then fail (.illegalConstantType "fixed<>".toList)
    return .basic .fixed
  let type ← simpleType
  if isConstantType type then return type else fail (.illegalConstantType type.text)

/-- A constant. Model of `parse_const`. -/
def constant (l : Lead) : Parser Constant := do
  expectKeyword .const "to start const"
  let type ← constantType
  let name ← identifier "in const declaration"
  expectPunct .equal "after const name"
  return ⟨name, type, ← constExpr, l.properties⟩

/-! ## Value types -/

/-- A value type whose members are read by `member`. -/
def valueTypeOf (member : Parser (Option Definition)) (l : Lead) : Parser ValueType := do
  expectKeyword .valueType "to start valuetype"
  let name ← identifier?
  let base ←
    if ← acceptPunct .colon then some <$> typeSpec
    else if (← kind?).any startsType then some <$> typeSpec
    else pure none
  if ← acceptPunct .openBrace then
    let members ← manyUntil .closeBrace member
    return ⟨name, l.properties, base, some (members.filterMap id)⟩
  else return ⟨name, l.properties, base, none⟩

/-- A declaration that begins with a keyword of its own, if one comes next. It may
    stand in every body. -/
def declaration? (valueType : Lead → Parser ValueType) (l : Lead) :
    Parser (Option Definition) := do
  match ← kind? with
  | some (.keyword .typeDef) => return some (.typeDef (← typeDef l))
  | some (.keyword .native) => return some (.native (← native l))
  | some (.keyword .valueType) => return some (.valueType (← valueType l))
  | some (.keyword .exception) => return some (.exception (← exceptionType l))
  | some (.keyword .const) => return some (.constant (← constant l))
  | _ => return none

/-- A declaration, or a constructed type that is declared on its own, if one comes
    next. -/
def declarationOrType? (valueType : Lead → Parser ValueType) (l : Lead) :
    Parser (Option Definition) := do
  match ← constructed? typeSpec l.properties with
  | some (_, d) => return some d
  | none => declaration? valueType l

/-- The definition that a lone semicolon or a code fragment is, if one comes next
    and nothing stands in front of it. -/
def bare? (l : Lead) : Parser (Option (Option Definition)) := do
  if !l.isEmpty then return none
  if ← acceptPunct .semicolon then return some none
  if ← isNext .fragment then return some (some (.fragment (← take).text))
  return none

/-- The semicolon behind a declaration. -/
def ended (d : Definition) : Parser (Option Definition) := do
  expectPunct .semicolon "after declaration"
  return some d

/-- A member of a value type that is a field or an operation. -/
def typedMember (l : Lead) : Parser Definition := do
  if ← isKeyword .void then
    let o ← operation l
    expectPunct .semicolon "after operation"
    return .operation o
  let type ← typeSpec
  let name ← identifier "in valuetype member"
  if ← isPunct .openParen then
    checkUsable type
    let o ← operationOf l type name
    expectPunct .semicolon "after operation"
    return .operation o
  let first := Declarator.ofDimensions name (← dimensions)
  let more ← commaMore declarator
  expectPunct .semicolon "after member"
  return .field ⟨type, first :: more, l.properties⟩

/-- A round of the nesting of value types. A constructed type that is followed by declarators
    is the type of a field, which loses its lead to the type. -/
def valueMemberRound (member : Unit → Parser (Option Definition)) (_ : Unit) :
    Parser (Option Definition) := do
  let l ← lead
  let _ ← peek
  if let some d ← bare? l then return d
  if let some (type, d) ← constructed? typeSpec l.properties then
    if ← isPunct .semicolon then return ← ended d
    return some (.field (← fieldOf type []))
  if let some d ← declaration? (valueTypeOf (member ())) l then return ← ended d
  if ← isKeyword .attribute then return ← ended (.attribute (← attributes l))
  return some (← typedMember l)

/-- A member of a value type. Model of `parse_value_member`. -/
def valueMember : Parser (Option Definition) := recurse valueMemberRound ()

/-- A value type. Model of `parse_value_type`. -/
def valueType (l : Lead) : Parser ValueType := valueTypeOf valueMember l

/-! ## Interfaces -/

/-- A member of an interface. -/
def interfaceMember : Parser (Option Definition) := do
  let l ← lead
  let _ ← peek
  if let some d ← bare? l then return d
  if let some d ← declarationOrType? valueType l then return ← ended d
  if ← isKeyword .attribute then return ← ended (.attribute (← attributes l))
  ended (.operation (← operation l))

/-- The built-in interface that has the name, in any case. -/
def builtinInterface? (name : Text) : Option BasicType :=
  if name.map Char.toLower == "object".toList then some .object
  else if name.map Char.toLower == "typecode".toList then some .typeCode
  else none

/-- The name of an interface. The names of built-in interfaces are keywords, but they
    get a message of their own. -/
def interfaceName : Parser Text := do
  let t ← peek
  match t.kind with
  | .identifier | .keyword .object | .keyword .typeCode =>
    let _ ← take
    match builtinInterface? t.text with
    | some builtin => fail (.builtinInterfaceName builtin)
    | none => return t.text
  | _ => unexpected .interfaceName

/-- An interface, or the announcement of one. Model of `parse_interface`. -/
def interface (l : Lead) : Parser Interface := do
  if !l.modifiers.isEmpty then fail .modifiedInterface
  expectKeyword .interface "to start interface"
  let name ← interfaceName
  let inherits ← isPunct .colon
  let opens ← isPunct .openBrace
  if !inherits && !opens then return ⟨name, l.properties, none, none⟩
  let supers ← if ← acceptPunct .colon then scopedNames else pure []
  expectPunct .openBrace "before interface body"
  let members ← manyUntil .closeBrace interfaceMember
  return ⟨name, l.properties, some supers, some (members.filterMap id)⟩

/-! ## Modules -/

/-- The text that a recorded `prefix` pragma puts in front of the name of a module. The pragma is
    used up. Model of `take_module_prefix`. -/
def modulePrefix : Parser Text := do
  let s ← get
  let (pragma, lexer) := s.lexer.takePragma "prefix".toList
  set { s with lexer }
  match pragma.bind Pragma.value with
  | none => return []
  | some value =>
    match pragmaBody? value with
    | none => fail (.invalidModulePrefix value)
    | some [] => return []
    | some body => return body ++ ['.']

/-- A module whose definitions are read by `definition`. Model of `parse_module`. -/
def moduleOf (definition : Parser (Option Definition)) : Parser Module := do
  expectKeyword .module "to start module"
  let name ← identifier "after 'module'"
  let before ← modulePrefix
  expectPunct .openBrace "after module name"
  let definitions ← manyUntil .closeBrace definition
  return ⟨before ++ name, definitions.filterMap id⟩

/-- A definition that may have a lead. -/
def interfaceOrDeclaration (l : Lead) : Parser (Option Definition) := do
  if ← isKeyword .interface then return ← ended (.interface (← interface l))
  if let some d ← declarationOrType? valueType l then return ← ended d
  unexpected .definition

/-- The rest of a definition behind its lead, where `t` is the next token. -/
def afterLead (definition : Parser (Option Definition)) (l : Lead) (t : Token) :
    Parser (Option Definition) := do
  if let some d ← bare? l then return d
  if l.isEmpty then
    match t.kind with
    | .keyword .module =>
      let m ← moduleOf definition
      expectPunct .semicolon "after module"
      return some (.module m)
    | .identifier | .punct .scope =>
      let _ ← scopedName
      return none
    | _ => pure ()
  interfaceOrDeclaration l

/-- A round of the nesting of definitions. Model of `parse_body_item`. -/
def definitionRound (definition : Unit → Parser (Option Definition)) (_ : Unit) :
    Parser (Option Definition) := do
  afterLead (definition ()) (← lead) (← peek)

/-- A definition of a specification or a module. Model of `parse_definition`. -/
def definition : Parser (Option Definition) := recurse definitionRound ()

/-- A definition, unless the text is over. -/
def nextDefinition : Parser (Option (Option Definition)) := do
  match ← peek? with
  | none => return none
  | some _ => return some (← definition)

/-- A whole specification. Model of `parse_specification`. -/
def specification : Parser Specification := do
  let definitions ← many nextDefinition
  return ⟨definitions.filterMap id⟩

end Parser

end IdlFrontend
