import IdlFrontend.Grammar.Expr

/-!
# Types, declarators and properties

    type       = struct | union | enum | simple
    simple     = basic | name | "sequence" "<" simple ["," expr] ">"
               | ("string" | "wstring") ["<" expr ">"] | "fixed" "<" expr "," integer ">"
    struct     = "struct" [identifier] "{" field* "}"
    field      = lead type declarator ("," declarator)* ";"
    union      = "union" [identifier] "switch" "(" selector ")" "{" case+ "}"
    case       = ("case" expr ":" | "default" ":")+ type declarator ";"
    enum       = "enum" [identifier] "{" identifier ("," identifier)* "}"
    declarator = identifier ("[" [expr] "]")*
    lead       = ("oneway" | "readonly" | "[" [property ("," property)* [","]] "]")*
    property   = identifier [args | "=" value]

A property list is read in a mode of its own, which the lexer leaves at the closing
bracket.
-/

namespace IdlFrontend

/-- What can stand in front of a declaration. Model of `Prefix`. -/
structure Lead where
  modifiers : List Modifier := []
  properties : List Property := []
deriving DecidableEq, Repr

/-- Whether nothing stands in front of the declaration. Model of `is_empty`. -/
def Lead.isEmpty (l : Lead) : Bool := l.modifiers.isEmpty && l.properties.isEmpty

/-- The raw text without the parentheses around it. Model of `strip_parens`. -/
def parenthesizedBody (cs : Text) : Text :=
  match cs with
  | '(' :: rest => if rest.getLast? = some ')' then rest.dropLast else cs
  | _ => cs

namespace Parser

/-! ## Properties and modifiers -/

/-- The value of a property behind its key, if there is one. Model of `parse_property_value`. -/
def propertyValue? : Parser (Option PropertyValue) := do
  if ← isNext .propertyArgs then
    return some (.args (parenthesizedBody (← take).text))
  if ← acceptPunct .equal then
    let t ← take
    if t.kind = .identifier then
      if ← isNext .propertyArgs then
        return some (.call t.text (parenthesizedBody (← take).text))
      return some (.word t.text)
    match literal? t with
    | some literal => return some (.literal literal)
    | none => fail (.unexpected .propertyValue t.text)
  return none

/-- What stands behind the properties of a list that are read: a comma and more of them, or
    the closing bracket. -/
def propertyNext (more : List Property → Parser (List Property)) (properties : List Property) :
    Parser (List Property) := do
  if ← acceptPunct .comma then more properties
  else
    expectPunct .closeBracket "to close property list"
    return properties

/-- A round of the properties of a list. No two may have the same key. -/
def propertyRound (more : List Property → Parser (List Property)) (before : List Property) :
    Parser (List Property) := do
  if ← acceptPunct .closeBracket then return before
  let key ← identifier "for property name"
  let value ← propertyValue?
  if before.any (·.key == key) then fail (.repeatedProperty key)
  propertyNext more (before ++ [⟨key, value⟩])

/-- Properties up to a closing bracket, behind the properties `before`. -/
def propertiesAfter (before : List Property) : Parser (List Property) :=
  recurse propertyRound before

/-- A property list behind the properties `before`. Model of `parse_property_list`. -/
def propertyList (before : List Property) : Parser (List Property) := do
  expectPunct .openBracket "to start property list"
  modify fun s => { s with lexer := s.lexer.push .properties }
  propertiesAfter before

/-- The modifier that a kind of token is, if it is one. -/
def modifier? : TokenKind → Option Modifier
  | .keyword .oneway => some .oneway
  | .keyword .readonly => some .readonly
  | _ => none

/-- A round of what stands in front of a declaration. -/
def leadRound (more : Lead → Parser Lead) (l : Lead) : Parser Lead := do
  if ← isPunct .openBracket then
    more { l with properties := ← propertyList l.properties }
  else match (← kind?).bind modifier? with
    | none => return l
    | some m =>
      if l.modifiers.contains m then fail (.repeatedModifier m)
      let _ ← take
      more { l with modifiers := l.modifiers ++ [m] }

/-- Modifiers and property lists in any order. Model of `parse_modifiers_and_props`. -/
def lead : Parser Lead := recurse leadRound {}

/-! ## Declarators -/

/-- A dimension of an array. -/
def nextDimension : Parser (Option (Option ConstExpr)) := do
  if ← acceptPunct .openBracket then
    if ← acceptPunct .closeBracket then return some none
    let size ← constExpr
    expectPunct .closeBracket "after array size"
    return some (some size)
  else return none

/-- The dimensions of an array. -/
def dimensions : Parser (List (Option ConstExpr)) := many nextDimension

/-- A declarator. Model of `parse_declarator`. -/
def declarator : Parser Declarator := do
  let name ← identifier "in declarator"
  return .ofDimensions name (← dimensions)

/-- Declarators with commas between them. Model of `parse_declarator_list`. -/
def declarators : Parser (List Declarator) := commaList declarator

/-! ## Simple types -/

/-- The basic type that is written as one keyword, if the kind of token is one. -/
def basicType? : TokenKind → Option BasicType
  | .keyword .float => some .float
  | .keyword .double => some .double
  | .keyword .short => some .short
  | .keyword .char => some .char
  | .keyword .wchar => some .wchar
  | .keyword .boolean => some .boolean
  | .keyword .octet => some .octet
  | .keyword .any => some .any
  | .keyword .object => some .object
  | .keyword .typeCode => some .typeCode
  | _ => none

/-- The type behind the keyword `long`. Model of `parse_long_suffix`. -/
def longType : Parser BasicType := do
  if ← acceptKeyword .long then return .longLong
  if ← acceptKeyword .double then return .longDouble
  return .long

/-- The type behind the keyword `unsigned`. Model of `parse_unsigned_type`. -/
def unsignedType : Parser BasicType := do
  if ← acceptKeyword .short then return .unsignedShort
  if ← acceptKeyword .long then
    if ← acceptKeyword .long then return .unsignedLongLong
    return .unsignedLong
  unexpected .unsignedWidth

/-- What stands between the brackets of a sequence. Model of `parse_sequence_type`. -/
def sequenceType (simple : Parser TypeSpec) : Parser TypeSpec := do
  expectPunct .less "after 'sequence'"
  enterAngle
  let element ← simple
  let bound ← if ← acceptPunct .comma then some <$> constExpr else pure none
  closeAngle "to close sequence"
  return .sequence element bound

/-- The bound of a string, if it has one. Model of `parse_string_type`. -/
def stringType (wide : Bool) : Parser TypeSpec := do
  if ← acceptPunct .less then
    enterAngle
    let bound ← constExpr
    closeAngle "to close string bound"
    return .string wide (some bound)
  else return .string wide none

/-- What stands between the brackets of a fixed-point type. Model of `parse_fixed_type`. -/
def fixedType : Parser TypeSpec := do
  expectPunct .less "after 'fixed'"
  enterAngle
  let precision ← constExpr
  expectPunct .comma "after fixed precision"
  let scale ← expect .integer "for fixed scale"
  closeAngle "to close fixed type"
  return .fixedPoint precision (.literal (.integer scale.text))

/-- A round of the nesting of sequences. -/
def simpleRound (simple : Unit → Parser TypeSpec) (_ : Unit) : Parser TypeSpec := do
  let t ← peek
  match t.kind with
  | .identifier | .punct .scope => return .named (← scopedName)
  | .keyword .long => let _ ← take; return .basic (← longType)
  | .keyword .unsigned => let _ ← take; return .basic (← unsignedType)
  | .keyword .sequence => let _ ← take; sequenceType (simple ())
  | .keyword .string => let _ ← take; stringType false
  | .keyword .wstring => let _ ← take; stringType true
  | .keyword .fixed => let _ ← take; fixedType
  | kind => match basicType? kind with
    | none => unexpected .type
    | some type =>
      let _ ← take
      return .basic type

/-- A basic type, a name or a template. Model of `parse_simple_type_spec`. -/
def simpleType : Parser TypeSpec := recurse simpleRound ()

/-! ## Constructed types -/

/-- An enumeration. Model of `parse_enum`. -/
def enumType (properties : List Property) : Parser EnumType := do
  expectKeyword .enum "to start enum"
  let name ← identifier?
  expectPunct .openBrace "before enumerators"
  let first ← identifier "in enum"
  let more ← commaMore (identifier "after ','")
  expectPunct .closeBrace "after enumerators"
  return ⟨name, properties, first :: more⟩

/-- The fields that are declared with one type. Model of `parse_member_rest`. -/
def fieldOf (type : TypeSpec) (properties : List Property) : Parser Field := do
  let declarators ← declarators
  expectPunct .semicolon "after member"
  return ⟨type, declarators, properties⟩

/-- Fields of one type with what stands in front of them. Modifiers are dropped. Model of
    `parse_member`. -/
def field (type : Parser TypeSpec) : Parser Field := do
  let l ← lead
  fieldOf (← type) l.properties

/-- Fields up to the closing brace. Model of `parse_members`. -/
def fields (type : Parser TypeSpec) : Parser (List Field) := manyUntil .closeBrace (field type)

/-- A structure. Model of `parse_struct`. -/
def structType (type : Parser TypeSpec) (properties : List Property) : Parser StructType := do
  expectKeyword .struct "to start struct"
  let name ← identifier?
  expectPunct .openBrace "before struct body"
  return ⟨name, properties, ← fields type⟩

/-- Whether the cases of a union can be selected by a value of the type. -/
def isSelector : TypeSpec → Bool
  | .basic type =>
    [.short, .long, .longLong, .unsignedShort, .unsignedLong, .unsignedLongLong, .char,
      .boolean].contains type
  | .named _ | .enum _ => true
  | _ => false

/-- The type that selects the cases of a union. Model of `parse_switch_type`. -/
def selector : Parser TypeSpec := do
  if ← isKeyword .enum then return .enum (← enumType [])
  let type ← simpleType
  if isSelector type then return type else fail (.illegalSelector type)

/-- A label of a case. -/
def nextLabel : Parser (Option CaseLabel) := do
  if ← acceptKeyword .case then
    let value ← constExpr
    expectPunct .colon "after case label"
    return some (.value value)
  if ← acceptKeyword .default then
    expectPunct .colon "after 'default'"
    return some .default
  return none

/-- The labels of a case. There must be one. -/
def caseLabels : Parser (List CaseLabel) := do
  let labels ← many nextLabel
  if labels.isEmpty then unexpected .caseLabel else return labels

/-- A case of a union. Model of `parse_union_case`. -/
def unionCase (type : Parser TypeSpec) : Parser UnionCase := do
  let labels ← caseLabels
  let type ← type
  let declarator ← declarator
  expectPunct .semicolon "after union element"
  return ⟨labels, ⟨type, [declarator], []⟩⟩

/-- A union. Model of `parse_union`. -/
def unionType (type : Parser TypeSpec) (properties : List Property) : Parser UnionType := do
  expectKeyword .union "to start union"
  let name ← identifier?
  expectKeyword .switch "after union name"
  expectPunct .openParen "after 'switch'"
  let selector ← selector
  expectPunct .closeParen "after switch type"
  expectPunct .openBrace "before union body"
  let first ← unionCase type
  let more ← manyUntil .closeBrace (unionCase type)
  return ⟨name, properties, selector, first :: more⟩

/-- A structure, a union or an enumeration, if one comes next: as a type and as a definition.
    Model of `parse_constructed_type`. -/
def constructed? (type : Parser TypeSpec) (properties : List Property) :
    Parser (Option (TypeSpec × Definition)) := do
  match ← kind? with
  | some (.keyword .struct) =>
    let s ← structType type properties
    return some (.struct s, .struct s)
  | some (.keyword .union) =>
    let u ← unionType type properties
    return some (.union u, .union u)
  | some (.keyword .enum) =>
    let e ← enumType properties
    return some (.enum e, .enum e)
  | _ => return none

/-- A round of the nesting of constructed types. -/
def typeRound (type : Unit → Parser TypeSpec) (_ : Unit) : Parser TypeSpec := do
  match ← constructed? (type ()) [] with
  | some (constructed, _) => return constructed
  | none => simpleType

/-- A type. Model of `parse_type_spec`. -/
def typeSpec : Parser TypeSpec := recurse typeRound ()

/-- Whether a type can begin with a kind of token. Model of `starts_type_spec`. -/
def startsType : TokenKind → Bool
  | .identifier | .punct .scope => true
  | .keyword k =>
    [.long, .unsigned, .sequence, .string, .wstring, .fixed, .struct, .union, .enum].contains k ||
      (basicType? (.keyword k)).isSome
  | _ => false

end Parser

end IdlFrontend
