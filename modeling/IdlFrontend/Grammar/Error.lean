import IdlFrontend.Syntax.Definition
import IdlFrontend.Token.Lexer

/-!
# What can go wrong while parsing

A parse fails for one cause, which is a token that cannot stand where it is, a rule
of the language that is broken, or a stretch of text that is no token. The wording
of the causes is in one place, `SyntaxFault.message`.
-/

namespace IdlFrontend

/-- What could have stood in the place of a token. -/
inductive Expectation where
  /-- A token of one kind, at a place that the text describes. -/
  | token (kind : TokenKind) (place : String)
  | definition
  | interfaceName
  | type
  | parameterType
  /-- The rest of a type after `unsigned`. -/
  | unsignedWidth
  | caseLabel
  | expression
  | propertyValue
deriving DecidableEq, Repr

/-- How messages describe what was expected. -/
def Expectation.description : Expectation → String
  | token kind place => s!"{kind.description} {place}"
  | definition => "a definition"
  | interfaceName => "interface name"
  | type => "a type"
  | parameterType => "a parameter type"
  | unsignedWidth => "'short' or 'long' after 'unsigned'"
  | caseLabel => "'case' or 'default'"
  | expression => "an expression"
  | propertyValue => "property value"

/-- The causes of failure. -/
inductive SyntaxFault where
  | unexpectedEnd
  | unexpected (expected : Expectation) (found : Text)
  | repeatedModifier (modifier : Modifier)
  | repeatedProperty (key : Text)
  | repeatedDirection (direction : Direction)
  | modifiedInterface
  /-- An interface cannot have the name of one of the two built-in interfaces. -/
  | builtinInterfaceName (name : BasicType)
  | invalidModulePrefix (value : Text)
  | illegalSelector (type : TypeSpec)
  | illegalConstantType (type : Text)
  | illegalParameterType (type : TypeSpec)
  | typedVarargsNotAlone
  | outwardVarargs
  | missingDirection
  | unusableDefault
deriving DecidableEq

/-- The wording of a cause. -/
def SyntaxFault.message : SyntaxFault → String
  | unexpectedEnd => "Unexpected end of input"
  | unexpected expected found =>
    s!"Syntax error: expected {expected.description}, found '{String.ofList found}'"
  | repeatedModifier modifier => s!"Duplicate `{modifier.spelling}' modifier"
  | repeatedProperty key => s!"Property `{String.ofList key}' applied more than once"
  | repeatedDirection direction => s!"Duplicate parameter attribute `{direction.spelling}'"
  | modifiedInterface => "No modifiers are allowed for interface"
  | builtinInterfaceName name => s!"Interfaces cannot be named `{name.spelling}'"
  | invalidModulePrefix value =>
    s!"Invalid value specified for #pragma prefix: {String.ofList value}"
  | illegalSelector type => s!"Illegal union switch type `{String.ofList type.text}'"
  | illegalConstantType type => s!"Illegal type specified for constant `{String.ofList type}'"
  | illegalParameterType type =>
    s!"Illegal type specified for parameter or attribute: {String.ofList type.text}"
  | typedVarargsNotAlone => "Typed variable arguments must be the only parameter"
  | outwardVarargs => "`out' direction specified for a typed variable argument"
  | missingDirection => "Missing direction attribute"
  | unusableDefault => "Default value present for non-optional parameter"

/-- A failure of the grammar. There is no line where the text ends too early. -/
structure SyntaxError where
  fault : SyntaxFault
  line : Option UInt64
deriving DecidableEq

namespace SyntaxError

/-- The message without the line. -/
def message (e : SyntaxError) : String := e.fault.message

/-- The message followed by the line, if there is one. -/
def display (e : SyntaxError) : String := withLine e.message (e.line.map UInt64.toNat)

end SyntaxError

/-- A failure while parsing. -/
inductive ParseError where
  | token (e : LexicalError)
  | grammar (e : SyntaxError)
deriving DecidableEq

end IdlFrontend
