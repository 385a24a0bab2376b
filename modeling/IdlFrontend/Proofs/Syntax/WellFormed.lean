import IdlFrontend.Syntax.Definition
import IdlFrontend.Token.Keyword

/-!
# Well-formed specifications

What can be relied on in every specification that was read, at every depth: which lists
have an item and which have none twice, and where a type, a name or a default value may
stand. Only the rules about directions differ between the dialects.
-/

namespace IdlFrontend

/-- No two of the properties have the same key. -/
def Property.Distinct (properties : List Property) : Prop := (properties.map Property.key).Nodup

/-! ## Types -/

namespace TypeSpec

/-- The type is a sequence. -/
def IsSequence : TypeSpec → Prop
  | .sequence _ _ => True
  | _ => False

/-- A value of the type can select a case of a union. -/
def IsSelector : TypeSpec → Prop
  | .basic type =>
    type ∈ [BasicType.short, .long, .longLong, .unsignedShort, .unsignedLong, .unsignedLongLong,
      .char, .boolean]
  | .named _ | .enum _ => True
  | _ => False

/-- A constant can be of the type. -/
def IsConstant : TypeSpec → Prop
  | .basic type => type ∉ [BasicType.any, .object, .typeCode, .void]
  | .named _ | .string _ _ => True
  | _ => False

end TypeSpec

/-- What holds of a declarator: an array has a dimension. -/
def Declarator.WellFormed : Declarator → Prop
  | .simple _ => True
  | .array type => type.dimensions ≠ []

/-- What holds of an enumeration. -/
structure EnumType.WellFormed (e : EnumType) : Prop where
  properties : Property.Distinct e.properties
  enumerators : e.enumerators ≠ []

mutual

/-- What holds of a type. -/
inductive TypeSpec.WellFormed : TypeSpec → Prop
  | basic (type : BasicType) : (TypeSpec.basic type).WellFormed
  | named (name : ScopedName) : (TypeSpec.named name).WellFormed
  | fixedPoint (precision scale : ConstExpr) : (TypeSpec.fixedPoint precision scale).WellFormed
  | sequence {element : TypeSpec} (bound : Option ConstExpr) (h : element.WellFormed) :
    (TypeSpec.sequence element bound).WellFormed
  | string (wide : Bool) (bound : Option ConstExpr) : (TypeSpec.string wide bound).WellFormed
  | struct {type : StructType} (h : type.WellFormed) : (TypeSpec.struct type).WellFormed
  | union {type : UnionType} (h : type.WellFormed) : (TypeSpec.union type).WellFormed
  | enum {type : EnumType} (h : type.WellFormed) : (TypeSpec.enum type).WellFormed

/-- What holds of a field. -/
inductive Field.WellFormed : Field → Prop
  | intro {f : Field} (type : f.type.WellFormed) (nonempty : f.declarators ≠ [])
    (declarators : ∀ d ∈ f.declarators, d.WellFormed)
    (properties : Property.Distinct f.properties) : f.WellFormed

/-- What holds of a structure. -/
inductive StructType.WellFormed : StructType → Prop
  | intro {s : StructType} (properties : Property.Distinct s.properties)
    (fields : ∀ f ∈ s.fields, f.WellFormed) : s.WellFormed

/-- What holds of a case of a union. -/
inductive UnionCase.WellFormed : UnionCase → Prop
  | intro {c : UnionCase} (labels : c.labels ≠ []) (element : c.element.WellFormed)
    (single : c.element.declarators.length = 1) : c.WellFormed

/-- What holds of a union. -/
inductive UnionType.WellFormed : UnionType → Prop
  | intro {u : UnionType} (properties : Property.Distinct u.properties)
    (selector : u.selector.WellFormed) (isSelector : u.selector.IsSelector)
    (nonempty : u.cases ≠ []) (cases : ∀ c ∈ u.cases, c.WellFormed) : u.WellFormed

end

/-! ## Declarations without definitions in them -/

/-- What holds of another name for a type. -/
structure TypeDef.WellFormed (t : TypeDef) : Prop where
  type : t.type.WellFormed
  nonempty : t.declarators ≠ []
  declarators : ∀ d ∈ t.declarators, d.WellFormed
  properties : Property.Distinct t.properties

/-- What holds of an exception. -/
structure ExceptionType.WellFormed (e : ExceptionType) : Prop where
  fields : ∀ f ∈ e.fields, f.WellFormed
  properties : Property.Distinct e.properties

/-- What holds of a constant. -/
structure Constant.WellFormed (c : Constant) : Prop where
  type : c.type.WellFormed
  isConstant : c.type.IsConstant
  properties : Property.Distinct c.properties

/-- What holds of attributes of one type. -/
structure Attribute.WellFormed (a : Attribute) : Prop where
  type : a.type.WellFormed
  not_sequence : ¬a.type.IsSequence
  names : a.names ≠ []
  properties : Property.Distinct a.properties

/-- What holds of a parameter, whether it has a name or stands for variable arguments. -/
structure Parameter.WellFormed (p : Parameter) : Prop where
  type : p.type.WellFormed
  not_sequence : ¬p.type.IsSequence
  directions : p.directions.Nodup
  default_only_optional : p.value?.isSome → .optional ∈ p.directions
  properties : Property.Distinct p.properties

/-- What holds of a parameter with a name. One dialect asks for a direction and has no
    word for what can be left out. -/
structure Parameter.IsNamed (dialect : Dialect) (p : Parameter) : Prop where
  name_ne_star : p.name ≠ ['*']
  directed : dialect = .omg → .inward ∈ p.directions ∨ .outward ∈ p.directions
  not_optional : dialect = .omg → .optional ∉ p.directions

/-- What holds of a parameter that stands for variable arguments. -/
structure Parameter.IsVariable (p : Parameter) : Prop where
  name : p.name = ['*']
  directions : p.directions = [.inward]
  no_default : p.value? = none

/-- What holds of an operation. -/
structure Operation.WellFormed (dialect : Dialect) (o : Operation) : Prop where
  returnType : o.returnType.WellFormed
  not_sequence : ¬o.returnType.IsSequence
  parameters : ∀ p ∈ o.parameters, p.WellFormed ∧ p.IsNamed dialect
  varargs : ∀ p ∈ o.varargs, p.WellFormed ∧ p.IsVariable
  modifiers : o.modifiers.Nodup
  properties : Property.Distinct o.properties

/-! ## Definitions -/

mutual

/-- What holds of a definition. -/
inductive Definition.WellFormed (dialect : Dialect) : Definition → Prop
  | module {m : Module} (h : m.WellFormed dialect) : (Definition.module m).WellFormed dialect
  | interface {i : Interface} (h : i.WellFormed dialect) :
    (Definition.interface i).WellFormed dialect
  | valueType {v : ValueType} (h : v.WellFormed dialect) :
    (Definition.valueType v).WellFormed dialect
  | struct {type : StructType} (h : type.WellFormed) : (Definition.struct type).WellFormed dialect
  | union {type : UnionType} (h : type.WellFormed) : (Definition.union type).WellFormed dialect
  | enum {type : EnumType} (h : type.WellFormed) : (Definition.enum type).WellFormed dialect
  | typeDef {t : TypeDef} (h : t.WellFormed) : (Definition.typeDef t).WellFormed dialect
  | native {n : NativeType} (properties : Property.Distinct n.properties) :
    (Definition.native n).WellFormed dialect
  | exception {e : ExceptionType} (h : e.WellFormed) : (Definition.exception e).WellFormed dialect
  | constant {c : Constant} (h : c.WellFormed) : (Definition.constant c).WellFormed dialect
  | attribute {a : Attribute} (h : a.WellFormed) : (Definition.attribute a).WellFormed dialect
  | operation {o : Operation} (h : o.WellFormed dialect) :
    (Definition.operation o).WellFormed dialect
  | field {f : Field} (h : f.WellFormed) : (Definition.field f).WellFormed dialect
  | fragment (text : Text) : (Definition.fragment text).WellFormed dialect

/-- What holds of a module. -/
inductive Module.WellFormed (dialect : Dialect) : Module → Prop
  | intro {m : Module} (definitions : ∀ d ∈ m.definitions, d.WellFormed dialect) :
    m.WellFormed dialect

/-- What holds of an interface. Its name is in no case that of a built-in one, and it has
    a list of bases exactly if it has a body. -/
inductive Interface.WellFormed (dialect : Dialect) : Interface → Prop
  | intro {i : Interface} (ne_object : i.name.map Char.toLower ≠ "object".toList)
    (ne_typeCode : i.name.map Char.toLower ≠ "typecode".toList)
    (properties : Property.Distinct i.properties)
    (body_iff_supers : i.body.isSome ↔ i.supers.isSome)
    (definitions : ∀ ds ∈ i.body, ∀ d ∈ ds, d.WellFormed dialect) : i.WellFormed dialect

/-- What holds of a value type. -/
inductive ValueType.WellFormed (dialect : Dialect) : ValueType → Prop
  | intro {v : ValueType} (properties : Property.Distinct v.properties)
    (base : ∀ t ∈ v.base, t.WellFormed)
    (definitions : ∀ ds ∈ v.definitions, ∀ d ∈ ds, d.WellFormed dialect) : v.WellFormed dialect

end

/-- What holds of a specification. -/
def Specification.WellFormed (dialect : Dialect) (s : Specification) : Prop :=
  ∀ d ∈ s.definitions, d.WellFormed dialect

end IdlFrontend
