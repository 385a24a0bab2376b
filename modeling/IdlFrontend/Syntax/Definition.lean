import IdlFrontend.Syntax.TypeSpec

/-!
# Definitions

What a specification is made of. Modules, interfaces and value types contain
definitions themselves.

Results:

* `Definition.same_iff`: the comparison of definitions decides their equality.
-/

namespace IdlFrontend

/-! ## Declarations without definitions in them -/

/-- Another name for a type. -/
structure TypeDef where
  type : TypeSpec
  declarators : List Declarator
  properties : List Property
deriving DecidableEq

/-- A type that is defined elsewhere. Model of `NativeDecl`. -/
structure NativeType where
  name : Text
  /-- The raw text between the parentheses, if there are any. -/
  raw : Option Text
  properties : List Property
deriving DecidableEq

/-- An exception. Model of `ExceptionDecl`. -/
structure ExceptionType where
  name : Text
  fields : List Field
  properties : List Property
deriving DecidableEq

/-- A named constant. Model of `ConstDecl`. -/
structure Constant where
  name : Text
  type : TypeSpec
  value : ConstExpr
  properties : List Property
deriving DecidableEq

/-- The name of an attribute with the exceptions that reading and writing it raise. Model of
    `AttrDeclarator`. -/
structure AttributeName where
  name : Text
  getterRaises : List ScopedName
  setterRaises : List ScopedName
deriving DecidableEq

/-- Attributes of one type. Model of `AttrDef`. -/
structure Attribute where
  type : TypeSpec
  readonly : Bool
  nullable : Bool
  names : List AttributeName
  properties : List Property
deriving DecidableEq

/-- A word in front of a declaration. -/
inductive Modifier where
  | oneway
  | readonly
deriving DecidableEq, Repr

/-- How a modifier is written. -/
def Modifier.spelling : Modifier → String
  | oneway => "oneway"
  | readonly => "readonly"

/-- Which way the value of a parameter goes, or that it can be left out. -/
inductive Direction where
  | inward
  | outward
  | optional
deriving DecidableEq, Repr

/-- How a direction is written. -/
def Direction.spelling : Direction → String
  | inward => "in"
  | outward => "out"
  | optional => "optional"

/-- A parameter of an operation. -/
structure Parameter where
  name : Text
  type : TypeSpec
  nullable : Bool
  directions : List Direction
  value? : Option ConstExpr
  properties : List Property
deriving DecidableEq

/-- Whether the parameter can be left out. Model of `is_optional`. -/
def Parameter.isOptional (p : Parameter) : Bool := p.directions.contains .optional

/-- The parameter that stands for variable arguments. No identifier is a star. Model of
    `untyped_varargs`. -/
def Parameter.variable (type : TypeSpec) (nullable : Bool) (properties : List Property) :
    Parameter :=
  ⟨['*'], type, nullable, [.inward], none, properties⟩

/-- An operation. Model of `OperationDef`. -/
structure Operation where
  name : Text
  returnType : TypeSpec
  parameters : List Parameter
  /-- The variable arguments behind the parameters, if there are any. -/
  varargs : Option Parameter
  raises : Option (List ScopedName)
  modifiers : List Modifier
  /-- The bodies of the string literals of its context, if it has one. -/
  context : Option (List Text)
  properties : List Property
deriving DecidableEq

/-! ## Definitions -/

mutual

/-- A definition. -/
inductive Definition where
  | module (m : Module)
  | interface (i : Interface)
  | valueType (v : ValueType)
  | struct (type : StructType)
  | union (type : UnionType)
  | enum (type : EnumType)
  | typeDef (t : TypeDef)
  | native (n : NativeType)
  | exception (e : ExceptionType)
  | constant (c : Constant)
  | attribute (a : Attribute)
  | operation (o : Operation)
  | field (f : Field)
  /-- The raw text of a code fragment. -/
  | fragment (text : Text)

/-- A module. -/
structure Module where
  name : Text
  definitions : List Definition

/-- An interface, or the announcement of one. An announcement has neither bases nor a
    body, and what is more than announced has both, each of which may be empty. -/
structure Interface where
  name : Text
  properties : List Property
  supers : Option (List ScopedName)
  body : Option (List Definition)

/-- A value type. Its name, its base and its body can be missing. -/
structure ValueType where
  name : Option Text
  properties : List Property
  base : Option TypeSpec
  definitions : Option (List Definition)

end

/-- Whether the interface is only announced. Model of `is_forward`. -/
def Interface.isForward (i : Interface) : Bool := i.body.isNone

/-! ## Equality -/

mutual

/-- Whether two definitions are equal. -/
def Definition.same : Definition → Definition → Bool
  | .module a, .module b => a.same b
  | .interface a, .interface b => a.same b
  | .valueType a, .valueType b => a.same b
  | .struct a, .struct b => a == b
  | .union a, .union b => a == b
  | .enum a, .enum b => a == b
  | .typeDef a, .typeDef b => a == b
  | .native a, .native b => a == b
  | .exception a, .exception b => a == b
  | .constant a, .constant b => a == b
  | .attribute a, .attribute b => a == b
  | .operation a, .operation b => a == b
  | .field a, .field b => a == b
  | .fragment a, .fragment b => a == b
  | _, _ => false
termination_by structural a => a

/-- Whether two lists of definitions are equal. -/
def Definition.sameList : List Definition → List Definition → Bool
  | [], [] => true
  | a :: as, b :: bs => a.same b && Definition.sameList as bs
  | _, _ => false
termination_by structural a => a

/-- Whether two modules are equal. -/
def Module.same : Module → Module → Bool
  | ⟨n, ds⟩, ⟨n', ds'⟩ => n == n' && Definition.sameList ds ds'
termination_by structural a => a

/-- Whether two interfaces are equal. -/
def Interface.same : Interface → Interface → Bool
  | ⟨n, ps, ss, ds⟩, ⟨n', ps', ss', ds'⟩ =>
    n == n' && ps == ps' && ss == ss' && Definition.sameOption ds ds'
termination_by structural a => a

/-- Whether two lists of definitions are both missing or equal. -/
def Definition.sameOption : Option (List Definition) → Option (List Definition) → Bool
  | none, none => true
  | some as, some bs => Definition.sameList as bs
  | _, _ => false
termination_by structural a => a

/-- Whether two value types are equal. -/
def ValueType.same : ValueType → ValueType → Bool
  | ⟨n, ps, t, ds⟩, ⟨n', ps', t', ds'⟩ =>
    n == n' && ps == ps' && t == t' && Definition.sameOption ds ds'
termination_by structural a => a

end

mutual

theorem Definition.same_iff : ∀ a b : Definition, a.same b ↔ a = b
  | .module a, b => by cases b <;> simp [Definition.same, Module.same_iff a]
  | .interface a, b => by cases b <;> simp [Definition.same, Interface.same_iff a]
  | .valueType a, b => by cases b <;> simp [Definition.same, ValueType.same_iff a]
  | .struct _, b => by cases b <;> simp [Definition.same]
  | .union _, b => by cases b <;> simp [Definition.same]
  | .enum _, b => by cases b <;> simp [Definition.same]
  | .typeDef _, b => by cases b <;> simp [Definition.same]
  | .native _, b => by cases b <;> simp [Definition.same]
  | .exception _, b => by cases b <;> simp [Definition.same]
  | .constant _, b => by cases b <;> simp [Definition.same]
  | .attribute _, b => by cases b <;> simp [Definition.same]
  | .operation _, b => by cases b <;> simp [Definition.same]
  | .field _, b => by cases b <;> simp [Definition.same]
  | .fragment _, b => by cases b <;> simp [Definition.same]

theorem Definition.sameList_iff :
    ∀ as bs : List Definition, Definition.sameList as bs ↔ as = bs
  | [], bs => by cases bs <;> simp [Definition.sameList]
  | a :: as, bs => by
    cases bs <;> simp [Definition.sameList, Definition.same_iff a, Definition.sameList_iff as]

theorem Module.same_iff : ∀ a b : Module, a.same b ↔ a = b
  | ⟨_, ds⟩, ⟨_, _⟩ => by simp [Module.same, Definition.sameList_iff ds]

theorem Interface.same_iff : ∀ a b : Interface, a.same b ↔ a = b
  | ⟨_, _, _, ds⟩, ⟨_, _, _, _⟩ => by
    simp [Interface.same, Definition.sameOption_iff ds, and_assoc]

theorem Definition.sameOption_iff :
    ∀ a b : Option (List Definition), Definition.sameOption a b ↔ a = b
  | none, b => by cases b <;> simp [Definition.sameOption]
  | some as, b => by cases b <;> simp [Definition.sameOption, Definition.sameList_iff as]

theorem ValueType.same_iff : ∀ a b : ValueType, a.same b ↔ a = b
  | ⟨_, _, _, ds⟩, ⟨_, _, _, _⟩ => by
    simp [ValueType.same, Definition.sameOption_iff ds, and_assoc]

end

instance : DecidableEq Definition := fun a b => decidable_of_iff _ (Definition.same_iff a b)

instance : DecidableEq Module := fun a b => decidable_of_iff _ (Module.same_iff a b)

instance : DecidableEq Interface := fun a b => decidable_of_iff _ (Interface.same_iff a b)

instance : DecidableEq ValueType := fun a b => decidable_of_iff _ (ValueType.same_iff a b)

/-- The definitions of a source, in their order. -/
structure Specification where
  definitions : List Definition
deriving DecidableEq

end IdlFrontend
