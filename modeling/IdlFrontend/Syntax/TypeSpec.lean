import IdlFrontend.Syntax.ConstExpr

/-!
# Types and fields

A type is basic, named, a template, or constructed on the spot. Constructed types
have fields, and fields have types.

Results:

* `TypeSpec.same_iff`: the comparison of types decides their equality.
-/

namespace IdlFrontend

/-! ## Properties and declarators -/

/-- The value of a property. -/
inductive PropertyValue where
  /-- The raw text between the parentheses of `key(args)`. -/
  | args (text : Text)
  | word (name : Text)
  /-- The form `key=name(args)`. -/
  | call (name args : Text)
  | literal (value : Literal)
deriving DecidableEq, Repr

/-- An annotation in brackets in front of a declaration. -/
structure Property where
  key : Text
  value : Option PropertyValue
deriving DecidableEq, Repr

/-- An array that is declared. A dimension can lack its size. -/
structure ArrayType where
  name : Text
  dimensions : List (Option ConstExpr)
deriving DecidableEq, Repr

/-- What declares a name, alone or as that of an array. -/
inductive Declarator where
  | simple (name : Text)
  | array (type : ArrayType)
deriving DecidableEq, Repr

namespace Declarator

/-- The name that is declared. -/
def name : Declarator → Text
  | .simple name => name
  | .array type => type.name

/-- The declarator of a name with dimensions behind it. -/
def ofDimensions (name : Text) : List (Option ConstExpr) → Declarator
  | [] => .simple name
  | dimensions => .array ⟨name, dimensions⟩

@[simp] theorem name_ofDimensions (name : Text) (dimensions : List (Option ConstExpr)) :
    (ofDimensions name dimensions).name = name := by
  cases dimensions <;> rfl

end Declarator

/-! ## Types -/

/-- The types that have a keyword or a row of keywords to themselves. -/
inductive BasicType where
  | float
  | double
  | longDouble
  | short
  | long
  | longLong
  | unsignedShort
  | unsignedLong
  | unsignedLongLong
  | char
  | wchar
  | boolean
  | octet
  | any
  | object
  | typeCode
  | void
  /-- A fixed-point constant, whose digits its value tells. -/
  | fixed
deriving DecidableEq, Repr

/-- How a basic type is written. -/
def BasicType.spelling : BasicType → String
  | float => "float"
  | double => "double"
  | longDouble => "long double"
  | short => "short"
  | long => "long"
  | longLong => "long long"
  | unsignedShort => "unsigned short"
  | unsignedLong => "unsigned long"
  | unsignedLongLong => "unsigned long long"
  | char => "char"
  | wchar => "wchar"
  | boolean => "boolean"
  | octet => "octet"
  | any => "any"
  | object => "Object"
  | typeCode => "TypeCode"
  | void => "void"
  | fixed => "fixed"

/-- An enumeration, which may lack a name. Model of `EnumDef`. -/
structure EnumType where
  name : Option Text
  properties : List Property
  enumerators : List Text
deriving DecidableEq, Repr

/-- A label of a case of a union. -/
inductive CaseLabel where
  | value (value : ConstExpr)
  | default
deriving DecidableEq, Repr

mutual

/-- A type. -/
inductive TypeSpec where
  | basic (type : BasicType)
  | named (name : ScopedName)
  | fixedPoint (precision scale : ConstExpr)
  | sequence (element : TypeSpec) (bound : Option ConstExpr)
  | string (wide : Bool) (bound : Option ConstExpr)
  | struct (type : StructType)
  | union (type : UnionType)
  | enum (type : EnumType)

/-- A field of a structure, an exception, a union or a value type. Model of `FieldDef`. -/
structure Field where
  type : TypeSpec
  declarators : List Declarator
  properties : List Property

/-- A structure, which may lack a name. Model of `StructDef`. -/
structure StructType where
  name : Option Text
  properties : List Property
  fields : List Field

/-- A case of a union: its labels and what they select. -/
structure UnionCase where
  labels : List CaseLabel
  element : Field

/-- A union, which may lack a name. Model of `UnionDef`. -/
structure UnionType where
  name : Option Text
  properties : List Property
  selector : TypeSpec
  cases : List UnionCase

end

/-! ## Equality -/

mutual

/-- Whether two types are equal. -/
def TypeSpec.same : TypeSpec → TypeSpec → Bool
  | .basic a, .basic b => a == b
  | .named a, .named b => a == b
  | .fixedPoint p s, .fixedPoint p' s' => p == p' && s == s'
  | .sequence t n, .sequence t' n' => t.same t' && n == n'
  | .string w n, .string w' n' => w == w' && n == n'
  | .struct a, .struct b => a.same b
  | .union a, .union b => a.same b
  | .enum a, .enum b => a == b
  | _, _ => false
termination_by structural a => a

/-- Whether two fields are equal. -/
def Field.same : Field → Field → Bool
  | ⟨t, ds, ps⟩, ⟨t', ds', ps'⟩ => t.same t' && ds == ds' && ps == ps'
termination_by structural a => a

/-- Whether two lists of fields are equal. -/
def Field.sameList : List Field → List Field → Bool
  | [], [] => true
  | f :: fs, g :: gs => f.same g && Field.sameList fs gs
  | _, _ => false
termination_by structural a => a

/-- Whether two structures are equal. -/
def StructType.same : StructType → StructType → Bool
  | ⟨n, ps, fs⟩, ⟨n', ps', fs'⟩ => n == n' && ps == ps' && Field.sameList fs fs'
termination_by structural a => a

/-- Whether two cases are equal. -/
def UnionCase.same : UnionCase → UnionCase → Bool
  | ⟨ls, e⟩, ⟨ls', e'⟩ => ls == ls' && e.same e'
termination_by structural a => a

/-- Whether two lists of cases are equal. -/
def UnionCase.sameList : List UnionCase → List UnionCase → Bool
  | [], [] => true
  | c :: cs, d :: ds => c.same d && UnionCase.sameList cs ds
  | _, _ => false
termination_by structural a => a

/-- Whether two unions are equal. -/
def UnionType.same : UnionType → UnionType → Bool
  | ⟨n, ps, t, cs⟩, ⟨n', ps', t', cs'⟩ =>
    n == n' && ps == ps' && t.same t' && UnionCase.sameList cs cs'
termination_by structural a => a

end

mutual

theorem TypeSpec.same_iff : ∀ a b : TypeSpec, a.same b ↔ a = b
  | .basic _, b => by cases b <;> simp [TypeSpec.same]
  | .named _, b => by cases b <;> simp [TypeSpec.same]
  | .fixedPoint _ _, b => by cases b <;> simp [TypeSpec.same]
  | .sequence t _, b => by cases b <;> simp [TypeSpec.same, TypeSpec.same_iff t]
  | .string _ _, b => by cases b <;> simp [TypeSpec.same]
  | .struct a, b => by cases b <;> simp [TypeSpec.same, StructType.same_iff a]
  | .union a, b => by cases b <;> simp [TypeSpec.same, UnionType.same_iff a]
  | .enum _, b => by cases b <;> simp [TypeSpec.same]

theorem Field.same_iff : ∀ a b : Field, a.same b ↔ a = b
  | ⟨t, _, _⟩, ⟨_, _, _⟩ => by simp [Field.same, TypeSpec.same_iff t, and_assoc]

theorem Field.sameList_iff : ∀ as bs : List Field, Field.sameList as bs ↔ as = bs
  | [], bs => by cases bs <;> simp [Field.sameList]
  | a :: as, bs => by cases bs <;> simp [Field.sameList, Field.same_iff a, Field.sameList_iff as]

theorem StructType.same_iff : ∀ a b : StructType, a.same b ↔ a = b
  | ⟨_, _, fs⟩, ⟨_, _, _⟩ => by simp [StructType.same, Field.sameList_iff fs, and_assoc]

theorem UnionCase.same_iff : ∀ a b : UnionCase, a.same b ↔ a = b
  | ⟨_, e⟩, ⟨_, _⟩ => by simp [UnionCase.same, Field.same_iff e]

theorem UnionCase.sameList_iff : ∀ as bs : List UnionCase, UnionCase.sameList as bs ↔ as = bs
  | [], bs => by cases bs <;> simp [UnionCase.sameList]
  | a :: as, bs => by
    cases bs <;> simp [UnionCase.sameList, UnionCase.same_iff a, UnionCase.sameList_iff as]

theorem UnionType.same_iff : ∀ a b : UnionType, a.same b ↔ a = b
  | ⟨_, _, t, cs⟩, ⟨_, _, _, _⟩ => by
    simp [UnionType.same, TypeSpec.same_iff t, UnionCase.sameList_iff cs, and_assoc]

end

instance : DecidableEq TypeSpec := fun a b => decidable_of_iff _ (TypeSpec.same_iff a b)

instance : DecidableEq Field := fun a b => decidable_of_iff _ (Field.same_iff a b)

instance : DecidableEq StructType := fun a b => decidable_of_iff _ (StructType.same_iff a b)

instance : DecidableEq UnionType := fun a b => decidable_of_iff _ (UnionType.same_iff a b)

/-! ## Naming types -/

/-- A name for a type that may lack one. Model of `anonymous`. -/
def nameOrAnonymous (name : Option Text) : Text := name.getD "<anonymous>".toList

/-- How messages and outlines call a type. Sizes and members are left out. -/
def TypeSpec.text : TypeSpec → Text
  | .basic type => type.spelling.toList
  | .named name => name.text
  | .fixedPoint _ _ => "fixed<>".toList
  | .sequence element _ => "sequence<".toList ++ element.text ++ ['>']
  | .string wide _ => if wide then "wstring".toList else "string".toList
  | .struct type => "struct ".toList ++ nameOrAnonymous type.name
  | .union type => "union ".toList ++ nameOrAnonymous type.name
  | .enum type => "enum ".toList ++ nameOrAnonymous type.name

end IdlFrontend
