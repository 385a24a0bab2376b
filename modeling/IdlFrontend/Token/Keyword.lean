import IdlFrontend.Options

/-!
# Keywords

The words of the language that are no identifiers. A few belong to one dialect
only, and two of them have a second spelling.

Results:

* `ofText?_eq_some_iff`: a word is a keyword exactly if it is one of the
  spellings of a keyword of the dialect.
-/

namespace IdlFrontend

/-- The keywords of all dialects. The word `in` is `inward` here. -/
inductive Keyword where
  | any
  | attribute
  | boolean
  | case
  | char
  | const
  | context
  | default
  | double
  | enum
  | exception
  | false
  | fixed
  | float
  | inward
  | inout
  | interface
  | long
  | module
  | native
  | object
  | octet
  | oneway
  | optional
  | out
  | raises
  | readonly
  | sequence
  | short
  | string
  | struct
  | switch
  | true
  | typeCode
  | typeDef
  | union
  | unsigned
  | valueType
  | varargs
  | void
  | wchar
  | wstring
deriving DecidableEq, Repr

namespace Keyword

/-- Every keyword once. -/
def all : List Keyword :=
  [.any, .attribute, .boolean, .case, .char, .const, .context, .default, .double, .enum,
    .exception, .false, .fixed, .float, .inward, .inout, .interface, .long, .module, .native,
    .object, .octet, .oneway, .optional, .out, .raises, .readonly, .sequence, .short, .string,
    .struct, .switch, .true, .typeCode, .typeDef, .union, .unsigned, .valueType, .varargs, .void,
    .wchar, .wstring]

/-- The spelling that messages use. Model of `keyword_text`. -/
def spelling : Keyword → String
  | .any => "any"
  | .attribute => "attribute"
  | .boolean => "boolean"
  | .case => "case"
  | .char => "char"
  | .const => "const"
  | .context => "context"
  | .default => "default"
  | .double => "double"
  | .enum => "enum"
  | .exception => "exception"
  | .false => "false"
  | .fixed => "fixed"
  | .float => "float"
  | .inward => "in"
  | .inout => "inout"
  | .interface => "interface"
  | .long => "long"
  | .module => "module"
  | .native => "native"
  | .object => "object"
  | .octet => "octet"
  | .oneway => "oneway"
  | .optional => "optional"
  | .out => "out"
  | .raises => "raises"
  | .readonly => "readonly"
  | .sequence => "sequence"
  | .short => "short"
  | .string => "string"
  | .struct => "struct"
  | .switch => "switch"
  | .true => "true"
  | .typeCode => "typecode"
  | .typeDef => "typedef"
  | .union => "union"
  | .unsigned => "unsigned"
  | .valueType => "valuetype"
  | .varargs => "varargs"
  | .void => "void"
  | .wchar => "wchar"
  | .wstring => "wstring"

/-- The spelling that is accepted as well, for the two types that are written
    with a capital letter elsewhere. -/
def secondSpelling : Keyword → Option String
  | .object => some "Object"
  | .typeCode => some "TypeCode"
  | _ => none

/-- Whether a word is a spelling of the keyword. -/
def isSpelled (k : Keyword) (word : Text) : Bool :=
  k.spelling.toList == word || k.secondSpelling.any (·.toList == word)

/-- Whether a dialect has the keyword. In the other dialect its spelling is an
    ordinary identifier. -/
def isIn (dialect : Dialect) : Keyword → Bool
  | .char | .wchar => dialect == .omg
  | .optional => dialect == .web
  | _ => Bool.true

/-- The keyword that a word is in a dialect, if it is one. Model of `keyword`. -/
def ofText? (dialect : Dialect) (word : Text) : Option Keyword :=
  all.find? fun k => k.isIn dialect && k.isSpelled word

theorem mem_all (k : Keyword) : k ∈ all := by cases k <;> decide

/-- No word is a spelling of two keywords. -/
theorem eq_of_isSpelled {k l : Keyword} {word : Text} (hk : k.isSpelled word)
    (hl : l.isSpelled word) : k = l := by
  have spellings (k : Keyword) (h : k.isSpelled word) :
      ∃ s ∈ k.spelling :: k.secondSpelling.toList, s.toList = word := by
    simp only [isSpelled, Bool.or_eq_true, beq_iff_eq, Option.any_eq_true] at h
    rcases h with h | ⟨s, hs, h⟩
    · exact ⟨_, List.mem_cons_self, h⟩
    · exact ⟨s, List.mem_cons_of_mem _ (by simp [hs]), h⟩
  obtain ⟨s, hs, hsw⟩ := spellings k hk
  obtain ⟨t, ht, htw⟩ := spellings l hl
  have hst : s = t := String.toList_injective (hsw.trans htw.symm)
  subst hst
  have distinct : ∀ k ∈ all, ∀ l ∈ all, ∀ s ∈ k.spelling :: k.secondSpelling.toList,
      s ∈ l.spelling :: l.secondSpelling.toList → k = l := by decide
  exact distinct k (mem_all k) l (mem_all l) s hs ht

theorem ofText?_eq_some_iff {dialect : Dialect} {word : Text} {k : Keyword} :
    ofText? dialect word = some k ↔ k.isIn dialect ∧ k.isSpelled word := by
  constructor
  · intro h
    simpa using List.find?_some h
  · rintro ⟨hin, hspelled⟩
    cases h : ofText? dialect word with
    | none =>
      have := List.find?_eq_none.1 h k (mem_all k)
      simp [hin, hspelled] at this
    | some l =>
      have hl := List.find?_some h
      simp only [Bool.and_eq_true] at hl
      rw [eq_of_isSpelled hl.2 hspelled]

end Keyword

end IdlFrontend
