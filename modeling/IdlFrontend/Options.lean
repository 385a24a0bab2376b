import IdlFrontend.Text.WhiteSpace

/-!
# Options

What a parse needs besides the source text: the dialect, the directories that
includes are searched in, and the macros that are defined beforehand.

Results:

* `ofArgument_of_no_equals`: a definition without an equals sign has no value.
-/

namespace IdlFrontend

/-- The dialects of the language. They differ in a few keywords, and only `web`
    lets a parameter go without a direction. -/
inductive Dialect where
  | omg
  | web
deriving DecidableEq, Repr

/-- A macro that is defined before the source is read: a name, which may have a
    parameter list, and the text that replaces it. -/
structure Predefinition where
  name : Text
  value : Option Text := none
deriving DecidableEq, Repr

/-- The definition that `NAME` or `NAME=VALUE` asks for. White space around the name is dropped,
    the value is kept as it is. Model of `with_define_arg`. -/
def Predefinition.ofArgument (arg : Text) : Predefinition :=
  match Text.splitAtFirst (· == '=') arg with
  | some (name, value) => ⟨Text.trim isWhiteSpace name, some value⟩
  | none => ⟨Text.trim isWhiteSpace arg, none⟩

theorem Predefinition.ofArgument_of_no_equals {arg : Text} (h : '=' ∉ arg) :
    (ofArgument arg).value = none := by
  have hsplit : Text.splitAtFirst (· == '=') arg = none := by
    cases hs : Text.splitAtFirst (· == '=') arg with
    | none => rfl
    | some parts =>
      obtain ⟨c, hc, hp, _⟩ := Text.splitAtFirst_eq (p := (· == '=')) hs
      simp at hp
      subst hp
      exact absurd (by rw [hc]; simp) h
  rw [ofArgument, hsplit]

/-- The options of a run. Model of `ParseOptions`. -/
structure Options where
  dialect : Dialect := .omg
  includeDirs : List Text := []
  defines : List Predefinition := []
deriving DecidableEq, Repr

end IdlFrontend
