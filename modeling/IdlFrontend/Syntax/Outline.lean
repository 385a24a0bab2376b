import IdlFrontend.Syntax.Walk
import IdlFrontend.Text.WhiteSpace

/-!
# Outlines

An outline is the text of a walk: a line for everything that is entered and for
every leaf, indented by two spaces for each container around it.
-/

namespace IdlFrontend

/-- An outline that is being written. -/
structure Outline where
  /-- The number of containers that are open. -/
  depth : Nat := 0
  /-- The lines so far, the last one first. -/
  lines : List Text := []
deriving DecidableEq, Repr

/-! ## Lines -/

/-- Texts with a comma and a space between them. -/
def commaSeparated (parts : List Text) : Text := Text.join [',', ' '] parts

/-- The names of declarators. Model of `declarators`. -/
def declaratorNames (ds : List Declarator) : Text := commaSeparated (ds.map Declarator.name)

/-- The line of an interface. -/
def Interface.outline (i : Interface) : Text :=
  let supers := match i.supers with
    | none | some [] => []
    | some supers => " : ".toList ++ commaSeparated (supers.map ScopedName.text)
  "interface ".toList ++ i.name ++ supers ++ if i.isForward then " (forward)".toList else []

/-- The line of a container. -/
def Container.outline : Container → Text
  | .specification s =>
    "specification (".toList ++ Text.ofNat s.definitions.length ++ " definitions)".toList
  | .module m => "module ".toList ++ m.name
  | .interface i => i.outline
  | .valueType v =>
    let base := match v.base with
      | none => []
      | some type => " : ".toList ++ type.text
    "valuetype ".toList ++ nameOrAnonymous v.name ++ base
  | .struct s => "struct ".toList ++ nameOrAnonymous s.name
  | .union u =>
    "union ".toList ++ nameOrAnonymous u.name ++ " switch (".toList ++ u.selector.text ++ [')']
  | .enum e =>
    "enum ".toList ++ nameOrAnonymous e.name ++ [' ', '{', ' '] ++ commaSeparated e.enumerators ++
      [' ', '}']

/-- A parameter in the line of its operation. -/
def Parameter.outline (p : Parameter) : Text :=
  let directions := Text.join [' '] (p.directions.map fun d => d.spelling.toList)
  (directions ++ ' ' :: p.type.text ++ ' ' :: p.name).dropWhile isWhiteSpace

/-- The line of an operation. -/
def Operation.outline (o : Operation) : Text :=
  let modifiers := (o.modifiers.map fun d => d.spelling.toList ++ [' ']).flatten
  let dots := if o.varargs.isSome then ["...".toList] else []
  modifiers ++ "operation ".toList ++ o.returnType.text ++ ' ' :: o.name ++
    '(' :: commaSeparated (o.parameters.map Parameter.outline ++ dots) ++ [')']

/-- The line of a leaf. -/
def Leaf.outline : Leaf → Text
  | .typeDef t => "typedef ".toList ++ t.type.text ++ ' ' :: declaratorNames t.declarators
  | .native n =>
    let raw := match n.raw with
      | none => []
      | some raw => " (".toList ++ Text.trim isWhiteSpace raw ++ [')']
    "native ".toList ++ n.name ++ raw
  | .attribute a =>
    (if a.readonly then "readonly ".toList else []) ++ "attribute ".toList ++ a.type.text ++
      (if a.nullable then ['?'] else []) ++ ' ' :: commaSeparated (a.names.map AttributeName.name)
  | .operation o => o.outline
  | .field f => "field ".toList ++ f.type.text ++ ' ' :: declaratorNames f.declarators
  | .constant c => "const ".toList ++ c.type.text ++ ' ' :: c.name

namespace Outline

/-! ## The visitor -/

/-- The outline with one more line. -/
def line (o : Outline) (text : Text) : Outline :=
  { o with lines := (List.replicate (2 * o.depth) ' ' ++ text) :: o.lines }

/-- The outline after an event. -/
def after (o : Outline) : Event → Outline
  | .enter c => { o.line c.outline with depth := o.depth + 1 }
  | .leave _ => { o with depth := o.depth - 1 }
  | .leaf l => o.line l.outline

/-- The visitor that writes an outline. -/
def visit (e : Event) : StateM Outline PUnit := modify fun o => o.after e

/-- The lines in their order, each with a line feed behind it. -/
def text (o : Outline) : Text := o.lines.reverse.flatMap fun line => line ++ ['\n']

end Outline

/-- The outline of a specification. -/
def Specification.outline (s : Specification) : Outline := ((s.walk Outline.visit).run {}).2

end IdlFrontend
