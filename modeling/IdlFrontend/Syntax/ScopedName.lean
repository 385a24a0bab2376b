import IdlFrontend.Text.Basic

/-!
# Scoped names

A name is looked up in a scope. The scope is written in front of it, its segments
outermost first; a leading `::` makes it start at the global scope.

Results:

* `segments_ofSegments?`: a name made of segments has these segments.
* `ofSegments?_eq_none_iff`: no segments make no name.
-/

namespace IdlFrontend

/-- Where a name is looked up: relative to the current scope or to the global one. -/
structure Scope where
  absolute : Bool
  /-- The enclosing segments, outermost first. -/
  path : List Text
deriving DecidableEq, Repr

namespace Scope

/-- The number of segments. -/
def depth (s : Scope) : Nat := s.path.length

/-- The separator of segments. -/
def separator : Text := [':', ':']

/-- The scope as it is written before the separator and the name. Without segments
    nothing is left of it. -/
def text (s : Scope) : Text :=
  if s.path.isEmpty then []
  else (if s.absolute then separator else []) ++ Text.join separator s.path

end Scope

/-- A name, possibly qualified. -/
structure ScopedName where
  scope : Scope
  name : Text
deriving DecidableEq, Repr

namespace ScopedName

/-- The name whose last segment is the last of the given ones. Model of `from_segments`. -/
def ofSegments? (absolute : Bool) (segments : List Text) : Option ScopedName :=
  segments.getLast?.map fun name => ⟨⟨absolute, segments.dropLast⟩, name⟩

/-- The name `first`, or the last of the segments `more` that follow it. -/
def ofFirst (absolute : Bool) (first : Text) (more : List Text) : ScopedName :=
  ⟨⟨absolute, (first :: more).dropLast⟩, (first :: more).getLast (List.cons_ne_nil _ _)⟩

/-- All segments, outermost first. -/
def segments (n : ScopedName) : List Text := n.scope.path ++ [n.name]

/-- Whether the name starts at the global scope. -/
def isAbsolute (n : ScopedName) : Bool := n.scope.absolute

/-- The name as it is written. -/
def text (n : ScopedName) : Text :=
  (if n.isAbsolute then Scope.separator else []) ++ Text.join Scope.separator n.segments

theorem ofSegments?_eq_none_iff {absolute : Bool} {segments : List Text} :
    ofSegments? absolute segments = none ↔ segments = [] := by
  simp [ofSegments?]

theorem ofSegments?_cons (absolute : Bool) (first : Text) (more : List Text) :
    ofSegments? absolute (first :: more) = some (ofFirst absolute first more) := by
  simp [ofSegments?, ofFirst, List.getLast?_eq_some_getLast]

theorem segments_ofFirst (absolute : Bool) (first : Text) (more : List Text) :
    (ofFirst absolute first more).segments = first :: more :=
  List.dropLast_concat_getLast (List.cons_ne_nil _ _)

theorem segments_ofSegments? {absolute : Bool} {segments : List Text} {n : ScopedName}
    (h : ofSegments? absolute segments = some n) :
    n.segments = segments ∧ n.isAbsolute = absolute := by
  cases segments with
  | nil => cases h
  | cons first more =>
    rw [ofSegments?_cons] at h
    cases h
    exact ⟨segments_ofFirst absolute first more, rfl⟩

end ScopedName

end IdlFrontend
