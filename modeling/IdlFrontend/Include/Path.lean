import IdlFrontend.Text.Basic

/-!
# Paths

A path is a text whose components are separated by slashes. Nothing is normalised
when paths are put together, so that a file is known by the name that led to it.

Results:

* `join_components`: the components with slashes between them are the path.
* `suffix_join`: the name is kept at the end of a joined path.
* `resolve_eq_self`: components without points are the way to the place they lead to.
-/

namespace IdlFrontend.Path

/-- The parts of a path between the slashes. -/
def components : Text → List Text
  | [] => [[]]
  | c :: cs =>
    if c == '/' then [] :: components cs
    else match components cs with
      | [] => [[c]]
      | part :: parts => (c :: part) :: parts

/-- An empty component, or a single point. Neither leads anywhere. -/
def isIdle (part : Text) : Bool := part.isEmpty || part == ['.']

/-- The component that leads to the directory around. -/
def isUpward (part : Text) : Bool := part == ['.', '.']

/-- The place that one component leads to from a place. A place is given by the way
    to it from the current directory: first upward, then downward. -/
def enter (place : List Text) (part : Text) : List Text :=
  if isIdle part then place
  else if isUpward part && !place.all isUpward then place.dropLast
  else place ++ [part]

/-- The place that components lead to from the current directory, if all directories
    on the way exist. -/
def resolve (parts : List Text) : List Text := parts.foldl enter []

/-- Whether the path starts at the root. -/
def isAbsolute (path : Text) : Bool := path.head? == some '/'

/-- What a path begins with that is no component: the slash of an absolute path, or
    a point that is followed by nothing or by a slash. -/
def head (path : Text) : Text :=
  match path with
  | '/' :: _ => ['/']
  | ['.'] | '.' :: '/' :: _ => ['.']
  | _ => []

/-- The components without the idle ones at the end. -/
def dropIdle (parts : List Text) : List Text := (parts.reverse.dropWhile isIdle).reverse

/-- The path of the directory that contains what the path names: the path without
    its last component that is not idle. -/
def parent (path : Text) : Text :=
  match dropIdle (components (path.drop (head path).length)) with
  | [] => []
  | parts => head path ++ Text.join ['/'] (dropIdle parts.dropLast)

/-- The path of a name in a directory. An absolute name stands for itself. -/
def join (dir name : Text) : Text :=
  if isAbsolute name || dir.isEmpty then name
  else if dir.getLast? == some '/' then dir ++ name
  else dir ++ '/' :: name

/-- The number of bytes that a text is encoded in. -/
def byteLength : Text → Nat
  | [] => 0
  | c :: cs => c.utf8Size + byteLength cs

/-- The number of bytes from which on a path is too long for the system. -/
def maxBytes : Nat := 4096

/-- The largest number of bytes in a component. -/
def maxComponentBytes : Nat := 255

theorem components_ne_nil (path : Text) : components path ≠ [] := by
  cases path with
  | nil => simp [components]
  | cons c cs =>
    rw [components]
    split
    · simp
    · split <;> simp

theorem join_components (path : Text) : Text.join ['/'] (components path) = path := by
  induction path with
  | nil => rfl
  | cons c cs ih =>
    have hne := components_ne_nil cs
    rw [components]
    split
    next hc =>
      rw [beq_iff_eq] at hc
      subst hc
      cases hcs : components cs with
      | nil => contradiction
      | cons part parts =>
        rw [hcs] at ih
        simpa [Text.join] using ih
    next hc =>
      cases hcs : components cs with
      | nil => contradiction
      | cons part parts =>
        rw [hcs] at ih
        cases parts <;> simpa [Text.join, List.intercalate] using ih

theorem suffix_join {dir name : Text} : name <:+ join dir name := by
  unfold join
  split
  · exact List.suffix_rfl
  · split
    · exact List.suffix_append _ _
    · exact ⟨dir ++ ['/'], by simp⟩

theorem resolve_append (parts more : List Text) :
    resolve (parts ++ more) = more.foldl enter (resolve parts) := List.foldl_append

theorem enter_of_plain {part : Text} (place : List Text) (hidle : isIdle part = false)
    (hup : isUpward part = false) : enter place part = place ++ [part] := by
  simp [enter, hidle, hup]

theorem resolve_eq_self {parts : List Text}
    (h : ∀ part ∈ parts, isIdle part = false ∧ isUpward part = false) : resolve parts = parts := by
  have push (place : List Text) : parts.foldl enter place = place ++ parts := by
    induction parts generalizing place with
    | nil => simp
    | cons part parts ih =>
      obtain ⟨hidle, hup⟩ := h part List.mem_cons_self
      rw [List.foldl_cons, enter_of_plain place hidle hup,
        ih fun p hp => h p (List.mem_cons_of_mem _ hp), List.append_assoc, List.singleton_append]
  exact push []

/-- The directories of some paths. -/
example : [("x", ""), (".", ""), ("..", ""), ("/", ""), ("", ""), ("sub/", ""),
    ("sub//x", "sub"), ("sub/./x", "sub"), ("sub/deep/./", "sub"), ("./x", "."), ("./", ""),
    ("/x", "/"), ("//a/b", "//a"), (".//x", ".")].all
      (fun (path, dir) => parent path.toList == dir.toList) = true := by decide

end IdlFrontend.Path
