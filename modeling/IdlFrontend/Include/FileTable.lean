import IdlFrontend.Include.Fault
import IdlFrontend.Include.Path

/-!
# Tables of files

A table holds files that were stored under relative paths. Storing a file makes the
directories that its path goes through, also those that it leaves again. A path is
followed one component at a time, as a system does it: everything but its last
component must be a directory, also where the next component leads back up.

Results:

* `file?_store`: the file stored last is found where its path leads to.
* `isDirectory_store`: the directories that its path goes through are there.
* `follow_append`: following a path is following its parts one after the other.
* `follow_error`: a path that fails on the way fails.
-/

namespace IdlFrontend

/-- A file of a table. -/
structure StoredFile where
  /-- The way to the file from the current directory. -/
  place : List Text
  /-- The text in the file. There is none if the contents are not UTF-8. -/
  text? : Option Text
deriving DecidableEq, Repr

/-- Directories and files, the last stored first. The current directory and those
    around it need not be stored. -/
structure FileTable where
  directories : List (List Text) := []
  files : List StoredFile := []
deriving DecidableEq, Repr

namespace FileTable

/-! ## Storing -/

/-- The table with one more file, and with the directories on the way to it. -/
def store (t : FileTable) (path : Text) (text? : Option Text) : FileTable :=
  let parts := (Path.components path).filter fun part => !Path.isIdle part
  let passed := (List.range parts.length).map fun n => Path.resolve (parts.take n)
  { directories := passed ++ t.directories, files := ⟨Path.resolve parts, text?⟩ :: t.files }

/-- The table of files with the given paths, stored one after the other. -/
def ofList (files : List (Text × Option Text)) : FileTable :=
  files.foldl (fun t (path, text?) => t.store path text?) {}

/-! ## Reading -/

/-- What a path has led to: a place whose way from the current directory is known,
    or any directory whose way is not. -/
inductive Place where
  | known (place : List Text)
  | elsewhere
deriving DecidableEq, Repr

/-- The file at a place. -/
def file? (t : FileTable) (place : List Text) : Option StoredFile :=
  t.files.find? (·.place == place)

/-- Whether there is a directory at a place. -/
def isDirectory (t : FileTable) (place : List Text) : Bool :=
  place.all Path.isUpward || t.directories.contains place

/-- The place that one component leads to. Nothing is known of places elsewhere but
    that they are directories. -/
def step (t : FileTable) (place : Place) (part : Text) : Except ReadFault Place :=
  match place with
  | .elsewhere =>
    if Path.isIdle part || Path.isUpward part then .ok .elsewhere
    else if Path.maxComponentBytes < Path.byteLength part then .error .nameTooLong
    else .error .notFound
  | .known place =>
    let next := Path.enter place part
    if !t.isDirectory place then .error .notDirectory
    else if Path.maxComponentBytes < Path.byteLength part then .error .nameTooLong
    else if t.isDirectory next || (t.file? next).isSome then .ok (.known next)
    else .error .notFound

/-- The place that components lead to. -/
def follow (t : FileTable) (place : Place) (parts : List Text) : Except ReadFault Place :=
  parts.foldlM t.step place

/-- The text of the file that a path leads to. -/
def read (t : FileTable) (path : Text) : Except ReadFault Text := do
  if path.contains '\x00' then throw .nulInName
  if path.isEmpty then throw .notFound
  if Path.maxBytes ≤ Path.byteLength path then throw .nameTooLong
  let start := if Path.isAbsolute path then .elsewhere else .known []
  match ← t.follow start (Path.components path) with
  | .elsewhere => throw .isDirectory
  | .known place =>
    if t.isDirectory place then throw .isDirectory
    match t.file? place with
    | none => throw .notFound
    | some f => f.text?.elim (throw .notText) pure

theorem file?_store (t : FileTable) (path : Text) (text? : Option Text) :
    let place := Path.resolve ((Path.components path).filter fun part => !Path.isIdle part)
    (t.store path text?).file? place = some ⟨place, text?⟩ := by
  simp [store, file?]

theorem isDirectory_store (t : FileTable) {path : Text} (text? : Option Text) {n : Nat}
    (h : n < ((Path.components path).filter fun part => !Path.isIdle part).length) :
    (t.store path text?).isDirectory
      (Path.resolve (((Path.components path).filter fun part => !Path.isIdle part).take n)) := by
  have hmem := List.mem_map_of_mem (f := fun n => Path.resolve
    (((Path.components path).filter fun part => !Path.isIdle part).take n)) (List.mem_range.2 h)
  simp only [isDirectory, store, Bool.or_eq_true, List.contains_iff_mem]
  exact .inr (List.mem_append_left _ hmem)

theorem follow_append (t : FileTable) (place : Place) (parts more : List Text) :
    t.follow place (parts ++ more) = t.follow place parts >>= (t.follow · more) := by
  simp [follow, List.foldlM_append]

theorem follow_error {t : FileTable} {place : Place} {parts : List Text} {fault : ReadFault}
    (more : List Text) (h : t.follow place parts = .error fault) :
    t.follow place (parts ++ more) = .error fault := by
  rw [follow_append, h]
  rfl

/-- A file is found by its name, also behind a detour through a directory that exists,
    but not through one that does not. -/
example :
    let t := ofList [("a.idl".toList, some ['x']), ("sub/b.idl".toList, none)]
    ["a.idl", "sub/../a.idl", "no/../a.idl", "a.idl/", "sub", "sub/b.idl"].map
        (fun path => t.read path.toList) =
      [.ok ['x'], .ok ['x'], .error .notFound, .error .notDirectory, .error .isDirectory,
        .error .notText] := rfl

/-- A file stored by way of a detour is where the detour ends, and the directory that
    the detour goes through is there. -/
example :
    let t := ofList [("sub/../a.idl".toList, some ['x']), ("../b.idl".toList, some ['y'])]
    ["a.idl", "sub/../a.idl", "sub", "sub/a.idl", "../b.idl", "sub/../../b.idl", "b.idl"].map
        (fun path => t.read path.toList) =
      [.ok ['x'], .ok ['x'], .error .isDirectory, .error .notFound, .ok ['y'], .ok ['y'],
        .error .notFound] := rfl

end FileTable

end IdlFrontend
