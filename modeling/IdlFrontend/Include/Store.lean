import IdlFrontend.Text.Basic

/-!
# Where included files come from

The preprocessor never reads files itself. It asks a store, which may look names
up in a list or search directories; `m` is what a look-up needs, nothing at all
for a list and input and output for a disk.

Results:

* `find_ofList_none`: a list serves no file that it does not name.
-/

namespace IdlFrontend

/-- A source text with the name it is known by. -/
structure SourceFile where
  name : Text
  contents : Text
deriving DecidableEq, Repr

/-- What an include directive asks for. -/
structure IncludeRequest where
  /-- The name as written in the directive. -/
  name : Text
  /-- Written `"name"` rather than `<name>`. -/
  quoted : Bool
  /-- The file that contains the directive. -/
  requester : Text
deriving DecidableEq, Repr

/-- A supply of source files. Model of `IncludeLoader`. -/
structure SourceStore (m : Type → Type) where
  find : IncludeRequest → m (Option SourceFile)
  /-- At least as many as the store has file names. Files that are all different
      cannot be nested deeper than that. -/
  capacity : Nat

namespace SourceStore

/-- The store that knows files by the exact name written in a directive. Model of `MemoryLoader`. -/
def ofList (files : List SourceFile) : SourceStore Id where
  find request := files.find? (·.name == request.name)
  capacity := files.length

theorem find_ofList_none {files : List SourceFile} {request : IncludeRequest}
    (h : ∀ f ∈ files, f.name ≠ request.name) : (ofList files).find request = none := by
  show files.find? _ = none
  simpa using h

end SourceStore

end IdlFrontend
