import IdlFrontend.Include.Fault
import IdlFrontend.Include.Path
import IdlFrontend.Include.Store

/-!
# Searching directories

A store that looks for a file under several paths and takes the first that can be
read. A name in quotes is looked for beside the file that asks for it, before the
include directories.

Results:

* `candidates_quoted`: a name in quotes is looked for at one more path.
* `firstReadable_of_all_error`: nothing is found if no path can be read.
-/

namespace IdlFrontend.SourceStore

/-- The paths that a request is looked for under, the first choice first. Model of `candidates`. -/
def candidates (dirs : List Text) (request : IncludeRequest) : List Text :=
  let beside := if request.quoted then [Path.join (Path.parent request.requester) request.name]
    else []
  beside ++ dirs.map fun dir => Path.join dir request.name

variable {m : Type → Type} [Monad m]

/-- The file under the first path that can be read. -/
def firstReadable (read : Text → m (Except ε Text)) : List Text → m (Option SourceFile)
  | [] => return none
  | path :: paths => do
    match ← read path with
    | .ok contents => return some ⟨path, contents⟩
    | .error _ => firstReadable read paths

/-- The store that searches directories. The system reads no path of `Path.maxBytes` bytes or
    more, so that no more paths than there are shorter texts name a file. Model of `FsLoader`. -/
def search (read : Text → m (Except ε Text)) (dirs : List Text) : SourceStore m where
  find request := firstReadable read
    ((candidates dirs request).filter fun path => Path.byteLength path < Path.maxBytes)
  capacity := Nat.pow 256 Path.maxBytes

theorem candidates_quoted (dirs : List Text) (name requester : Text) :
    candidates dirs ⟨name, true, requester⟩ =
      Path.join (Path.parent requester) name :: candidates dirs ⟨name, false, requester⟩ := rfl

theorem firstReadable_of_all_error [LawfulMonad m] {read : Text → m (Except ε Text)}
    {paths : List Text} (h : ∀ path ∈ paths, ∃ e, read path = pure (.error e)) :
    firstReadable read paths = pure none := by
  induction paths with
  | nil => rfl
  | cons path paths ih =>
    obtain ⟨e, he⟩ := h path List.mem_cons_self
    rw [firstReadable, he, pure_bind]
    exact ih fun p hp => h p (List.mem_cons_of_mem _ hp)

end IdlFrontend.SourceStore
