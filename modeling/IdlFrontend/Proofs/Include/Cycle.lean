import IdlFrontend.Include.FileTable
import IdlFrontend.Include.Search
import IdlFrontend.Proofs.Include.Spelling
import IdlFrontend.Proofs.Session.Machine

/-!
# Cycles among the files of a table

Files are told apart by the paths that led to them. A path that makes a detour is another
path to the same place, so that a file can be entered while it is being read. It is entered
once more for every spelling that the run comes to, until a spelling is one of those before
or is longer than the system allows. Without detours nothing can go wrong.

Results:

* `file?_of_read`: what is read under a path is the text of the file at its place.
* `run_search`: the runs on a table end, and the entries of the include stack that make no
  detour lead to different places.
* `run_search_detour`: a file that includes itself under another name is entered again.
* `Plain.nodup_place`: if no name makes a detour, no file is entered while it is being
  read, and an include that would do so fails.
-/

namespace IdlFrontend

open Session StateTransition

namespace FileTable

/-! ## Reading from a table -/

variable {t : FileTable}

theorem step_known {place : List Text} {part : Text} {next : Place}
    (h : t.step (.known place) part = .ok next) : next = .known (Path.enter place part) := by
  simp only [step] at h
  split at h
  · cases h
  · split at h
    · cases h
    · split at h
      · cases h
        rfl
      · cases h

/-- A component that can be followed leads where it is spelled to lead. -/
theorem follow_known {place : List Text} {parts : List Text} {next : Place}
    (h : t.follow (.known place) parts = .ok next) :
    next = .known (parts.foldl Path.enter place) := by
  induction parts generalizing place with
  | nil =>
    cases h
    rfl
  | cons part parts ih =>
    rw [follow, List.foldlM_cons] at h
    cases hstep : t.step (.known place) part with
    | error fault =>
      rw [hstep] at h
      cases h
    | ok between =>
      rw [hstep, step_known hstep] at h
      exact ih h

theorem follow_elsewhere {parts : List Text} {next : Place}
    (h : t.follow .elsewhere parts = .ok next) : next = .elsewhere := by
  induction parts with
  | nil =>
    cases h
    rfl
  | cons part parts ih =>
    rw [follow, List.foldlM_cons] at h
    cases hstep : t.step .elsewhere part with
    | error fault =>
      rw [hstep] at h
      cases h
    | ok between =>
      have hbetween : between = .elsewhere := by
        simp only [step] at hstep
        split at hstep
        · cases hstep
          rfl
        · split at hstep <;> cases hstep
      rw [hstep, hbetween] at h
      exact ih h

/-- Nothing is read but what a path that can be followed leads to. -/
theorem follow_of_read {path contents : Text} (h : t.read path = .ok contents) :
    ∃ place f, t.follow (if Path.isAbsolute path then .elsewhere else .known [])
        (Path.components path) = .ok (.known place) ∧
      t.file? place = some f ∧ f.text? = some contents := by
  unfold read at h
  by_cases hnul : path.contains '\x00'
  · rw [if_pos hnul] at h
    cases h
  by_cases hempty : path.isEmpty
  · rw [if_neg hnul, if_pos hempty] at h
    cases h
  by_cases hlong : Path.maxBytes ≤ Path.byteLength path
  · rw [if_neg hnul, if_neg hempty, if_pos hlong] at h
    cases h
  rw [if_neg hnul, if_neg hempty, if_neg hlong] at h
  cases hfollow : t.follow (if Path.isAbsolute path then .elsewhere else .known [])
      (Path.components path) with
  | error fault =>
    dsimp only at h
    rw [hfollow] at h
    cases h
  | ok place =>
    dsimp only at h
    rw [hfollow] at h
    cases place with
    | elsewhere => cases h
    | known place =>
      dsimp only [bind, Except.bind] at h
      split at h
      · cases h
      · split at h
        · cases h
        next f hfile =>
          refine ⟨place, f, rfl, hfile, ?_⟩
          cases htext : f.text? with
          | none =>
            rw [htext] at h
            cases h
          | some text =>
            rw [htext] at h
            cases h
            rfl

/-- What is read under a path is the text of the file at its place. -/
theorem file?_of_read {path contents : Text} (h : t.read path = .ok contents) :
    ∃ f, t.file? (Path.place path) = some f ∧ f.text? = some contents := by
  obtain ⟨place, f, hfollow, hfile, htext⟩ := follow_of_read h
  split at hfollow
  · cases follow_elsewhere hfollow
  · cases follow_known hfollow
    exact ⟨f, hfile, htext⟩

end FileTable

/-! ## Stores that search -/

namespace SourceStore

variable {ε : Type} {read : Text → Id (Except ε Text)}

theorem mem_of_firstReadable {paths : List Text} {found : SourceFile}
    (h : (firstReadable read paths).run = some found) :
    found.name ∈ paths ∧ (read found.name).run = .ok found.contents := by
  induction paths with
  | nil => cases h
  | cons path paths ih =>
    rw [firstReadable, Id.run_bind] at h
    cases hread : (read path).run with
    | ok contents =>
      rw [hread] at h
      cases h
      exact ⟨List.mem_cons_self, hread⟩
    | error fault =>
      rw [hread] at h
      obtain ⟨hmem, hok⟩ := ih h
      exact ⟨List.mem_cons_of_mem _ hmem, hok⟩

/-- A file that is found has a short path that can be read. -/
theorem mem_of_search {dirs : List Text} {request : IncludeRequest} {found : SourceFile}
    (h : ((search read dirs).find request).run = some found) :
    found.name ∈ candidates dirs request ∧ Path.byteLength found.name < Path.maxBytes ∧
      (read found.name).run = .ok found.contents := by
  obtain ⟨hmem, hread⟩ := mem_of_firstReadable h
  obtain ⟨hmem, hshort⟩ := List.mem_filter.1 hmem
  exact ⟨hmem, by simpa using hshort, hread⟩

theorem capacity_search {dirs : List Text} : (search read dirs).capacity = 256 ^ Path.maxBytes := by
  rw [search, Nat.pow_eq]

end SourceStore

namespace FileTable

/-! ## Runs on a table -/

/-- The store that searches directories of a table. -/
def search (t : FileTable) (dirs : List Text) : SourceStore Id := .search t.read dirs

variable {t : FileTable} {dirs : List Text}

/-- The paths that are not too long and can be read. -/
noncomputable def readable (t : FileTable) : Finset Text :=
  (Path.short Path.maxBytes).filter fun path => (t.read path).isOk

theorem serves_search : Serves t.readable (t.search dirs) := by
  intro request found hfind
  obtain ⟨-, hshort, hread⟩ := SourceStore.mem_of_search hfind
  refine Finset.mem_filter.2 ⟨Path.mem_short hshort, ?_⟩
  rw [show t.read found.name = _ from hread]
  rfl

theorem card_readable_le : t.readable.card ≤ (t.search dirs).capacity := by
  rw [search, SourceStore.capacity_search]
  exact (Finset.card_filter_le _ _).trans (Path.card_short_le _)

theorem isSome_of_mem_readable {path : Text} (h : path ∈ t.readable) :
    (t.file? (Path.place path)).isSome := by
  have hok := (Finset.mem_filter.1 h).2
  cases hread : t.read path with
  | error fault =>
    rw [hread] at hok
    cases hok
  | ok contents =>
    obtain ⟨f, hfile, -⟩ := file?_of_read hread
    rw [hfile]
    rfl

/-- A run on a table ends, with the outcome that `Session.run` computes. At every moment the
    entries of the include stack are different, all but the outermost one lead to files of
    the table, and those that make no detour lead to different places. An include fails as a
    recursive one just if its path is spelled like an entry; if the path makes no detour,
    just if an entry that makes none leads to the same place. -/
theorem run_search (t : FileTable) (dirs : List Text) (file : SourceFile) (s : Session) :
    .finished [] (exec (Session.run (t.search dirs) file) s).run ∈
        eval (Machine.step (t.search dirs)) (.start [] file s) ∧
      ∀ c, Reaches (Machine.step (t.search dirs)) (.start [] file s) c →
        c.stack.Nodup ∧ (∀ path ∈ c.stack.dropLast, (t.file? (Path.place path)).isSome) ∧
          ((c.stack.filter Path.isPlain).map Path.place).Nodup ∧
          ∀ request found, c.request? = some request →
            ((t.search dirs).find request).run = some found →
              (c.Refuses (t.search dirs) ↔ found.name ∈ c.stack) ∧
                (Path.isPlain found.name →
                  (c.Refuses (t.search dirs) ↔
                    Path.place found.name ∈ (c.stack.filter Path.isPlain).map Path.place)) := by
  refine ⟨eval_start serves_search card_readable_le [] file s, fun c hreach => ?_⟩
  have hnested : WellNested t.readable c := (wellNested_start file s).reaches serves_search hreach
  refine ⟨hnested.nodup, fun path hpath => isSome_of_mem_readable (hnested.mem path hpath),
    Path.nodup_map_place hnested.nodup, fun request found hrequest hfind => ?_⟩
  have hrefuses := Machine.refuses_iff hrequest hfind
  exact ⟨hrefuses, fun hplain => hrefuses.trans (Path.place_mem_iff hplain).symm⟩

/-- A file that includes itself under another name, but only once. -/
def selfIncluding : SourceFile :=
  ⟨"a.idl".toList, "#ifndef A\n#define A\n#include \"./a.idl\"\n#endif\n".toList⟩

/-- The table of that file. -/
def selfTable : FileTable := ofList [(selfIncluding.name, some selfIncluding.contents)]

/-- A file that includes itself under another name is entered while it is being read, and
    the run succeeds. -/
theorem run_search_detour :
    selfTable.read selfIncluding.name = .ok selfIncluding.contents ∧
      (∃ c, Reaches (Machine.step (selfTable.search [])) (.start [] selfIncluding {}) c ∧
        c.stack = ["./a.idl".toList, "a.idl".toList]) ∧
      Path.place "./a.idl".toList = Path.place "a.idl".toList ∧
      (exec (Session.run (selfTable.search []) selfIncluding) {}).run.1 = .ok () := by
  have henter : (Machine.step (selfTable.search []) (.start [] selfIncluding {})).map
      Machine.stack = some ["./a.idl".toList, "a.idl".toList] := by
    decide +kernel
  have hend : (Machine.step (selfTable.search []) (.start [] selfIncluding {}) >>=
      Machine.step (selfTable.search []) >>= Machine.step (selfTable.search []) >>=
      Machine.result?) = some (.ok ()) := by
    decide +kernel
  obtain ⟨c, hc, hstack⟩ := Option.map_eq_some_iff.1 henter
  refine ⟨by decide +kernel, ⟨c, .single hc, hstack⟩, by decide, ?_⟩
  obtain ⟨c₃, h₃, hresult⟩ := Option.bind_eq_some_iff.1 hend
  obtain ⟨c₂, h₂, hc₃⟩ := Option.bind_eq_some_iff.1 h₃
  obtain ⟨c₁, hc₁, hc₂⟩ := Option.bind_eq_some_iff.1 h₂
  have hreach : Reaches (Machine.step (selfTable.search [])) (.start [] selfIncluding {}) c₃ :=
    .tail (.tail (.single hc₁) hc₂) hc₃
  have heval := Machine.mem_eval_of_result hreach hresult
  rw [Part.mem_unique heval (run_search selfTable [] selfIncluding {}).1] at hresult
  exact Option.some_inj.1 hresult

/-! ## Runs without detours -/

section Plain

variable {file : SourceFile} {s : Session}

/-- All names that a run is given or comes to are spelled without a detour: the name of its
    file, the directories, and the name in every include directive. -/
structure Plain (t : FileTable) (dirs : List Text) (file : SourceFile) (s : Session) : Prop where
  ofFile : Path.isPlain file.name
  ofDirs : ∀ dir ∈ dirs, dir = [] ∨ Path.isPlain dir
  ofRequests : ∀ c, Reaches (Machine.step (t.search dirs)) (.start [] file s) c →
    ∀ request ∈ c.request?, Path.isPlain request.name

theorem isPlain_of_mem_candidates {request : IncludeRequest} {path : Text}
    (hdirs : ∀ dir ∈ dirs, dir = [] ∨ Path.isPlain dir) (hname : Path.isPlain request.name)
    (hrequester : request.requester = [] ∨ Path.isPlain request.requester)
    (h : path ∈ SourceStore.candidates dirs request) : Path.isPlain path := by
  obtain h | h := List.mem_append.1 h
  · split at h
    · rw [List.mem_singleton.1 h]
      refine Path.isPlain_join ?_ hname
      obtain hempty | hplain := hrequester
      · rw [hempty]
        exact .inl rfl
      · exact Path.isPlain_parent hplain
    · cases h
  · obtain ⟨dir, hdir, rfl⟩ := List.mem_map.1 h
    exact Path.isPlain_join (hdirs dir hdir) hname

/-- The requester of an include is the innermost file. -/
theorem requester_of_request {c : Machine} {request : IncludeRequest}
    (h : c.request? = some request) : request.requester = [] ∨ request.requester ∈ c.stack := by
  match c with
  | .finished _ _ | .reading _ _ (.done _) => cases h
  | .reading [] _ (.including _ _ _ _ _) =>
    cases h
    exact .inl rfl
  | .reading (_ :: _) _ (.including _ _ _ _ _) =>
    cases h
    exact .inr List.mem_cons_self

theorem Plain.isPlain_of_find (hplain : Plain t dirs file s) {c : Machine}
    (hreach : Reaches (Machine.step (t.search dirs)) (.start [] file s) c)
    (hstack : ∀ path ∈ c.stack, Path.isPlain path) {request : IncludeRequest} {found : SourceFile}
    (hrequest : c.request? = some request)
    (hfind : ((t.search dirs).find request).run = some found) : Path.isPlain found.name := by
  refine isPlain_of_mem_candidates hplain.ofDirs (hplain.ofRequests c hreach request hrequest) ?_
    (SourceStore.mem_of_search hfind).1
  exact (requester_of_request hrequest).imp_right (hstack _)

theorem Plain.isPlain_stack (hplain : Plain t dirs file s) {c : Machine}
    (hreach : Reaches (Machine.step (t.search dirs)) (.start [] file s) c) :
    ∀ path ∈ c.stack, Path.isPlain path := by
  induction hreach with
  | refl => exact List.forall_mem_singleton.2 hplain.ofFile
  | @tail c c' hreach hstep ih =>
    obtain h | h | ⟨request, found, hrequest, hfind, -, h⟩ := Machine.stack_of_step hstep
    · rw [h]
      exact ih
    · rw [h]
      exact fun path hpath => ih path (List.mem_of_mem_tail hpath)
    · rw [h]
      exact List.forall_mem_cons.2 ⟨hplain.isPlain_of_find hreach ih hrequest hfind, ih⟩

/-- If no name makes a detour, no two entries of the include stack lead to the same place,
    and an include fails as a recursive one just if its path leads to a file that is being
    read. -/
theorem Plain.nodup_place (hplain : Plain t dirs file s) {c : Machine}
    (hreach : Reaches (Machine.step (t.search dirs)) (.start [] file s) c) :
    (c.stack.map Path.place).Nodup ∧
      ∀ request found, c.request? = some request →
        ((t.search dirs).find request).run = some found →
          (c.Refuses (t.search dirs) ↔ Path.place found.name ∈ c.stack.map Path.place) := by
  have hstack := hplain.isPlain_stack hreach
  have hfilter : c.stack.filter Path.isPlain = c.stack := List.filter_eq_self.2 hstack
  have hnested : WellNested t.readable c := (wellNested_start file s).reaches serves_search hreach
  refine ⟨hfilter ▸ Path.nodup_map_place hnested.nodup, fun request found hrequest hfind => ?_⟩
  have hfound := hplain.isPlain_of_find hreach hstack hrequest hfind
  rw [Machine.refuses_iff hrequest hfind, ← Path.place_mem_iff hfound, hfilter]

end Plain

end FileTable

end IdlFrontend
