import IdlFrontend.Proofs.Session.Machine

/-!
# Sessions of several runs

A preprocessor outlives the runs it makes: macros may be defined between them, and a run
that failed leaves behind what it had done. Between two steps of such a session the include
stack is empty, whatever the files include and wherever a run has failed.

Results:

* `Reached.includeStack_eq_nil`: no name stays on the stack.
* `Reached.run_ofList`: with a list of files, every run of every session ends, and nests
  its files at most one deeper than the list has names.
-/

namespace IdlFrontend

open Session StateTransition

/-- A preprocessor between two steps of its user. -/
structure Preprocessor where
  session : Session := {}
  includeStack : List Text := []

namespace Preprocessor

variable {store : SourceStore Id} {names : Finset Text} {p p' : Preprocessor}

/-- The beginning of a run of the preprocessor. -/
def start (p : Preprocessor) (file : SourceFile) : Machine :=
  .start p.includeStack file p.session

/-- The preprocessors that a user can come to by defining macros and running files, each
    run being one that has ended. -/
inductive Reached (store : SourceStore Id) : Preprocessor → Prop
  | new : Reached store {}
  | define {p : Preprocessor} (h : Reached store p) (d : Predefinition) :
      Reached store { p with session := (exec (Session.define d) p.session : Id _).run.2 }
  | run {p p' : Preprocessor} (h : Reached store p) (file : SourceFile)
      {result : Except PreprocessError Unit}
      (hrun : .finished p'.includeStack (result, p'.session) ∈
        eval (Machine.step store) (p.start file)) :
      Reached store p'

theorem wellNested_start (hp : p.includeStack = []) (file : SourceFile) :
    WellNested names (p.start file) := by
  rw [start, hp]
  exact Session.wellNested_start file p.session

theorem Reached.includeStack_eq_nil (hstore : Serves names store) (h : Reached store p) :
    p.includeStack = [] := by
  induction h with
  | new => rfl
  | define _ _ ih => exact ih
  | run _ file hrun ih =>
    exact ((wellNested_start ih file).reaches hstore (mem_eval.1 hrun).1).stack_eq_nil

theorem serves_ofList (files : List SourceFile) :
    Serves (files.map (·.name)).toFinset (.ofList files) := by
  intro request found hfind
  exact List.mem_toFinset.2 (List.mem_map_of_mem (List.mem_of_find?_eq_some hfind))

theorem card_names_le (files : List SourceFile) :
    (files.map (·.name)).toFinset.card ≤ (SourceStore.ofList files).capacity :=
  (List.toFinset_card_le _).trans_eq (List.length_map _)

/-- However the files of a list include each other, a run ends, with the outcome that
    `Session.run` computes and the include stack as it was. At every moment the names on the
    stack are different, and all of them but the outermost one are names of the list. -/
theorem Reached.run_ofList {files : List SourceFile} (hp : Reached (.ofList files) p)
    (file : SourceFile) :
    .finished p.includeStack (exec (Session.run (.ofList files) file) p.session).run ∈
        eval (Machine.step (.ofList files)) (p.start file) ∧
      ∀ c, Reaches (Machine.step (.ofList files)) (p.start file) c →
        c.stack.Nodup ∧ (∀ name ∈ c.stack.dropLast, name ∈ files.map (·.name)) ∧
          c.stack.length ≤ (files.map (·.name)).toFinset.card + 1 := by
  have hstore := serves_ofList files
  have hempty := hp.includeStack_eq_nil hstore
  constructor
  · have hends := eval_start hstore (card_names_le files) p.includeStack file p.session
    rw [Session.run, ← hempty]
    exact hends
  · intro c hreach
    have hnested := (wellNested_start hempty file).reaches hstore hreach
    refine ⟨hnested.nodup, fun name hname => ?_, hnested.length_le⟩
    exact List.mem_toFinset.1 (hnested.mem name hname)

/-- Two files that include each other. -/
def mutualFiles : List SourceFile :=
  [⟨"a.idl".toList, "#include \"b.idl\"\n".toList⟩, ⟨"b.idl".toList, "\n#include <a.idl>".toList⟩]

/-- A file that includes one of them. -/
def mainFile : SourceFile := ⟨"main.idl".toList, "#include <a.idl>".toList⟩

/-- A run of files that include each other fails where the second one includes the first
    one, and the run after it begins with an empty stack again. -/
theorem run_ofList_mutualFiles :
    let first := (exec (Session.run (.ofList mutualFiles) mainFile) {} : Id _).run
    first.1 = .error ⟨.recursiveInclude "a.idl".toList, 2⟩ ∧
      .finished [] first ∈ eval (Machine.step (.ofList mutualFiles)) (start {} mainFile) ∧
      .finished [] (exec (Session.run (.ofList mutualFiles) mainFile) first.2).run ∈
        eval (Machine.step (.ofList mutualFiles)) (start ⟨first.2, []⟩ mainFile) := by
  intro first
  have hfirst := Reached.run_ofList (.new : Reached (.ofList mutualFiles) {}) mainFile
  have hsecond := Reached.run_ofList (p := ⟨first.2, []⟩) (.run .new mainFile hfirst.1) mainFile
  refine ⟨?_, hfirst.1, hsecond.1⟩
  show (exec (Session.run (.ofList mutualFiles) mainFile) {} : Id _).run.1 = _
  decide +kernel

end Preprocessor

end IdlFrontend
