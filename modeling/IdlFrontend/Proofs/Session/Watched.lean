import IdlFrontend.Proofs.Session.Follows

/-!
# Runs without macros with parameters

A run over a list of sources that succeeds is followed line by line: while no macro has
parameters, it comes to the session that writes every line at once.

Results:

* `preprocessMarked_of_ends`: the output of a preprocessor is that of the session it leaves
  behind.
* `Sources.ends_of_succeeds`, `Sources.Ends.succeeds`: what is proved about sessions that write
  every line at once holds of the runs of a preprocessor.
-/

namespace IdlFrontend

/-- The text to preprocess and the files that it may include. -/
structure Sources where
  main : SourceFile
  files : List SourceFile
deriving DecidableEq, Repr

namespace Sources

/-- With macros defined beforehand, preprocessing succeeds and leaves the session `s` behind. -/
def Ends (sources : Sources) (defines : List Predefinition) (s : Session) : Prop :=
  (Session.exec (do
    defines.forM Session.define
    Session.run (.ofList sources.files) sources.main) {} : Id _) = (.ok (), s)

/-- No macro that is ever defined has parameters, neither beforehand nor on a line: no line is
    read with one. -/
def OnlyObjectLike (sources : Sources) (defines : List Predefinition) : Prop :=
  (preprocessBy (Session.withoutParameters Session.readLine)
    (SourceStore.ofList sources.files).orGiveUp defines sources.main).run.isSome

instance (sources : Sources) (defines : List Predefinition) :
    Decidable (sources.OnlyObjectLike defines) :=
  inferInstanceAs (Decidable (_ = true))

variable {sources : Sources} {defines : List Predefinition} {s : Session}

theorem preprocessMarked_of_ends (h : sources.Ends defines s) :
    preprocessMarked (.ofList sources.files) defines sources.main = pure (.ok s.output) :=
  congrArg (fun r : Except PreprocessError Unit × Session => r.1.map fun _ => r.2.output) h

end Sources

namespace Session

section Parallel

variable {α β : Type} {Q : α → Session → β → Session → Prop} {x : PreprocessM (OptionT Id) α}
  {y : PreprocessM (OptionT Id) β} {s t : Session}

theorem Parallel.follows (h : Parallel Q x s y t) : Follows Q x s y t := by
  obtain ⟨z, hx, hy⟩ := h
  intro a s' ha
  obtain ⟨⟨⟨r, r'⟩, hends⟩, rfl, hr⟩ := Option.map_eq_some_iff.1 (hx.trans ha)
  obtain rfl : r = (.ok a, s') := hr
  cases hends with
  | ok hQ => exact ⟨_, _, hy.symm, hQ⟩

theorem Parallel.follows_swap (h : Parallel Q x s y t) :
    Follows (fun b t a s => Q a s b t) y t x s := by
  obtain ⟨z, hx, hy⟩ := h
  intro b t' hb
  obtain ⟨⟨⟨r, r'⟩, hends⟩, rfl, hr⟩ := Option.map_eq_some_iff.1 (hy.trans hb)
  obtain rfl : r' = (.ok b, t') := hr
  cases hends with
  | ok hQ => exact ⟨_, _, hx.symm, hQ⟩

end Parallel

variable {store : SourceStore Id} {defines : List Predefinition} {file : SourceFile} {s : Session}

/-- Giving up is all that a session that is watched does on its own. -/
theorem exec_of_succeeds_workBy
    (h : Succeeds (workBy (withoutParameters readLine) store.orGiveUp defines file) {} () s) :
    (exec (workBy readLine store defines file) {} : Id _) = (.ok (), s) :=
  (cutsStep_workBy cutsLine_readLine.withoutParameters store defines file {}).id_eq h

theorem succeeds_workBy_of_exec
    (hwatched : (preprocessBy (withoutParameters readLine) store.orGiveUp defines file).run.isSome)
    (h : (exec (workBy readLine store defines file) {} : Id _) = (.ok (), s)) :
    Succeeds (workBy (withoutParameters readLine) store.orGiveUp defines file) {} () s := by
  have hcuts := cutsStep_workBy cutsLine_readLine.withoutParameters store defines file {}
  rcases hx :
    (exec (workBy (withoutParameters readLine) store.orGiveUp defines file) {}).run with _ | r
  · have hgave : exec (workBy (withoutParameters readLine) store.orGiveUp defines file) {} =
        failure := hx
    rw [preprocessBy, hgave, failure_bind] at hwatched
    cases hwatched
  · obtain rfl : r = (.ok (), s) := (hcuts.id_eq hx).symm.trans h
    exact hx

end Session

/-- A run ends well if the session does that writes every line at once and gives up where a
    macro has parameters. -/
theorem Sources.ends_of_succeeds {sources : Sources} {defines : List Predefinition} {s : Session}
    (h : Session.Succeeds (Session.workBy Session.readWatched
      (SourceStore.ofList sources.files).orGiveUp
      defines sources.main) {} () s) : sources.Ends defines s := by
  obtain ⟨_, _, hwork, rfl⟩ := (Session.parallel_workBy _ defines sources.main).follows_swap () s h
  have hexec := Session.exec_of_succeeds_workBy hwork
  rwa [Session.workBy, Session.readFileBy_readLine] at hexec

theorem Sources.Ends.succeeds {sources : Sources} {defines : List Predefinition} {s : Session}
    (h : sources.Ends defines s) (hobjectLike : sources.OnlyObjectLike defines) :
    Session.Succeeds (Session.workBy Session.readWatched (SourceStore.ofList sources.files).orGiveUp
      defines sources.main) {} () s := by
  have hexec :
      (Session.exec (Session.workBy Session.readLine (SourceStore.ofList sources.files) defines
      sources.main) {} : Id _) = (.ok (), s) := by
    rw [Session.workBy, Session.readFileBy_readLine]
    exact h
  obtain ⟨_, _, hwork, rfl⟩ := (Session.parallel_workBy _ defines sources.main).follows () s
    (Session.succeeds_workBy_of_exec hobjectLike hexec)
  exact hwork

end IdlFrontend
