import IdlFrontend.Proofs.Include.Splice
import IdlFrontend.Proofs.Session.Watched

/-!
# An included file replaced by its text

Where macros have no parameters and nothing asks for its place, the text of a file can be
written in place of a line that includes the file.

Results:

* `Hole.ends_fill`: the run over the other sources succeeds as well, writes the same
  significant lexemes and leaves the same macros.
-/

namespace IdlFrontend

open Lexeme Source Session

namespace Sources

/-- A place for a line, in the text to preprocess or in one of the files that it may include. -/
inductive Hole
  | main (name before after : Text) (files : List SourceFile)
  | file (root : SourceFile) (earlier : List SourceFile) (name before after : Text)
      (later : List SourceFile)
deriving DecidableEq, Repr

namespace Hole

/-- What stands in front of the line in its file. -/
def before : Hole → Text
  | .main _ before _ _ | .file _ _ _ before _ _ => before

/-- What stands behind the line in its file. -/
def after : Hole → Text
  | .main _ _ after _ | .file _ _ _ _ after _ => after

/-- The sources with a text in the place. -/
def fill : Hole → Text → Sources
  | .main name before after files, text => ⟨⟨name, before ++ text ++ after⟩, files⟩
  | .file root earlier name before after later, text =>
    ⟨root, earlier ++ ⟨name, before ++ text ++ after⟩ :: later⟩

/-- A line in this place is read in a region that is kept: a directive that is not well formed
    makes the run fail. -/
def Enabled (hole : Hole) (defines : List Predefinition) : Prop :=
  ¬ ∃ s, (hole.fill "#include\n".toList).Ends defines s

end Hole

/-- No line asks for its place with `__FILE__` or `__LINE__` or changes it, and neither does a
    macro that is defined beforehand. -/
structure Placeless (sources : Sources) (defines : List Predefinition) : Prop where
  main : ∀ group ∈ sourceLines sources.main.contents, PlacelessLine group
  files : ∀ file ∈ sources.files, ∀ group ∈ sourceLines file.contents, PlacelessLine group
  defines : ∀ d ∈ defines, d.Placeless

variable {hole : Hole} {defines : List Predefinition} {name line text : Text} {s : Session}

namespace Hole

/-- Both ways to fill the place are the same but for the file in which it is. -/
theorem spliced_fill (h : IncludeLine name hole.before line hole.after) :
    Spliced name text (hole.fill line).main (hole.fill text).main ∧
      List.Forall₂ (Spliced name text) (hole.fill line).files (hole.fill text).files := by
  have hsame (files : List SourceFile) : List.Forall₂ (Spliced name text) files files :=
    List.forall₂_same.2 fun file _ => .same file
  cases hole with
  | main file before after files => exact ⟨.line file h, hsame files⟩
  | file root earlier file before after later =>
    exact ⟨.same root, List.rel_append (hsame earlier) (.cons (.line file h) (hsame later))⟩

/-- Sources with a text in place of an include directive succeed if those with the directive do. -/
theorem exists_ends_fill {b : SourceFile} (hline : IncludeLine b.name hole.before line hole.after)
    (hends : (hole.fill line).Ends defines s)
    (hobjectLike : (hole.fill line).OnlyObjectLike defines)
    (hplaceless : (hole.fill line).Placeless defines)
    (hfound : (hole.fill line).files.find? (·.name == b.name) = some b) (hwhole : WholeLines text)
    (hbalanced : Balanced (sourceLines text))
    (htext : Balanced (sourceLines b.contents) → text = b.contents) :
    ∃ s', (hole.fill text).Ends defines s' ∧ s.Resembles s' := by
  obtain ⟨hmain, hfiles⟩ : Spliced b.name text (hole.fill line).main (hole.fill text).main ∧
      List.Forall₂ (Spliced b.name text) (hole.fill line).files (hole.fill text).files :=
        spliced_fill hline
  have hplace : InPlace b text (hole.fill line).files (hole.fill text).files :=
    ⟨hfiles, hfound, hplaceless.files, hwhole, hbalanced, htext⟩
  obtain ⟨⟨⟩, s₁, hdefines, hrun⟩ := succeeds_bind_iff.1 (hends.succeeds hobjectLike)
  have hbodies : s₁.macros.BodiesMeet Lexeme.Placeless :=
    bodiesMeet_of_succeeds_forM hplaceless.defines (by rintro _ ⟨⟩) hdefines
  have hsession : s₁.Resembles s₁ := ⟨.refl hbodies, rfl⟩
  let names : Finset Text := ((hole.fill line).files.map (·.name)).toFinset
  have hnames : ∀ file ∈ (hole.fill line).files, file.name ∈ names := fun file hfile =>
    List.mem_toFinset.2 (List.mem_map_of_mem hfile)
  -- The depth to which files may be nested exceeds the number of their names.
  have hcard (stack : List Text) : (names \ stack.toFinset).card ≤
      (hole.fill line).files.length := by
    refine (Finset.card_le_card Finset.sdiff_subset).trans ((List.toFinset_card_le _).trans ?_)
    rw [List.length_map]
  obtain ⟨⟨⟩, s', hrun', hresembles⟩ := hplace.follows_readFileBy hnames
    (fun _ _ _ _ _ hdepth hstack hcard => hplace.entersAlike hnames hdepth hstack hcard)
    hmain hplaceless.main hfiles.length_eq.le (List.Subset.refl []) (hcard _) hsession () s hrun
  exact ⟨s', ends_of_succeeds (hdefines.bind hrun'), hresembles⟩

/-- **An included file is read as its text would be in place of the directive.** Let a run that
    defines only macros without parameters and does not ask for places obey an include
    directive, and let the file end with a line feed, continue no line and close its comments.
    With the text of the file in place of the directive the run succeeds too, writes the same
    significant lexemes and leaves the same macros but for `__FILE__`, line numbers in bodies
    apart. -/
theorem ends_fill {b : SourceFile} (hline : IncludeLine b.name hole.before line hole.after)
    (hends : (hole.fill line).Ends defines s)
    (hobjectLike : (hole.fill line).OnlyObjectLike defines)
    (hplaceless : (hole.fill line).Placeless defines)
    (hfound : (hole.fill line).files.find? (·.name == b.name) = some b)
    (henabled : hole.Enabled defines) (hcloses : ClosesLines b.contents) :
    ∃ s', (hole.fill b.contents).Ends defines s' ∧
      s'.output.significant = s.output.significant ∧ s.macros.SameButFile s'.macros := by
  -- A file that leaves a conditional open could be included nowhere: then any text would do.
  have hbalanced : Balanced (sourceLines b.contents) := by
    by_contra hopen
    have hcloses : ClosesLines "#include\n".toList := by decide +kernel
    obtain ⟨s', hmalformed, -⟩ := exists_ends_fill hline hends hobjectLike hplaceless hfound
      hcloses.wholeLines (by decide +kernel) fun h => absurd h hopen
    exact henabled ⟨s', hmalformed⟩
  obtain ⟨s', hends', hresembles⟩ := exists_ends_fill hline hends hobjectLike hplaceless hfound
    hcloses.wholeLines hbalanced fun _ => rfl
  exact ⟨s', hends', hresembles.written.symm, hresembles.macros.same⟩

/-- A guarded file that is included, and in it a file that defines and undefines macros. -/
theorem ends_fill_guarded :
    let b : SourceFile := ⟨['b'], "#define M A 2\n#ifdef M\nM x\n#undef A\n#endif\n".toList⟩
    let hole :
    Hole := .file ⟨[], "#define A 1\n#include \"a\"\n#include \"a\"\nA M\n".toList⟩ [] ['a']
      "#ifndef G\n#define G\n".toList "#endif\n".toList [b]
    ∃ s s', (hole.fill "#include \"b\"\n".toList).Ends [] s ∧ (hole.fill b.contents).Ends [] s' ∧
      s'.output.significant = s.output.significant ∧ s.macros.SameButFile s'.macros := by
  intro b hole
  have hbefore : ClosesLines hole.before := by decide +kernel
  have hdirective : ClosesLines "#include \"b\"\n".toList := by decide +kernel
  have hline : IncludeLine b.name hole.before "#include \"b\"\n".toList hole.after :=
    ⟨hbefore.wholeLines, ⟨[⟨.punctuation, ['#'], 0⟩, ⟨.word, "include".toList, 0⟩,
        ⟨.space, [' '], 0⟩,
        ⟨.string, ['"', 'b', '"'], 0⟩, ⟨.newline, ['\n'], 0⟩], by decide +kernel,
      _, true, rfl, by decide +kernel, by decide +kernel⟩, .inl hdirective.wholeLines⟩
  have hends : (hole.fill "#include \"b\"\n".toList).Ends [] _ := Prod.ext (by decide +kernel) rfl
  have hplaceless : (hole.fill "#include \"b\"\n".toList).Placeless [] :=
    ⟨by decide +kernel, by decide +kernel, List.forall_mem_nil _⟩
  have hobjectLike : (hole.fill "#include \"b\"\n".toList).OnlyObjectLike [] := by decide +kernel
  have hmalformed : (preprocessMarked (.ofList (hole.fill "#include\n".toList).files) []
      (hole.fill "#include\n".toList).main : Id _).toBool = false := by decide +kernel
  have henabled : hole.Enabled [] := by
    rintro ⟨s, h⟩
    rw [preprocessMarked_of_ends h] at hmalformed
    cases hmalformed
  obtain ⟨s', hends', hsame⟩ :=
    ends_fill hline hends hobjectLike hplaceless rfl henabled (by decide +kernel)
  exact ⟨_, s', hends, hends', hsame⟩

end Hole

end Sources

end IdlFrontend
