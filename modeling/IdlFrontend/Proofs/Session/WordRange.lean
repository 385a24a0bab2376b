import Mathlib.Algebra.Group.Nat.Defs
import IdlFrontend.Proofs.Session.LineReader
import IdlFrontend.Proofs.Session.Numbering

/-!
# Numbers that fit their words

Line numbers are unsigned words, and what a line directive adds to the lines behind it is a signed
one. A sum that does not fit is replaced by 1, and a directive takes off what was added to its own
line in order to find the physical line. Here are the numbers that this is made up of, with the
ranges that they have to be in.

A directive asks for the number of the line behind its sign. A line further down has a number
that is not below that one, and above it by fewer lines than the file has. So the numbers of a
file fit their words as long as its physical lines fit, though the largest of them do not fit a
signed word.

Results:

* `numbersInRange_of_shiftedBehind`: the numbers of a line are in range if what is added to it comes
  from the lines before it.
* `shiftedBehind_readLine`: what is added behind the line then comes from them and from the line.
* `numbers_in_range`: so the numbers of all lines of a file are in range.
* `preprocessBy_eq_preprocess`: what is done with other numbers does not matter to a session.
-/

namespace IdlFrontend

open Lexeme

/-! ## Ranges -/

/-- The number fits an unsigned word. -/
def FitsUnsigned (n : Int) : Prop := 0 ≤ n ∧ n < unsignedLimit

/-- The number fits a signed word. -/
def FitsSigned (n : Int) : Prop := -signedLimit ≤ n ∧ n < signedLimit

open Session in
/-- The numbers are in range that a line is read with. `group` are its lexemes on their physical
    lines. -/
structure OpenFile.NumbersInRange (f : OpenFile) (group : List Lexeme) : Prop where
  /-- The number of a lexeme. -/
  number : ∀ t ∈ group, FitsUnsigned (t.line + f.shift)
  /-- What has to be added to the number of a directive in order to find its physical line. -/
  back : ∀ d ∈ directive? group, FitsSigned (-f.shift)
  /-- The physical line that is found. -/
  physical : ∀ d ∈ directive? group, ∃ d', directive? (renumber f.shift group) = some d' ∧
    FitsUnsigned (d'.line + -f.shift) ∧ shiftLine d'.line (-f.shift) = d.line
  /-- The line behind that. -/
  following : ∀ d ∈ directive? group, FitsSigned (d.line + 1)
  /-- What has to be added to that line, so that it has the number that a directive asks for. -/
  shift : ∀ d ∈ directive? group, ∀ next < signedLimit, FitsSigned ((next : Int) - (d.line + 1))

/-- What is added behind the given lines is nothing, or it gives the line behind the one of a sign a
    number that fits a signed word. -/
def ShiftedBehind (groups : List (List Lexeme)) (f : OpenFile) : Prop :=
  f.shift = 0 ∨
    ∃ group ∈ groups, ∃ sign ∈ group, ∃ next < signedLimit, f.shift = (next : Int) - (sign.line + 1)

theorem ShiftedBehind.append {groups : List (List Lexeme)} {f : OpenFile}
    (h : ShiftedBehind groups f) (more : List (List Lexeme)) :
    ShiftedBehind (groups ++ more) f := by
  obtain h | ⟨group, hgroup, hsign⟩ := h
  · exact .inl h
  · exact .inr ⟨group, List.mem_append_left _ hgroup, hsign⟩

namespace Session

/-- The lexemes stand behind the given lines, on lines that fit a signed word, as does the line
    behind them. -/
structure LiesBehind (groups : List (List Lexeme)) (group : List Lexeme) : Prop where
  later : ∀ earlier ∈ groups, ∀ t ∈ earlier, ∀ u ∈ group, t.line < u.line
  fits : ∀ t ∈ group, t.line + 1 < signedLimit

/-- Every line of a file stands behind those before it. -/
theorem liesBehind_of_sourceLines {file : SourceFile} (hroom : HasRoom file)
    {before after : List (List Lexeme)} {group : List Lexeme}
    (hlines : sourceLines file.contents = before ++ group :: after) : LiesBehind before group := by
  have horder := pairwise_sourceLines file.contents
  rw [hlines, List.pairwise_append] at horder
  obtain ⟨-, -, hcross⟩ := horder
  have hmem : group ∈ sourceLines file.contents := by
    rw [hlines]
    simp
  refine ⟨fun earlier hearlier => hcross earlier hearlier group List.mem_cons_self, fun t ht => ?_⟩
  have hline := line_le_of_mem_sourceLines hmem ht
  have hfits : file.contents.lineBreaks + 2 < signedLimit := hroom
  omega

/-- The sum is not below the number that was asked for, as no lexeme stands above the line that
    it was asked for. -/
theorem bounds_of_shiftedBehind {groups : List (List Lexeme)} {group : List Lexeme} {f : OpenFile}
    (hshift : ShiftedBehind groups f) (hbehind : LiesBehind groups group) {t : Lexeme}
    (ht : t ∈ group) : FitsUnsigned (t.line + f.shift) ∧ FitsSigned (-f.shift) := by
  have hlimit : signedLimit + signedLimit = unsignedLimit := rfl
  have hfits := hbehind.fits t ht
  unfold FitsUnsigned FitsSigned
  obtain hnone | ⟨earlier, hearlier, sign, hsign, next, hnext, hasked⟩ := hshift
  · omega
  · have hlater := hbehind.later earlier hearlier sign hsign t ht
    omega

/-- All numbers of a line are in range if what is added comes from the lines before it. -/
theorem numbersInRange_of_shiftedBehind {groups : List (List Lexeme)} {group : List Lexeme}
    {f : OpenFile} (hshift : ShiftedBehind groups f) (hbehind : LiesBehind groups group) :
    f.NumbersInRange group := by
  have hsign {d : DirectiveLine} (hd : directive? group = some d) :
      d.line + 1 < signedLimit ∧ FitsUnsigned (d.line + f.shift) ∧ FitsSigned (-f.shift) := by
    obtain ⟨sign, hsign, hline⟩ := exists_mem_of_directive? hd
    rw [← hline]
    exact ⟨hbehind.fits sign hsign, bounds_of_shiftedBehind hshift hbehind hsign⟩
  have hlimit : signedLimit + signedLimit = unsignedLimit := rfl
  refine ⟨fun t ht => (bounds_of_shiftedBehind hshift hbehind ht).1, fun d hd => (hsign hd).2.2,
    fun d hd => ?_, fun d hd => ?_, fun d hd next hnext => ?_⟩
  · obtain ⟨hfits, ⟨hnonneg, hlt⟩, -⟩ := hsign hd
    have hrenumber : directive? (renumber f.shift group) =
        (directive? group).map (DirectiveLine.relabel (shiftLine · f.shift)) :=
      directive?_relabel (shiftLine · f.shift) group
    have hline : (shiftLine d.line f.shift : Int) = d.line + f.shift :=
      shiftLine_of_bounds hnonneg hlt
    have hback : ((d.relabel (shiftLine · f.shift)).line : Int) + -f.shift = d.line := by
      show (shiftLine d.line f.shift : Int) + -f.shift = d.line
      omega
    refine ⟨d.relabel (shiftLine · f.shift), ?_, ?_, shiftLine_eq_of_add hback.symm (by omega)⟩
    · rw [hrenumber, show directive? group = some d from hd]
      rfl
    · rw [hback]
      exact ⟨by omega, by omega⟩
  · obtain ⟨hfits, -⟩ := hsign hd
    exact ⟨by omega, by omega⟩
  · obtain ⟨hfits, -⟩ := hsign hd
    exact ⟨by omega, by omega⟩

/-! ## What is added to the lines -/

section Steps

variable {m : Type → Type} [Monad m] [LawfulMonad m]

theorem preserves_shift_flush (f : OpenFile) :
    Preserves (fun _ => True) (fun g => g.shift = f.shift) (flush f : PreprocessM m OpenFile) := by
  unfold flush
  refine (preserves_true _).bind fun s _ => ?_
  refine (preserves_true _).bind fun expanded _ => ?_
  exact (preserves_true _).bind fun _ _ => preserves_pure rfl

/-- What a line directive adds to the lines behind it. -/
theorem preserves_shift_changeLine (f : OpenFile) (target : List Lexeme) (line : Nat) :
    Preserves (fun _ => True)
      (fun g => ∃ next < signedLimit, g.shift = (next : Int) -
      (shiftLine line (-f.shift) + 1 : Nat))
      (changeLine f target line : PreprocessM m OpenFile) := by
  unfold changeLine
  split
  · exact preserves_throw _
  · refine (preserves_shift_flush f).bind fun g hg => ?_
    dsimp only
    rw [hg]
    split
    next hfits =>
      split
      · exact preserves_pure ⟨_, hfits.1, rfl⟩
      · exact (preserves_true _).bind fun _ _ => preserves_pure ⟨_, hfits.1, rfl⟩
    · exact preserves_throw _

variable {enter : Text → Bool → Nat → PreprocessM m Unit}

theorem preserves_shift_obey (f : OpenFile) (group : List Lexeme) (d : DirectiveLine)
    (name : CommandName) :
    Preserves (fun _ => True)
      (fun g => g.shift = f.shift ∨
        ∃ next < signedLimit, g.shift = (next : Int) - (shiftLine d.line (-f.shift) + 1 : Nat))
      (obey enter f group d name) := by
  match name with
  | .define =>
    refine (preserves_shift_flush f).bind fun g hg => ?_
    exact (preserves_true _).bind fun _ _ => preserves_pure (.inl hg)
  | .undef =>
    refine (preserves_shift_flush f).bind fun g hg => ?_
    split
    · exact preserves_throw _
    · exact (preserves_true _).bind fun _ _ => preserves_pure (.inl hg)
  | .include =>
    refine (preserves_shift_flush f).bind fun g hg => ?_
    refine (preserves_true _).bind fun target _ => ?_
    refine (preserves_true _).bind fun _ _ => ?_
    exact (preserves_true _).bind fun _ _ => preserves_pure (.inl hg)
  | .pragma =>
    refine (preserves_shift_flush f).bind fun g hg => ?_
    exact (preserves_true _).bind fun _ _ => preserves_pure (.inl hg)
  | .line => exact (preserves_shift_changeLine f _ _).mono fun _ => .inr

/-- **What is added never adds up.** Behind a line it is what was added before, or what this
    line asks for. -/
theorem shiftedBehind_readLine {groups : List (List Lexeme)} {group : List Lexeme} {f : OpenFile}
    (hshift : ShiftedBehind groups f) (hbehind : LiesBehind groups group) :
    Preserves (fun _ => True) (ShiftedBehind (groups ++ [group])) (readLine enter f group) := by
  have hsame : ShiftedBehind (groups ++ [group]) f := hshift.append [group]
  unfold readLine
  dsimp only
  split
  · split <;> exact preserves_pure hsame
  next d' hd' =>
  -- The line break that is kept does not count.
  have hend {x : PreprocessM m OpenFile}
      (hx : Preserves (fun _ => True) (ShiftedBehind (groups ++ [group])) x) :
      Preserves (fun _ => True) (ShiftedBehind (groups ++ [group]))
        (x >>= fun g =>
          pure { g with pending := g.pending ++ lineBreak (renumber f.shift group) }) :=
    hx.bind fun g hg => preserves_pure hg
  split
  · refine (preserves_true _).bind fun s _ => ?_
    exact (preserves_true _).bind fun conditionals _ => hend (preserves_pure hsame)
  · split
    · refine hend ((preserves_shift_obey f _ d' _).mono fun g hg => ?_)
      obtain hg | ⟨next, hnext, hg⟩ := hg
      · unfold ShiftedBehind at hsame ⊢
        rwa [hg]
      · obtain ⟨d, hd, -⟩ := Option.map_eq_some_iff.1
          ((directive?_relabel (shiftLine · f.shift) group).symm.trans hd')
        obtain ⟨sign, hsign, hsignLine⟩ := exists_mem_of_directive? hd
        obtain ⟨_, hfound, -, hphysical⟩ :=
          (numbersInRange_of_shiftedBehind hshift hbehind).physical d hd
        cases hfound.symm.trans hd'
        refine .inr ⟨group, by simp, sign, hsign, next, hnext, ?_⟩
        rw [hg, hphysical, hsignLine]
        rfl
    · exact hend (preserves_pure hsame)
  · exact hend (preserves_pure hsame)

/-! ## Files -/

/-- On every line of a file the numbers are in range if what is added comes from the lines
    before it, and then what is added behind the line comes from them and from the line. -/
theorem numbersInRange_and_readLine (enter : Text → Bool → Nat → PreprocessM m Unit)
    {file : SourceFile} (hroom : HasRoom file) {before after : List (List Lexeme)}
    {group : List Lexeme}
    (hlines : sourceLines file.contents = before ++ group :: after) {f : OpenFile}
    (hshift : ShiftedBehind before f) :
    f.NumbersInRange group ∧
      Preserves (fun _ => True) (ShiftedBehind (before ++ [group])) (readLine enter f group) := by
  have hbehind := liesBehind_of_sourceLines hroom hlines
  exact ⟨numbersInRange_of_shiftedBehind hshift hbehind, shiftedBehind_readLine hshift hbehind⟩

theorem preserves_numbersInRange {file : SourceFile} (hroom : HasRoom file)
    {before after : List (List Lexeme)} {group : List Lexeme}
    (hlines : sourceLines file.contents = before ++ group :: after) :
    Preserves (fun _ => True) (fun f => f.NumbersInRange group)
      (before.foldlM (readLine enter) { name := file.name }) := by
  have hshift : Preserves (fun _ => True) (ShiftedBehind before)
      (before.foldlM (readLine enter) { name := file.name }) := by
    refine preserves_foldlM (m := m) (R := ShiftedBehind) ?_ (.inl rfl)
    rintro earlier line rest rfl f hf
    have hline : sourceLines file.contents = earlier ++ line :: (rest ++ group :: after) := by
      rw [hlines, List.append_assoc, List.cons_append]
    exact (numbersInRange_and_readLine enter hroom hline hf).2
  exact hshift.mono fun f hf => (numbersInRange_and_readLine enter hroom hlines hf).1

/-- A reader of lines that does what `readLine` does where the numbers are in range. -/
def ReadsInRange (line : LineReader m) : Prop :=
  ∀ enter f group, f.NumbersInRange group → line enter f group = readLine enter f group

theorem readFileWithBy_eq_readFileWith {line : LineReader m} (hline : ReadsInRange line)
    {file : SourceFile} (hroom : HasRoom file) :
    readFileWithBy line file enter = readFileWith file enter := by
  have hlines : (sourceLines file.contents).foldlM (line enter) { name := file.name } =
      (sourceLines file.contents).foldlM (readLine enter) { name := file.name } := by
    refine foldlM_congr_of_preserves (m := m) (R := ShiftedBehind) ?_ (.inl rfl)
    intro before group after hsplit f hf
    obtain ⟨hrange, hread⟩ := numbersInRange_and_readLine enter hroom hsplit hf
    exact ⟨hread, hline enter f group hrange⟩
  unfold readFileWithBy readLinesBy readFileWith
  rw [hlines]

theorem readFileBy_eq_readFile {line : LineReader m} (hline : ReadsInRange line)
    {store : SourceStore m}
    (hstore : ∀ request, Always (fun found => ∀ file ∈ found, HasRoom file) (store.find request))
    (depth : Nat) (around : List Text) {file : SourceFile} (hroom : HasRoom file) :
    readFileBy line store depth around file = readFile store depth around file := by
  induction depth generalizing around file with
  | zero => rfl
  | succ depth ih =>
    rw [readFileBy, readNested, readFile, readFileWithBy_eq_readFileWith hline hroom]
    exact congrArg _ (enterFile_congr hstore
      (fun found hfound => ih (file.name :: around) hfound) _)

theorem hasRoom_of_length_physicalLines {file : SourceFile}
    (h : file.contents.physicalLines.length < 2 ^ 62) : HasRoom file := by
  have hlines := Text.length_physicalLines file.contents
  have hlimit : 2 ^ 62 + 2 < signedLimit := by decide
  unfold HasRoom
  omega

/-- **Line numbers never overflow.** In a file of fewer than `2 ^ 62` lines, whatever line
    directives it has and whatever is done by the files that it includes, all numbers are in
    range on every line that is read: no sum is replaced by 1, each directive finds the physical
    line of its sign, and neither that nor what it asks for leaves its word. So the file is read
    in the same way by any reader of lines that may do as it likes where a number is out of
    range. -/
theorem numbers_in_range {file : SourceFile} (h : file.contents.physicalLines.length < 2 ^ 62)
    (enter : Text → Bool → Nat → PreprocessM m Unit) :
    (∀ before group after, sourceLines file.contents = before ++ group :: after → ∀ s : Session,
        Always (fun r => ∀ f, r.1 = .ok f → f.NumbersInRange group)
          (exec (before.foldlM (readLine enter) { name := file.name }) s)) ∧
      ∀ line : LineReader m, ReadsInRange line →
        readFileWithBy line file enter = readFileWith file enter := by
  have hroom := hasRoom_of_length_physicalLines h
  refine ⟨fun before group after hlines s => ?_, fun line hline =>
    readFileWithBy_eq_readFileWith hline hroom⟩
  exact (preserves_numbersInRange hroom hlines s trivial).mono fun r hr => hr.2

/-- Behind the largest number that a directive can ask for, the next directive has a number that
    does not fit a signed word. -/
theorem numbers_in_range_largest :
    let file : SourceFile := ⟨['a'], "#line 9223372036854775807\n\n#line 0\n".toList⟩
    let enter : Text → Bool → Nat → PreprocessM Id Unit := fun _ _ _ => pure ()
    let before := (sourceLines file.contents).take 2
    let third := Lexeme.relabel (fun _ => 3) (Lexeme.scan "#line 0\n".toList)
    file.contents.physicalLines.length < 2 ^ 62 ∧
      ∃ f, (Id.run (exec (before.foldlM (readLine enter) { name := file.name }) {})).1 = .ok f ∧
        f.NumbersInRange third ∧ f.shift = 9223372036854775805 ∧
        (directive? (renumber f.shift third)).map (·.line) = some 9223372036854775808 := by
  intro file enter before third
  have hroom : file.contents.physicalLines.length < 2 ^ 62 := by decide
  have hlines : sourceLines file.contents = before ++ third :: [] := by
    dsimp only [before, third]
    decide +kernel
  have hshift : (Id.run (exec (before.foldlM (readLine enter) { name := file.name }) {})).1.map
      OpenFile.shift = .ok 9223372036854775805 := by
    dsimp only [before, enter]
    decide +kernel
  have hrange := always_id_iff.1 ((numbers_in_range hroom enter).1 before third [] hlines {})
  refine ⟨hroom, ?_⟩
  cases hrun : (Id.run (exec (before.foldlM (readLine enter) { name := file.name }) {})).1 with
  | error e =>
    rw [hrun] at hshift
    cases hshift
  | ok f =>
    rw [hrun] at hshift
    have hf : f.shift = 9223372036854775805 := Except.ok.inj hshift
    refine ⟨f, rfl, hrange f hrun, hf, ?_⟩
    rw [hf]
    dsimp only [third]
    decide +kernel

end Steps

end Session

/-- It does not matter for a session what is done with numbers that are out of range. -/
theorem preprocessBy_eq_preprocess {m : Type → Type} [Monad m] [LawfulMonad m]
    {line : Session.LineReader m} (hline : Session.ReadsInRange line) {store : SourceStore m}
    (hstore : ∀ request, Always (fun found => ∀ file ∈ found, Session.HasRoom file)
      (store.find request))
    (defines : List Predefinition) {file : SourceFile} (hroom : Session.HasRoom file) :
    preprocessBy line store defines file = preprocess store defines file := by
  rw [← preprocessBy_readLine, preprocessBy, preprocessBy, Session.workBy, Session.workBy,
    Session.readFileBy_eq_readFile hline hstore _ _ hroom, Session.readFileBy_readLine]

end IdlFrontend
