import IdlFrontend.Proofs.Lexeme.Lossless
import IdlFrontend.Proofs.Session.LineReader
import IdlFrontend.Proofs.Session.Output
import IdlFrontend.Proofs.Session.Relabel
import IdlFrontend.Proofs.Source.LineNumbers

/-!
# Line directives

A line directive gives a number to the lines behind it. A session keeps what has to be added
to a physical line, and takes it off again to find the physical line of the next directive.
Here the lines are numbered directly: each from its physical line and from the last line
directive before it, which is all that is remembered of the directives.

The first line behind the line of the sign has the number of the directive. So if a comment
or a continuation extends the directive over more lines, then the lines behind its line
break have numbers that are higher by as many lines as it has more than one.

Results:

* `pairwise_sourceLines`: the lines of a file are in order.
* `foldlM_readLine`: what is added to the lines is never lost and never adds up.
* `run_eq_runNumbered`: a session numbers the lines of all its files directly.
-/

namespace IdlFrontend

open Lexeme

/-! ## Numbers -/

/-- A line directive. -/
structure LineChange where
  /-- The physical line of the sign. -/
  sign : Nat
  /-- The number of the line behind that. -/
  next : Nat

/-- The number of a physical line behind the directive. -/
def LineChange.number (c : LineChange) (physical : Nat) : Nat := c.next + (physical - (c.sign + 1))

/-- The number of a physical line, where `last` is the last line directive before it. -/
def lineNumber (last : Option LineChange) (physical : Nat) : Nat :=
  last.elim physical (·.number physical)

/-- Behind a directive that ends on the line `ended`, the numbers begin with the one of the
    directive if it began on that line, and with a higher one otherwise. -/
theorem LineChange.number_behind_iff (c : LineChange) {ended : Nat} (h : c.sign ≤ ended) (k : Nat) :
    c.number (ended + 1 + k) = c.next + k ↔ ended = c.sign := by
  unfold number
  omega

/-- The file with another number to be added to its physical lines. -/
def OpenFile.moved (shift : Int) (f : OpenFile) : OpenFile := { f with shift }

@[simp] theorem OpenFile.shift_moved (shift : Int) (f : OpenFile) : (f.moved shift).shift = shift :=
rfl

@[simp] theorem OpenFile.conditionals_moved (shift : Int) (f : OpenFile) :
    (f.moved shift).conditionals = f.conditionals := rfl

/-! ## Reading numbered lines -/

namespace Session

section Reader

variable {m : Type → Type} [Monad m]

/-- Obeys the line directive on a line with the given lexemes. Its line break belongs to the line
    that it stands on. -/
def changeNumber (f : OpenFile) (numbered : List Lexeme) (last : Option LineChange)
    (d : DirectiveLine) :
    PreprocessM m (OpenFile × Option LineChange) := do
  let malformed : PreprocessError := ⟨.malformed (.command .line), lineNumber last d.line⟩
  match readLineChange d.lineTarget with
  | none => throw malformed
  | some (next, renamed) =>
    let f ← flush f
    if next < signedLimit then
      match renamed with
      | none => return ({ f with pending := f.pending ++ lineBreak numbered }, some ⟨d.line, next⟩)
      | some name =>
        defineFileName name
        return ({ f with name, pending := f.pending ++ lineBreak numbered }, some ⟨d.line, next⟩)
    else throw malformed

/-- The line directive that a line of a kept region is. -/
def lineDirective? (f : OpenFile) (group : List Lexeme) : Option DirectiveLine :=
  (directive? group).filter fun d => f.conditionals.kept && d.name? == some (.command .line)

/-- Reads one line by the numbers that its lexemes have behind the last line directive.
    Nothing is added to them afterwards. -/
def readNumbered (enter : Text → Bool → Nat → PreprocessM m Unit)
    (state : OpenFile × Option LineChange) (group : List Lexeme) :
    PreprocessM m (OpenFile × Option LineChange) := do
  let (f, last) := state
  let numbered := relabel (lineNumber last) group
  match lineDirective? f group with
  | some d => changeNumber f numbered last d
  | none => return (← readLine enter (f.moved 0) numbered, last)

/-- Reads a file by the numbers of its lines. -/
def readFileNumberedWith (file : SourceFile) (enter : Text → Bool → Nat → PreprocessM m Unit) :
    PreprocessM m Unit := do
  defineFileName file.name
  let (f, _) ← (sourceLines file.contents).foldlM (readNumbered enter) ({ name := file.name }, none)
  let f ← flush f
  MonadExcept.ofExcept f.conditionals.finish

/-- Reads a file that is not included by another one, and the files that it includes, each by
    the numbers of its own lines. -/
def runNumbered (store : SourceStore m) (file : SourceFile) : PreprocessM m Unit :=
  readNested readFileNumberedWith store (store.capacity + 1) [] file

end Reader

/-! ## The lines of a file -/

/-- The lines of a file are in order. -/
theorem pairwise_sourceLines (contents : Text) :
    (sourceLines contents).Pairwise fun group later => ∀ t ∈ group, ∀ u ∈ later, t.line < u.line :=
  pairwise_lines (pairwise_scanFrom 1 _)

/-- The physical lines of the lexemes are those of the file. -/
theorem line_le_of_mem_sourceLines {contents : Text} {group : List Lexeme}
    (hgroup : group ∈ sourceLines contents) {t : Lexeme} (ht : t ∈ group) :
    t.line ≤ contents.lineBreaks + 1 := by
  obtain ⟨before, after, hsplit⟩ := List.append_of_mem (mem_scan_of_mem_sourceLines hgroup ht)
  have hline := line_of_scanFrom 1 _ before t after hsplit
  have htext :=
    text_flatten_scanFrom 1 (Source.joinContinuations (Source.replaceTrigraphs contents))
  have hcount := Source.count_joinContinuations (Source.replaceTrigraphs contents)
  rw [Source.lineBreaks_replaceTrigraphs, ← htext, ← scan, hsplit, List.map_append,
    List.flatten_append, List.count_append] at hcount
  rw [List.flatMap_def] at hline
  omega

/-! ## What is added to the lines -/

/-- What a session adds to the physical lines behind a line directive. -/
def shiftBehind (last : Option LineChange) : Int :=
  last.elim 0 fun c => (c.next : Int) - (c.sign + 1)

/-- The lexemes stand behind the last line directive, on lines whose numbers fit. -/
def StandBehind (last : Option LineChange) (ts : List Lexeme) : Prop :=
  ∀ t ∈ ts, t.line + 1 < signedLimit ∧ ∀ c ∈ last, c.sign < t.line ∧ c.next < signedLimit

variable {last : Option LineChange} {ts : List Lexeme}

/-- What is added makes the number of a physical line, which fits a word. -/
theorem lineNumber_eq_add (h : StandBehind last ts) {t : Lexeme} (ht : t ∈ ts) :
    (lineNumber last t.line : Int) = t.line + shiftBehind last ∧
      lineNumber last t.line < unsignedLimit := by
  obtain ⟨hline, hlast⟩ := h t ht
  have hlimit : signedLimit + signedLimit = unsignedLimit := rfl
  cases last with
  | none =>
    show (t.line : Int) = t.line + 0 ∧ t.line < unsignedLimit
    omega
  | some c =>
    obtain ⟨hsign, hnext⟩ := hlast c rfl
    simp only [shiftBehind, lineNumber, LineChange.number, Option.elim]
    omega

theorem shiftLine_eq_of_add {line sum : Nat} {shift : Int} (h : (sum : Int) = line + shift)
    (hsum : sum < unsignedLimit) : shiftLine line shift = sum := by
  have hshift : (shiftLine line shift : Int) = line + shift :=
    shiftLine_of_bounds (by omega) (by omega)
  omega

theorem renumber_shiftBehind (h : StandBehind last ts) :
    renumber (shiftBehind last) ts = relabel (lineNumber last) ts :=
  List.map_congr_left fun t ht => by
    obtain ⟨hadd, hfits⟩ := lineNumber_eq_add h ht
    rw [shiftLine_eq_of_add hadd hfits]

/-- Taking it off again gives the physical line. -/
theorem shiftLine_neg_shiftBehind (h : StandBehind last ts) {t : Lexeme} (ht : t ∈ ts) :
    shiftLine (lineNumber last t.line) (-shiftBehind last) = t.line := by
  obtain ⟨hadd, -⟩ := lineNumber_eq_add h ht
  have hline := (h t ht).1
  have hlimit : signedLimit < unsignedLimit := by decide
  exact shiftLine_eq_of_add (by omega) (by omega)

theorem renumber_zero_renumber (shift : Int) (ts : List Lexeme) :
    renumber 0 (renumber shift ts) = renumber shift ts := by
  rw [renumber, renumber, List.map_map]
  exact List.map_congr_left fun t _ => by
    show (⟨t.kind, t.text, _⟩ : Lexeme) = _
    rw [shiftLine_zero (shiftLine_lt _ _)]

/-! ## Lines that are no line directives -/

variable {m : Type → Type} [Monad m] [LawfulMonad m]
    {enter : Text → Bool → Nat → PreprocessM m Unit}

theorem flush_moved (shift : Int) (f : OpenFile) :
    flush (f.moved shift) = OpenFile.moved shift <$> (flush f : PreprocessM m OpenFile) := by
  simp only [flush, map_bind, map_pure]
  rfl

theorem obey_moved (shift : Int) (f : OpenFile) (group : List Lexeme) (d : DirectiveLine)
    {name : CommandName} (hname : name ≠ .line) :
    obey enter (f.moved shift) group d name = OpenFile.moved shift <$> obey enter f group d
      name := by
  match name with
  | .define =>
    simp only [obey, flush_moved, map_bind, bind_map_left, map_pure]
  | .undef =>
    simp only [obey, flush_moved, map_bind, bind_map_left]
    refine bind_congr fun g => ?_
    cases firstName? d.args <;> simp
  | .include =>
    simp only [obey, flush_moved, map_bind, bind_map_left, map_pure]
    rfl
  | .pragma =>
    simp only [obey, flush_moved, map_bind, bind_map_left, map_pure]
    rfl
  | .line => exact absurd rfl hname

/-- Renumbering makes no line directive. -/
theorem name?_ne_line {f : OpenFile} {group : List Lexeme} (hother : lineDirective? f group = none)
    (hkept : f.conditionals.kept) {shift : Int} {d : DirectiveLine}
    (hd : directive? (renumber shift group) = some d) : d.name? ≠ some (.command .line) := by
  rw [show renumber shift group = relabel (shiftLine · shift) group from rfl,
    directive?_relabel] at hd
  obtain ⟨d, hd', rfl⟩ := Option.map_eq_some_iff.1 hd
  rw [DirectiveLine.name?_relabel]
  intro hline
  have hfilter := Option.filter_eq_none_iff.1 hother d hd'
  exact hfilter (by simp [hkept, hline])

/-- A line that is no line directive leaves what is added as it was. -/
theorem readLine_moved (shift : Int) (f : OpenFile) {group : List Lexeme}
    (hother : lineDirective? f group = none) :
    readLine enter (f.moved shift) group =
      OpenFile.moved shift <$> readLine enter (f.moved 0) (renumber shift group) := by
  unfold readLine
  rw [OpenFile.shift_moved, OpenFile.shift_moved, renumber_zero_renumber]
  cases hd : directive? (renumber shift group) with
  | none =>
    simp only [hd, map_pure]
    rw [apply_ite (OpenFile.moved shift)]
    rfl
  | some d =>
    cases hname : d.name? with
    | none =>
      simp only [hd, hname, pure_bind, map_pure]
      rfl
    | some name =>
      cases name with
      | branch name =>
        simp only [hd, hname, pure_bind, map_bind, map_pure]
        rfl
      | command name =>
        simp only [hd, hname, OpenFile.conditionals_moved]
        by_cases hkept : f.conditionals.kept
        · have hne : name ≠ .line := by
            rintro rfl
            exact name?_ne_line hother hkept hd hname
          simp only [if_pos hkept, obey_moved _ f _ _ hne, bind_map_left, map_bind, map_pure]
          rfl
        · simp only [if_neg hkept, pure_bind, map_pure]
          rfl

/-! ## Line directives -/

/-- The line of a directive is the one of its sign. -/
theorem exists_mem_of_directive? {group : List Lexeme} {d : DirectiveLine}
    (h : directive? group = some d) :
    ∃ sign ∈ group, sign.line = d.line := by
  obtain ⟨blanks, sign, rest, rfl, -, -, rfl⟩ := exists_of_directive?_eq h
  exact ⟨sign, by simp, rfl⟩

theorem exists_sign {f : OpenFile} {group : List Lexeme} {d : DirectiveLine}
    (h : lineDirective? f group = some d) : ∃ sign ∈ group, sign.line = d.line :=
  exists_mem_of_directive? (Option.filter_eq_some_iff.1 h).1

/-- A line directive finds its physical line by taking off what is added, and what it asks for
    is added behind it. -/
theorem readLine_lineDirective {f : OpenFile} {group : List Lexeme} {d : DirectiveLine}
    {last : Option LineChange} (hd : lineDirective? f group = some d) (h : StandBehind last group) :
    readLine enter (f.moved (shiftBehind last)) group =
      (fun state => state.1.moved (shiftBehind state.2)) <$>
        changeNumber f (relabel (lineNumber last) group) last d := by
  obtain ⟨hdirective, hline⟩ := Option.filter_eq_some_iff.1 hd
  obtain ⟨hkept, hname⟩ := Bool.and_eq_true_iff.1 hline
  have hname' : (d.relabel (lineNumber last)).name? = some (.command .line) := by
    rw [DirectiveLine.name?_relabel]
    exact beq_iff_eq.1 hname
  obtain ⟨sign, hsign, hsignLine⟩ := exists_sign hd
  have hfits : d.line + 1 < signedLimit := hsignLine ▸ (h sign hsign).1
  have hphysical : shiftLine (d.relabel (lineNumber last)).line (-shiftBehind last) = d.line := by
    show shiftLine (lineNumber last d.line) (-shiftBehind last) = d.line
    rw [← hsignLine]
    exact shiftLine_neg_shiftBehind h hsign
  unfold readLine
  rw [OpenFile.shift_moved, renumber_shiftBehind h]
  dsimp only
  rw [directive?_relabel, hdirective]
  simp only [Option.map_some, hname', OpenFile.conditionals_moved, if_pos hkept, obey, changeLine,
    DirectiveLine.lineTarget_relabel, readLineChange_relabel, changeNumber]
  cases readLineChange d.lineTarget with
  | none =>
    simp only [throw_bind, map_throw]
    rfl
  | some change =>
    obtain ⟨next, renamed⟩ := change
    simp only [flush_moved, bind_map_left, map_bind, bind_assoc, OpenFile.shift_moved, hphysical]
    refine bind_congr fun g => ?_
    by_cases hnext : next < signedLimit
    · rw [if_pos ⟨hnext, hfits⟩, if_pos hnext]
      cases renamed with
      | none =>
        simp only [pure_bind, map_pure]
        rfl
      | some name =>
        simp only [bind_assoc, pure_bind, map_bind, map_pure]
        rfl
    · rw [if_neg fun hboth => hnext hboth.1, if_neg hnext, throw_bind, map_throw]
      rfl

/-- What follows a line directive finds it as the last one. -/
theorem changeNumber_bind_congr {β : Type} {f : OpenFile} {numbered : List Lexeme}
    {last : Option LineChange} {d : DirectiveLine}
    {k k' : OpenFile × Option LineChange → PreprocessM m β}
    (h : ∀ g next, next < signedLimit → k (g, some ⟨d.line, next⟩) = k' (g, some ⟨d.line, next⟩)) :
    changeNumber f numbered last d >>= k = changeNumber f numbered last d >>= k' := by
  unfold changeNumber
  cases readLineChange d.lineTarget with
  | none => rw [throw_bind, throw_bind]
  | some change =>
    obtain ⟨next, renamed⟩ := change
    dsimp only
    rw [bind_assoc, bind_assoc]
    refine bind_congr fun g => ?_
    by_cases hnext : next < signedLimit
    · rw [if_pos hnext]
      cases renamed with
      | none => rw [pure_bind, pure_bind, h _ _ hnext]
      | some name =>
        dsimp only
        rw [bind_assoc, bind_assoc]
        refine bind_congr fun _ => ?_
        rw [pure_bind, pure_bind, h _ _ hnext]
    · rw [if_neg hnext, throw_bind, throw_bind]

/-! ## Files -/

/-- What is added to the lines is never lost and never adds up: behind any number of line
    directives it is what the last of them asks for. -/
theorem foldlM_readLine {groups : List (List Lexeme)}
    (horder : groups.Pairwise fun group later => ∀ t ∈ group, ∀ u ∈ later, t.line < u.line)
    {last : Option LineChange} (h : ∀ group ∈ groups, StandBehind last group) (f : OpenFile) :
    groups.foldlM (readLine enter) (f.moved (shiftBehind last)) =
      (fun state => state.1.moved (shiftBehind state.2)) <$>
        groups.foldlM (readNumbered enter) (f, last) := by
  induction groups generalizing f last with
  | nil => rw [List.foldlM_nil, List.foldlM_nil, map_pure]
  | cons group groups ih =>
    obtain ⟨hfirst, horder⟩ := List.pairwise_cons.1 horder
    obtain ⟨hgroup, hlater⟩ := List.forall_mem_cons.1 h
    rw [List.foldlM_cons, List.foldlM_cons, readNumbered]
    cases hline : lineDirective? f group with
    | none =>
      rw [readLine_moved _ f hline, renumber_shiftBehind hgroup]
      simp only [bind_map_left, bind_assoc, pure_bind, map_bind]
      exact bind_congr fun g => ih horder hlater g
    | some d =>
      rw [readLine_lineDirective hline hgroup, bind_map_left, map_bind]
      obtain ⟨sign, hsign, hsignLine⟩ := exists_sign hline
      refine changeNumber_bind_congr fun g next hnext => ih horder (fun later hmem t ht => ?_) g
      refine ⟨(hlater later hmem t ht).1, ?_⟩
      rintro _ ⟨⟩
      exact ⟨hsignLine ▸ hfirst later hmem sign hsign t ht, hnext⟩

/-- The lines of a file, and the one behind the last of them, have numbers that fit a signed
    word. No text that can be kept in memory has more lines. -/
def HasRoom (file : SourceFile) : Prop := file.contents.lineBreaks + 2 < signedLimit

/-- A file is read by the numbers of its lines, whatever the files do that it includes. -/
theorem readFileWith_eq_readFileNumberedWith {file : SourceFile} (h : HasRoom file)
    (enter : Text → Bool → Nat → PreprocessM m Unit) :
    readFileWith file enter = readFileNumberedWith file enter := by
  have hgroups : ∀ group ∈ sourceLines file.contents, StandBehind none group := by
    intro group hgroup t ht
    have hline := line_le_of_mem_sourceLines hgroup ht
    have hroom : file.contents.lineBreaks + 2 < signedLimit := h
    exact ⟨by omega, fun c hc => by cases hc⟩
  have hlines : (sourceLines file.contents).foldlM (readLine enter) { name := file.name } = _ :=
    foldlM_readLine (pairwise_sourceLines file.contents) hgroups { name := file.name }
  unfold readFileWith readFileNumberedWith
  refine bind_congr fun _ => ?_
  refine (congrArg (· >>= _) hlines).trans ?_
  rw [bind_map_left]
  refine bind_congr fun state => ?_
  rw [flush_moved, bind_map_left]
  rfl

theorem lift_bind_congr {α β : Type} {P : α → Prop} {x : m α} (hx : Always P x)
    {f g : α → PreprocessM m β} (h : ∀ a, P a → f a = g a) :
    (liftM x >>= f : PreprocessM m β) = liftM x >>= g :=
  (preserves_lift hx).bind_eq h

/-- Included files are read alike by readers that read all files of the store alike. -/
theorem enterFile_congr {given : SourceFile → Prop} {store : SourceStore m}
    (hstore : ∀ request, Always (fun found => ∀ file ∈ found, given file) (store.find request))
    {read read' : SourceFile → PreprocessM m Unit} (h : ∀ file, given file → read file = read' file)
    (stack : List Text) : enterFile store stack read = enterFile store stack read' := by
  funext name quoted line
  refine lift_bind_congr (hstore _) fun found hfound => ?_
  cases found with
  | none => rfl
  | some found =>
    dsimp only
    split
    · rfl
    · exact h found (hfound found rfl)

theorem readFile_eq_readNested_numbered {store : SourceStore m}
    (hstore : ∀ request, Always (fun found => ∀ file ∈ found, HasRoom file) (store.find request))
    (depth : Nat) (around : List Text) {file : SourceFile} (h : HasRoom file) :
    readFile store depth around file = readNested readFileNumberedWith store depth around file := by
  induction depth generalizing around file with
  | zero => rfl
  | succ depth ih =>
    rw [readFile, readNested, readFileWith_eq_readFileNumberedWith h,
      enterFile_congr hstore fun found hfound => ih (file.name :: around) hfound]

/-- **Line directives number what is behind them.** Every file of a session is read by the
    numbers of its own lines: a line has its physical number up to the first line directive of
    a kept region. Behind one, the line after that of its sign has the number of the directive,
    the `k`-th line after it that number and `k`, up to the next directive. So the numbers
    behind the line break of a directive begin with the one of the directive if the line break
    stands on the line of the sign, and not if a comment or a continuation moved it down. -/
theorem run_eq_runNumbered {store : SourceStore m}
    (hstore : ∀ request, Always (fun found => ∀ file ∈ found, HasRoom file) (store.find request))
    {file : SourceFile} (h : HasRoom file) :
    run store file = runNumbered store file ∧
      ∀ (c : LineChange) (k : Nat), c.number (c.sign + 1 + k) = c.next + k ∧
        ∀ ended, c.sign ≤ ended → (c.number (ended + 1 + k) = c.next + k ↔ ended = c.sign) :=
  ⟨readFile_eq_readNested_numbered hstore _ _ h, fun c k =>
    ⟨(c.number_behind_iff (Nat.le_refl _) k).2 rfl, fun _ hended => c.number_behind_iff hended k⟩⟩

/-- A comment moves the line break behind the first directive down. The included file is
    numbered for itself. -/
theorem run_eq_runNumbered_commented :
    let included : SourceFile := ⟨['b'], "# 100\n__LINE__\n".toList⟩
    let file : SourceFile := ⟨['a'], "#line 10 /*\n*/\n__LINE__\n#include \"b\"\n__LINE__".toList⟩
    let store : SourceStore Id := .ofList [included]
    (∀ request, Always (fun found => ∀ file ∈ found, HasRoom file) (store.find request)) ∧
      HasRoom file ∧ run store file = runNumbered store file ∧
      preprocess store [] file =
        .ok "# 11 \"a\"\n11\n\n# 100 \"b\"\n100\n\n# 13 \"a\"\n13".toList := by
  intro included file store
  have hstore : ∀ request, Always (fun found => ∀ file ∈ found, HasRoom file)
      (store.find request) := by
    refine always_find_ofList (List.forall_mem_singleton.2 ?_)
    unfold HasRoom
    decide
  have hroom : HasRoom file := by
    unfold HasRoom
    decide
  have htext : (preprocess store [] file).run =
      .ok "# 11 \"a\"\n11\n\n# 100 \"b\"\n100\n\n# 13 \"a\"\n13".toList := by
    decide +kernel
  exact ⟨hstore, hroom, (run_eq_runNumbered hstore hroom).1, htext⟩

end Session

end IdlFrontend
