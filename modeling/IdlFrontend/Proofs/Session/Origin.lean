import IdlFrontend.Preprocess.Session
import IdlFrontend.Proofs.Macro.Closure
import IdlFrontend.Proofs.Macro.Define
import IdlFrontend.Proofs.MarkedText.Chunks

/-!
# Where the chunks of an output come from

A session writes two kinds of chunks: what is kept of a pragma line, and the expansion
of lines of text. The lines stand in regions of their files that are kept.

Results:

* `IsPragmaLine.exists_shape`: what is kept of a pragma line begins with its number sign
  and the word `pragma`, up to spaces.
* `IsPragmaLine.proper`, `IsText.proper`: the lexemes of both are whole, on lines whose
  numbers fit 64 bits.
-/

namespace IdlFrontend

open Session (renumber lineBreak sourceLines)

/-! ## Kept lines -/

/-- The conditionals that may be open behind the given lines of a file: those that the
    directives on the lines open, with conditions evaluated by some macros. -/
inductive Conditionals.Behind : List (List Lexeme) → Conditionals → Prop
  | start : Behind [] []
  | other {groups : List (List Lexeme)} {cs : Conditionals} {group : List Lexeme} {shift : Int}
      (h : Behind groups cs)
      (hother : ∀ d ∈ directive? (renumber shift group), ∀ name, d.name? ≠ some (.branch name)) :
      Behind (groups ++ [group]) cs
  | branch {groups : List (List Lexeme)} {cs cs' : Conditionals} {group : List Lexeme}
      {shift : Int} {d : DirectiveLine} {name : BranchName} {macros : MacroTable}
      (h : Behind groups cs) (hd : directive? (renumber shift group) = some d)
      (hname : d.name? = some (.branch name))
      (hcs : cs.branch d.line (fun _ => d.branchHolds macros name) name = Except.ok cs') :
      Behind (groups ++ [group]) cs'

/-- A line of a file that stands in a region that is kept. -/
def IsKeptLine (file : SourceFile) (group : List Lexeme) : Prop :=
  ∃ before after cs, sourceLines file.contents = before ++ group :: after ∧
    Conditionals.Behind before cs ∧ cs.kept

/-- Whether a lexeme is kept of a pragma line. -/
def Lexeme.staysInPragma (t : Lexeme) : Bool := t.kind != .comment && t.kind != .newline

/-- The lexemes are what is kept of an enabled pragma line of a file. -/
def IsPragmaLine (file : SourceFile) (ts : List Lexeme) : Prop :=
  ∃ group shift d, IsKeptLine file group ∧ directive? (renumber shift group) = some d ∧
    d.name? = some (.command .pragma) ∧ ts = (renumber shift group).filter Lexeme.staysInPragma

/-- The lexemes are kept lines of a file that are no directives, and line breaks of
    lines that are. -/
inductive IsText (file : SourceFile) : List Lexeme → Prop
  | nil : IsText file []
  | line {ts group : List Lexeme} {shift : Int} (h : IsText file ts) (hkept : IsKeptLine file group)
      (hnone : directive? (renumber shift group) = none) : IsText file (ts ++ renumber shift group)
  | lineBreak {ts group : List Lexeme} {shift : Int} (h : IsText file ts)
      (hmem : group ∈ sourceLines file.contents)
      (hsome : (directive? (renumber shift group)).isSome) :
      IsText file (ts ++ lineBreak (renumber shift group))

/-- The chunk is what is kept of an enabled pragma line, or else the expansion of text, of
    one of the given files. -/
def Chunk.ComesFrom (given : SourceFile → Prop) (c : Chunk) : Prop :=
  ∃ file, given file ∧
    if c.isPragma then IsPragmaLine file c.lexemes
    else ∃ (table : MacroTable) (ts : List Lexeme), IsText file ts ∧ table.expand ts = .ok c.lexemes

/-! ## Their lexemes -/

theorem shiftLine_lt (line : Nat) (shift : Int) : shiftLine line shift < unsignedLimit := by
  unfold shiftLine
  split
  · omega
  · decide

theorem proper_renumber {file : SourceFile} {group : List Lexeme}
    (h : group ∈ sourceLines file.contents) (shift : Int) :
    ∀ t ∈ renumber shift group, t.Proper := by
  intro t ht
  obtain ⟨u, hu, rfl⟩ := List.mem_map.1 ht
  have hmem :
      u ∈ Lexeme.scan (Source.joinContinuations (Source.replaceTrigraphs file.contents)) := by
    rw [← Lexeme.flatten_lines (Lexeme.scan _)]
    exact List.mem_flatten_of_mem h hu
  exact ⟨Lexeme.isWhole_of_mem_scan u hmem, shiftLine_lt _ _⟩

theorem mem_of_mem_lineBreak {group : List Lexeme} {t : Lexeme} (h : t ∈ lineBreak group) :
    t ∈ group :=
  List.mem_of_getLast? (by simpa using (List.mem_filter.1 h).1)

theorem IsKeptLine.mem {file : SourceFile} {group : List Lexeme} (h : IsKeptLine file group) :
    group ∈ sourceLines file.contents := by
  obtain ⟨before, after, cs, hlines, -⟩ := h
  rw [hlines]
  simp

theorem IsText.proper {file : SourceFile} {ts : List Lexeme} (h : IsText file ts) :
    ∀ t ∈ ts, t.Proper := by
  induction h with
  | nil => exact List.forall_mem_nil _
  | line _ hkept _ ih => exact List.forall_mem_append.2 ⟨ih, proper_renumber hkept.mem _⟩
  | lineBreak _ hmem _ ih =>
    exact List.forall_mem_append.2
      ⟨ih, fun t ht => proper_renumber hmem _ t (mem_of_mem_lineBreak ht)⟩

theorem IsPragmaLine.proper {file : SourceFile} {ts : List Lexeme} (h : IsPragmaLine file ts) :
    ∀ t ∈ ts, t.Proper := by
  obtain ⟨group, shift, d, hkept, -, -, rfl⟩ := h
  exact fun t ht => proper_renumber hkept.mem shift t (List.mem_filter.1 ht).1

/-- Expansion makes whole lexemes of whole lexemes, on the lines that they stand on. -/
theorem proper_expand {table : MacroTable} {ts us : List Lexeme}
    (htable : ∀ m ∈ table.macros, ∀ t ∈ m.body, Lexeme.IsWhole t.kind t.text)
    (hts : ∀ t ∈ ts, t.Proper) (h : table.expand ts = .ok us) : ∀ u ∈ us, u.Proper := by
  have hadmits : MacroTable.Admits Lexeme.IsWhole (· < unsignedLimit) :=
    ⟨fun _ => Lexeme.isWhole_ofNat _, rfl, rfl⟩
  exact MacroTable.expand_forall hadmits htable hts h

/-! ## The shape of directives -/

/-- A directive begins with its number sign, up to spaces. -/
theorem exists_of_directive?_eq {group : List Lexeme} {d : DirectiveLine}
    (h : directive? group = some d) :
    ∃ blanks sign rest, group = blanks ++ sign :: rest ∧ (∀ t ∈ blanks, t.kind = .space) ∧
      sign.isPunct '#' ∧ d = ⟨sign.line, Lexeme.stripBlank rest⟩ := by
  unfold directive? at h
  split at h
  next sign rest heq =>
    split at h
    next hsign =>
      cases h
      refine ⟨group.takeWhile (·.kind == .space), sign, rest, ?_, ?_, hsign, rfl⟩
      · rw [← heq, List.takeWhile_append_dropWhile]
      · exact fun t ht => by simpa using List.mem_takeWhile_imp ht
    · cases h
  · cases h

theorem mem_of_mem_content {group : List Lexeme} {d : DirectiveLine} (h : directive? group = some d)
    {t : Lexeme} (ht : t ∈ d.content) : t ∈ group := by
  obtain ⟨blanks, sign, rest, rfl, -, -, rfl⟩ := exists_of_directive?_eq h
  exact List.mem_append_right _ (List.mem_cons_of_mem _ (Lexeme.mem_of_mem_stripBlank ht))

theorem mem_of_mem_args {group : List Lexeme} {d : DirectiveLine} (h : directive? group = some d)
    {t : Lexeme} (ht : t ∈ d.args) : t ∈ group :=
  mem_of_mem_content h (List.mem_of_mem_tail (Lexeme.mem_of_mem_stripBlank ht))

/-- The first lexeme of a list without the blank ones at its ends is the first one of the
    list that is not blank. -/
theorem Lexeme.exists_of_stripBlank_eq_cons {ts us : List Lexeme} {t : Lexeme}
    (h : stripBlank ts = t :: us) :
    ∃ blanks vs, ts = blanks ++ t :: vs ∧ (∀ b ∈ blanks, b.isBlank) ∧ t.isBlank = false := by
  induction ts with
  | nil => cases h
  | cons u ts ih =>
    cases hu : u.isBlank with
    | true =>
      rw [stripBlank_cons_of_isBlank hu] at h
      obtain ⟨blanks, vs, rfl, hblanks, ht⟩ := ih h
      exact ⟨u :: blanks, vs, rfl, List.forall_mem_cons.2 ⟨hu, hblanks⟩, ht⟩
    | false =>
      rw [stripBlank_cons_of_not_isBlank hu] at h
      obtain ⟨rfl, -⟩ := List.cons.inj h
      exact ⟨[], ts, rfl, List.forall_mem_nil _, hu⟩

/-- What is kept of a pragma line is its number sign and the word `pragma`, with spaces
    before, between and behind them, and what follows. -/
theorem IsPragmaLine.exists_shape {file : SourceFile} {ts : List Lexeme}
    (h : IsPragmaLine file ts) :
    ∃ blanks sign spaces word rest, ts = blanks ++ sign :: (spaces ++ word :: rest) ∧
      (∀ t ∈ blanks, t.kind = .space) ∧ sign.isPunct '#' ∧ (∀ t ∈ spaces, t.kind = .space) ∧
      word.isBlank = false ∧ word.text = "pragma".toList := by
  obtain ⟨group, shift, d, -, hd, hname, rfl⟩ := h
  obtain ⟨blanks, sign, rest, hgroup, hblanks, hsign, rfl⟩ := exists_of_directive?_eq hd
  unfold DirectiveLine.name? at hname
  split at hname
  · cases hname
  next word more hcontent =>
    obtain ⟨spaces, vs, rfl, hspaces, hword⟩ := Lexeme.exists_of_stripBlank_eq_cons hcontent
    have htext : word.text = "pragma".toList := by
      split at hname
      · cases hname
      · have := List.find?_some hname
        simpa [DirectiveName.spelling, CommandName.spelling] using (beq_iff_eq.1 this).symm
    have hstays {t : Lexeme} (ht : t.isBlank = false) : t.staysInPragma := by
      obtain ⟨-, hnewline, hcomment⟩ := Lexeme.isBlank_eq_false_iff.1 ht
      simp [Lexeme.staysInPragma, hnewline, hcomment]
    have hsignBlank := Lexeme.isBlank_of_isPunct hsign
    refine ⟨blanks, sign, spaces.filter Lexeme.staysInPragma, word,
      vs.filter Lexeme.staysInPragma, ?_, hblanks, hsign, ?_, hword, htext⟩
    · have hall : ∀ t ∈ blanks, t.staysInPragma := by
        intro t ht
        simp [Lexeme.staysInPragma, hblanks t ht]
      rw [hgroup, List.filter_append, List.filter_cons_of_pos (hstays hsignBlank),
        List.filter_append, List.filter_cons_of_pos (hstays hword), List.filter_eq_self.2 hall]
    · intro t ht
      obtain ⟨hmem, hother⟩ := List.mem_filter.1 ht
      have hblank := hspaces t hmem
      simp only [Lexeme.isBlank, Lexeme.staysInPragma, Bool.or_eq_true, beq_iff_eq,
        Bool.and_eq_true, bne_iff_ne] at hblank hother
      rcases hblank with (hspace | hnewline) | hcomment
      · exact hspace
      · exact absurd hnewline hother.2
      · exact absurd hcomment hother.1

end IdlFrontend
