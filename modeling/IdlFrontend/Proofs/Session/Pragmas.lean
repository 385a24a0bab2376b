import Mathlib.Data.Option.Basic
import IdlFrontend.Proofs.Lexer.Pragmas
import IdlFrontend.Proofs.Macro.Condensed
import IdlFrontend.Proofs.MarkedText.WholeLine
import IdlFrontend.Proofs.Session.AtOnce
import IdlFrontend.Proofs.Session.Noting
import IdlFrontend.Proofs.Session.PragmaLine

/-!
# Pragma lines that are kept

Text is written in whole lines: wherever a directive stands, what has been collected ends in a line
feed, and no invocation of a macro takes that line feed with it. So a pragma line begins on a line
of its own, and what is written behind it, also behind the end of an included file, begins with a
line feed.

Results:

* `readLine_of_disabled_pragma`: a pragma that is not kept leaves its line break.
* `noting_flush`: what has been collected is written in whole lines.
* `noting_readLine`: one line later, the pragma lines noted so far are lines of the output.
* `coupled_preprocessBy_notingPragmas`: so they are at the end of a session.
-/

namespace IdlFrontend

namespace Session

open Lexeme

variable {m : Type → Type} [Monad m]

/-! ## Taking notes of pragmas -/

/-- Reads lines as a session does, and notes the pragma lines without comments that are kept. Of a
    pragma line that is not kept, only the line break is looked at. -/
def notingPragmas : LineReader (StateT (List (List Lexeme)) m) := fun enter f group => do
  if isPragma group then
    if f.conditionals.kept then
      let g ← readLine enter f group
      note fun noted => if group.all (·.kind != .comment) then noted ++ [group] else noted
      return g
    else return { f with pending := f.pending ++ lineBreak (renumber f.shift group) }
  else readLine enter f group

variable {enter : Text → Bool → Nat → PreprocessM m Unit} {f g : OpenFile} {group : List Lexeme}

theorem exists_of_isPragma_renumber (h : isPragma group) (shift : Int) :
    ∃ d, directive? (renumber shift group) = some d ∧ d.name? = some (.command .pragma) :=
  exists_of_isPragma ((isPragma_renumber shift group).trans h)

section Readers

variable [LawfulMonad m]

theorem readLine_of_disabled_pragma (h : isPragma group) (hkept : f.conditionals.kept = false) :
    readLine enter f group =
      pure { f with pending := f.pending ++ lineBreak (renumber f.shift group) } := by
  obtain ⟨d, hd, hname⟩ := exists_of_isPragma_renumber h f.shift
  simp only [readLine, hd, hname, hkept, Bool.false_eq_true, if_false, pure_bind]

theorem readLine_of_pragma (h : isPragma group) (hkept : f.conditionals.kept) :
    readLine enter f group = do
      let g ← flush f
      modify fun s =>
        { s with output := s.output.push g.name ((renumber f.shift group).filter staysInPragma) }
      return { g with pending := g.pending ++ lineBreak (renumber f.shift group) } := by
  obtain ⟨d, hd, hname⟩ := exists_of_isPragma_renumber h f.shift
  simp only [readLine, hd, hname, hkept, if_true, obey, bind_assoc, pure_bind]
  rfl

end Readers

/-! ## Whole lines -/

/-- The line is a pragma line without comments of some file. -/
structure IsBarePragma (group : List Lexeme) : Prop where
  source : ∃ contents, group ∈ sourceLines contents
  isPragma : isPragma group
  kind : ∀ t ∈ group, t.kind ≠ .comment

/-- The lines that are noted are such pragma lines, and are lines of the output. -/
structure Kept (s : Session) (noted : List (List Lexeme)) : Prop where
  lines : s.output.KeepsLines (noted.map lineText)
  bare : ∀ group ∈ noted, IsBarePragma group

/-- What is pending begins on another line than what is written. If the last line that was read is
    closed by a line feed, what is pending also ends where a line does. -/
structure Between (closed : Prop) (f : OpenFile) (s : Session) : Prop where
  begins : s.output.cursor.atLineStart ∨ ∀ t ∈ f.pending.head?, t.kind = .newline
  lineStart : closed → f.pending = [] → s.output.cursor.atLineStart
  last : closed → ∀ t ∈ f.pending.getLast?, t.kind = .newline

/-- The line is closed by a line feed. -/
def IsClosed (group : List Lexeme) : Prop := ∀ t ∈ group.getLast?, t.kind = .newline

variable {s : Session} {noted : List (List Lexeme)} {closed : Prop} {ts us : List Lexeme}

theorem Between.append (h : Between True f s) (ts : List Lexeme)
    (hpending : g.pending = f.pending ++ ts) (hts : closed → ts ≠ [] ∧ IsClosed ts) :
    Between closed g s := by
  refine ⟨?_, fun hclosed hnil => ?_, fun hclosed t ht => ?_⟩
  · cases hf : f.pending with
    | nil => exact .inl (h.lineStart trivial hf)
    | cons t us =>
      refine h.begins.imp id fun hhead u hu => hhead u ?_
      rw [hpending, hf] at hu
      rw [hf]
      exact hu
  · rw [hpending, List.append_eq_nil_iff] at hnil
    exact absurd hnil.2 (hts hclosed).1
  · obtain ⟨hne, hlast⟩ := hts hclosed
    rw [hpending, List.getLast?_append_of_ne_nil _ hne] at ht
    exact hlast t ht

theorem between_of_lineFeeds (ts : List Lexeme) (hpending : g.pending = ts)
    (hts : ∀ t ∈ ts, t.kind = .newline) (hne : closed → ts ≠ []) : Between closed g s := by
  subst hpending
  exact ⟨.inr fun t ht => hts t (List.mem_of_mem_head? ht), fun hclosed hnil => absurd hnil
    (hne hclosed), fun _ t ht => hts t (List.mem_of_getLast? ht)⟩

theorem IsClosed.renumber (h : IsClosed group) (shift : Int) : IsClosed (renumber shift group) := by
  intro t ht
  rw [Session.renumber, List.getLast?_map] at ht
  obtain ⟨u, hu, rfl⟩ := Option.mem_map.1 ht
  exact h u hu

theorem IsClosed.lineBreak_ne_nil (h : IsClosed group) (hne : group ≠ []) :
    lineBreak group ≠ [] := by
  have hlast := List.getLast?_eq_getLast_of_ne_nil hne
  rw [lineBreak, hlast]
  simp [h _ hlast]

/-! ## What is written -/

/-- Expansion leaves a line feed in front where it is. -/
theorem head?_expand {table : MacroTable} (h : ∀ t ∈ ts.head?, t.kind = .newline)
    (hus : table.expand ts = .ok us) : ∀ t ∈ us.head?, t.kind = .newline := by
  cases ts with
  | nil =>
    rw [expand_nil] at hus
    cases hus
    exact fun t ht => by cases ht
  | cons t ts =>
    have ht : t.kind = .newline := h t rfl
    rw [MacroTable.expand_cons_blank _ (isBlank_of_newline ht)] at hus
    obtain ⟨vs, -, rfl⟩ := exists_of_map_eq_ok hus
    exact fun u hu => by cases hu; exact ht

/-- Expansion leaves a line feed at the end where it is. -/
theorem getLast?_expand {table : MacroTable} (h : IsClosed ts) (hus : table.expand ts = .ok us) :
    IsClosed us ∧ (us = [] → ts = []) := by
  rcases List.eq_nil_or_concat ts with rfl | ⟨front, t, rfl⟩
  · rw [expand_nil] at hus
    cases hus
    exact ⟨h, fun _ => rfl⟩
  · rw [List.concat_eq_append] at h hus
    have ht : t.kind = .newline := h t List.getLast?_concat
    rw [MacroTable.expand_append_blank _
      (List.forall_mem_singleton.2 (isBlank_of_newline ht))] at hus
    obtain ⟨vs, -, rfl⟩ := exists_of_map_eq_ok hus
    refine ⟨fun u hu => ?_, fun hnil => ?_⟩
    · rw [List.getLast?_concat] at hu
      cases hu
      exact ht
    · exact absurd hnil (by simp)

/-- What has been collected leaves the lines whole, and its own last line too if that is closed. -/
theorem Between.push (h : Between closed f s) {lines : List Text}
    (hlines : s.output.KeepsLines lines) (hts : s.macros.expand f.pending = .ok ts) :
    (s.output.push f.name ts).KeepsLines lines ∧
      (closed → (s.output.push f.name ts).cursor.atLineStart) := by
  refine ⟨hlines.push (h.begins.imp id fun hhead => head?_expand hhead hts) f.name,
    fun hclosed => ?_⟩
  obtain ⟨hlast, hnil⟩ := getLast?_expand (h.last hclosed) hts
  rw [MarkedText.cursor_push]
  exact hlines.cursor.atLineStart_writeAll hlast (fun hts => h.lineStart hclosed (hnil hts)) f.name

theorem Kept.of_output_eq {t : Session} (h : Kept s noted) (heq : t.output = s.output) :
    Kept t noted := by
  refine ⟨?_, h.bare⟩
  rw [heq]
  exact h.lines

/-! ## Steps -/

/-- Reading an included file takes notes of pragma lines, and writes its text in whole lines. -/
def NotesInclude (enter : Text → Bool → Nat → PreprocessM (StateT (List (List Lexeme)) m) Unit)
    (enter' : Text → Bool → Nat → PreprocessM m Unit) : Prop :=
  ∀ name quoted line s noted, Kept s noted → s.output.cursor.atLineStart →
    Noting (fun _ s' noted' => Kept s' noted') (enter name quoted line) noted
      (enter' name quoted line) s

section Steps

variable [LawfulMonad m]
  {enter : Text → Bool → Nat → PreprocessM (StateT (List (List Lexeme)) m) Unit}
  {enter' : Text → Bool → Nat → PreprocessM m Unit}

theorem noting_flush (hkept : Kept s noted) (h : Between closed f s) :
    Noting (m := m) (fun g s' noted' => g = { f with pending := [] } ∧ Kept s' noted' ∧
      (closed → s'.output.cursor.atLineStart)) (flush f) noted (flush f) s := by
  refine noting_of_exec (exec_flush f s) (exec_flush f s) fun g hg => ?_
  cases hts : s.macros.expand f.pending with
  | error e =>
    rw [hts] at hg
    cases hg
  | ok ts =>
    rw [hts] at hg
    cases hg
    obtain ⟨hlines, hstart⟩ := h.push hkept.lines hts
    exact ⟨rfl, ⟨hlines, hkept.bare⟩, hstart⟩

theorem noting_defineLexemes (args : List Lexeme) (line : Nat) :
    Noting (m := m) (fun _ s' noted' => s'.output = s.output ∧ noted' = noted)
      (defineLexemes args line) noted (defineLexemes args line) s := by
  refine noting_of_exec (exec_defineLexemes args line s) (exec_defineLexemes args line s)
    fun _ _ => ?_
  cases s.macros.define args line <;> exact ⟨rfl, rfl⟩

theorem noting_includeTarget (args : List Lexeme) (line : Nat) :
    Noting (m := m) (fun _ s' noted' => s' = s ∧ noted' = noted)
      (includeTarget args line) noted (includeTarget args line) s :=
  noting_iff.2 (notingAlways_includeTarget args line trivial)

/-- A command leaves nothing pending. -/
def Obeyed (g : OpenFile) (s : Session) (noted : List (List Lexeme)) : Prop :=
  g.pending = [] ∧ Kept s noted

theorem noting_changeLine (hkept : Kept s noted) (h : Between True f s) (target : List Lexeme)
    (line : Nat) :
    Noting (m := m) Obeyed (changeLine f target line) noted (changeLine f target line) s := by
  unfold changeLine
  split
  · exact noting_throw _
  · refine (noting_flush hkept h).bind ?_
    rintro _ s noted ⟨rfl, hkept, -⟩
    dsimp only
    split
    · split
      · exact noting_pure ⟨rfl, hkept⟩
      · refine (noting_defineLexemes _ _).bind ?_
        rintro _ s' _ ⟨houtput, rfl⟩
        exact noting_pure ⟨rfl, hkept.of_output_eq houtput⟩
    · exact noting_throw _

theorem noting_obey (henter : NotesInclude enter enter') (hkept : Kept s noted)
    (h : Between True f s) (group : List Lexeme) (d : DirectiveLine) {command : CommandName}
    (hcommand : command ≠ .pragma) :
    Noting Obeyed (obey enter f group d command) noted (obey enter' f group d command) s := by
  match command with
  | .define =>
    refine (noting_flush hkept h).bind ?_
    rintro _ s noted ⟨rfl, hkept, -⟩
    refine (noting_defineLexemes _ _).bind ?_
    rintro _ s' _ ⟨houtput, rfl⟩
    exact noting_pure ⟨rfl, hkept.of_output_eq houtput⟩
  | .undef =>
    refine (noting_flush hkept h).bind ?_
    rintro _ s noted ⟨rfl, hkept, -⟩
    split
    · exact noting_throw _
    · refine (noting_modify (Q := fun _ => Kept) (hkept.of_output_eq rfl)).bind
        fun _ s noted hkept => ?_
      exact noting_pure ⟨rfl, hkept⟩
  | .include =>
    refine (noting_flush hkept h).bind ?_
    rintro _ s noted ⟨rfl, hkept, hstart⟩
    refine (noting_includeTarget _ _).bind ?_
    rintro ⟨name, quoted⟩ _ _ ⟨rfl, rfl⟩
    refine (henter name quoted d.line _ _ hkept (hstart trivial)).bind fun _ s noted hkept => ?_
    refine (noting_defineLexemes _ _).bind ?_
    rintro _ s' _ ⟨houtput, rfl⟩
    exact noting_pure ⟨rfl, hkept.of_output_eq houtput⟩
  | .pragma => exact absurd rfl hcommand
  | .line => exact noting_changeLine hkept h _ _

/-! ## Lines -/

/-- What is known behind a line. -/
def Passed (group : List Lexeme) (g : OpenFile) (s : Session) (noted : List (List Lexeme)) : Prop :=
  Kept s noted ∧ Between (IsClosed group) g s

theorem ends_of_isClosed (hne : group ≠ []) (shift : Int) (hclosed : IsClosed group) :
    lineBreak (renumber shift group) ≠ [] ∧ IsClosed (lineBreak (renumber shift group)) :=
  ⟨(hclosed.renumber shift).lineBreak_ne_nil (by simpa [renumber] using hne),
    fun _ ht => kind_of_mem_lineBreak (List.mem_of_getLast? ht)⟩

/-- Behind a command, only its line break is pending. -/
theorem Obeyed.passed (h : Obeyed g s noted) (hne : group ≠ []) (shift : Int) :
    Passed group { g with pending := g.pending ++ lineBreak (renumber shift group) } s noted := by
  refine ⟨h.2, between_of_lineFeeds (lineBreak (renumber shift group)) ?_
    (fun _ => kind_of_mem_lineBreak) fun hclosed => (ends_of_isClosed hne shift hclosed).1⟩
  rw [h.1, List.nil_append]

/-- A line that is no pragma. -/
theorem noting_readLine (henter : NotesInclude enter enter') (hne : group ≠ [])
    (hpragma : isPragma group = false) (hkept : Kept s noted) (h : Between True f s) :
    Noting (Passed group) (readLine enter f group) noted (readLine enter' f group) s := by
  have hbreak {g : OpenFile} (hg : g.pending = f.pending) :
      Passed group { g with pending := g.pending ++ lineBreak (renumber f.shift group) } s
        noted := by
    refine ⟨hkept, h.append (lineBreak (renumber f.shift group)) ?_ (ends_of_isClosed hne f.shift)⟩
    rw [hg]
  unfold readLine
  dsimp only
  split
  · refine noting_pure ?_
    split
    · refine ⟨hkept, h.append _ rfl fun hclosed => ⟨by simpa [renumber] using hne,
        hclosed.renumber _⟩⟩
    · exact ⟨hkept, h.begins, fun _ => h.lineStart trivial, fun _ => h.last trivial⟩
  next d hd =>
    split
    next name hname =>
      simp only [pure_bind]
      refine noting_get_bind ?_
      refine (noting_ofExcept (Q := fun _ s' noted' => s' = s ∧ noted' = noted) _ fun _ _ => ⟨rfl,
        rfl⟩).bind ?_
      rintro conditionals _ _ ⟨rfl, rfl⟩
      exact noting_pure (hbreak (g := { f with conditionals }) rfl)
    next command hname =>
      split
      · have hcommand : command ≠ .pragma := by
          rintro rfl
          rw [← isPragma_renumber f.shift, isPragma, hd, Option.any_some, hname] at hpragma
          exact absurd hpragma (by decide)
        exact (noting_obey henter hkept h _ d hcommand).bind fun g s noted hg =>
          noting_pure (hg.passed hne f.shift)
      · rw [pure_bind, pure_bind]
        exact noting_pure (hbreak rfl)
    next hname =>
      rw [pure_bind, pure_bind]
      exact noting_pure (hbreak rfl)

/-- A pragma line that is kept is a line of the output, if it has no comments. -/
theorem noting_readLine_pragma {contents : Text} (hgroup : group ∈ sourceLines contents)
    (hpragma : isPragma group) (hcond : f.conditionals.kept) (hkept : Kept s noted)
    (h : Between True f s) :
    Noting (m := m) (fun g s' noted' =>
        Kept s' (if group.all (·.kind != .comment) then noted' ++ [group] else noted') ∧
          Between (IsClosed group) g s')
      (readLine enter f group) noted (readLine enter' f group) s := by
  rw [readLine_of_pragma hpragma hcond, readLine_of_pragma hpragma hcond]
  refine (noting_flush hkept h).bind ?_
  rintro _ s noted ⟨rfl, hkept, hstart⟩
  refine (noting_modify (Q := fun _ s' noted' =>
    Kept s' (if group.all (·.kind != .comment) then noted' ++ [group] else noted')) ?_).bind ?_
  · split
    next hall =>
      have hcomment : ∀ t ∈ group, t.kind ≠ .comment := by simpa using hall
      obtain ⟨between, tail, htext, hbetween, htail, -⟩ :=
        exists_pragmaLine_eq hgroup hcomment hpragma
      obtain ⟨n, hline, hcollapsed⟩ := exists_oneLine_of_mem_sourceLines hgroup hcomment f.shift
      have hinline : '\n' ∉ lineText group := by
        rw [htext]
        exact fun hmem => absurd (Pattern.isInline_of_mem_pragmaLine hbetween htail _ hmem)
          (by decide)
      refine ⟨?_, List.forall_mem_append.2 ⟨hkept.bare, List.forall_mem_singleton.2 ?_⟩⟩
      · rw [List.map_append, List.map_singleton, ← hcollapsed]
        refine hkept.lines.push_oneLine (hstart trivial) hline ?_ ?_ f.name
        · rw [hcollapsed, htext]
          exact List.cons_ne_nil _ _
        · rwa [hcollapsed]
      · exact ⟨⟨contents, hgroup⟩, hpragma, hcomment⟩
    · exact ⟨hkept.lines.push (.inl (hstart trivial)) f.name, hkept.bare⟩
  · intro _ s noted hkept
    refine noting_pure ⟨hkept, between_of_lineFeeds (lineBreak (renumber f.shift group)) rfl
      (fun _ => kind_of_mem_lineBreak) fun hclosed => ?_⟩
    exact (ends_of_isClosed (ne_nil_of_mem_lines hgroup) f.shift hclosed).1

theorem noting_notingPragmas {contents : Text} (henter : NotesInclude enter enter')
    (hgroup : group ∈ sourceLines contents) (hkept : Kept s noted) (h : Between True f s) :
    Noting (Passed group) (notingPragmas enter f group) noted (readLine enter' f group) s := by
  have hne := ne_nil_of_mem_lines hgroup
  unfold notingPragmas
  split
  next hpragma =>
    split
    next hcond =>
      rw [← bind_pure (readLine enter' f group)]
      refine (noting_readLine_pragma hgroup hpragma hcond hkept h).bind fun g s noted hg => ?_
      exact noting_note_bind (noting_pure hg)
    next hcond =>
      rw [readLine_of_disabled_pragma hpragma (by simpa using hcond)]
      exact noting_pure ⟨hkept, h.append _ rfl (ends_of_isClosed hne f.shift)⟩
  next hpragma => exact noting_readLine henter hne (by simpa using hpragma) hkept h

/-! ## Files -/

/-- What is known behind some lines of a file, where another one is to be read. -/
def Behind (before : List (List Lexeme)) (g : OpenFile) (s : Session) (noted : List (List Lexeme)) :
    Prop :=
  Kept s noted ∧ Between (∀ line ∈ before.getLast?, IsClosed line) g s

theorem noting_readFileBy (store : SourceStore m) (depth : Nat) (around : List Text)
    (file : SourceFile) (hkept : Kept s noted) (hstart : s.output.cursor.atLineStart) :
    Noting (fun _ => Kept) (readFileBy notingPragmas store.noting depth around file) noted
      (readFile store depth around file) s := by
  induction depth generalizing around file s noted with
  | zero => exact noting_pure hkept
  | succ depth ih =>
    refine (noting_defineLexemes _ _).bind ?_
    rintro _ s' noted ⟨houtput, rfl⟩
    have hopen : Behind [] { name := file.name } s' noted :=
      ⟨hkept.of_output_eq houtput, .inl (houtput ▸ hstart), fun _ _ => houtput ▸ hstart,
        fun _ t ht => by cases ht⟩
    refine (noting_foldlM (Q := Behind) ?_ hopen).bind fun g s noted hg => ?_
    · rintro before group after hlines g s noted ⟨hkept, hbetween⟩
      have hgroup : group ∈ sourceLines file.contents := by
        rw [hlines]
        simp
      -- Another line follows on the line before, and so that one is closed.
      have hclosed : ∀ line ∈ before.getLast?, IsClosed line := by
        intro line hline
        obtain ⟨front, rfl⟩ := List.getLast?_eq_some_iff.1 hline
        have hfront : sourceLines file.contents =
            front ++ line :: group :: after := by simpa using hlines
        exact getLast?_of_lines hfront
      refine (noting_notingPragmas (fun name quoted line s noted hkept hstart => ?_) hgroup hkept
        ⟨hbetween.begins, fun _ => hbetween.lineStart hclosed, fun _ => hbetween.last
        hclosed⟩).mono ?_
      · refine noting_find_bind fun found => ?_
        cases found with
        | none => exact noting_throw _
        | some found =>
          dsimp only
          split
          · exact noting_throw _
          · exact ih _ found hkept hstart
      · rintro g s noted ⟨hkept, hpassed⟩
        exact ⟨hkept, by simpa using hpassed⟩
    · refine (noting_flush hg.1 hg.2).bind ?_
      rintro _ s noted ⟨rfl, hkept, -⟩
      exact noting_ofExcept _ fun _ _ => hkept

theorem noting_workBy (store : SourceStore m) (defines : List Predefinition) (file : SourceFile) :
    Noting (fun _ => Kept) (workBy notingPragmas store.noting defines file) []
      (workBy readLine store defines file) {} := by
  have hdefines (s : Session) (houtput : s.output = {}) :
      Noting (m := m) (fun _ s' noted' => s'.output = {} ∧ noted' = ([] : List (List Lexeme)))
        (defines.forM Session.define) [] (defines.forM Session.define) s := by
    induction defines generalizing s with
    | nil => exact noting_pure ⟨houtput, rfl⟩
    | cons d defines ih =>
      refine (noting_defineLexemes _ _).bind ?_
      rintro _ s' _ ⟨heq, rfl⟩
      exact ih s' (heq.trans houtput)
  refine (hdefines {} rfl).bind ?_
  rintro _ s _ ⟨houtput, rfl⟩
  have hkept : Kept s [] := by
    refine ⟨?_, List.forall_mem_nil _⟩
    rw [houtput]
    exact MarkedText.keepsLines_empty
  have hfile := noting_readFileBy store (store.capacity + 1) [] file hkept (by rw [houtput])
  rwa [readFileBy_readLine]

end Steps

end Session

/-- A session that takes notes of pragmas does what it does when it takes none, and the pragma lines
    that it notes are lines of its output. -/
theorem coupled_preprocessBy_notingPragmas {m : Type → Type} [Monad m] [LawfulMonad m]
    (store : SourceStore m) (defines : List Predefinition) (file : SourceFile) :
    Coupled (fun p r => p.1 = r ∧ ∀ cs, p.1 = .ok cs →
        (p.2.map lineText).Sublist (cs.splitOn '\n') ∧ ∀ group ∈ p.2, Session.IsBarePragma group)
      (StateT.run (preprocessBy Session.notingPragmas store.noting defines file) [])
      (preprocess store defines file) := by
  rw [← preprocessBy_readLine]
  refine Coupled.bind (Session.noting_workBy store defines file) ?_
  rintro ⟨_, noted⟩ ⟨r, s⟩ ⟨rfl, hkept⟩
  refine coupled_pure ⟨rfl, fun cs hcs => ?_⟩
  cases r with
  | error e => cases hcs
  | ok a =>
    cases hcs
    have h := hkept a rfl
    exact ⟨h.lines.sublist, h.bare⟩

end IdlFrontend
