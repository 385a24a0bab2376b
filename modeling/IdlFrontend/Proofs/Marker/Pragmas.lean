import IdlFrontend.Proofs.Parser.Heads
import IdlFrontend.Proofs.Session.Pragmas

/-!
# Pragmas from a source to the lexer

A pragma is not expanded. Its line comes to the output as it is written, up to space, and the lexer
records what it says if it is in its ordinary mode where the line begins.

Results:

* `exists_step?_of_line`: what the lexer does where a line of the output begins that is a pragma.
* `preprocess_keeps_pragmas`: a session writes every pragma line that is kept, and the lexer records
  it as it was written.
-/

namespace IdlFrontend

/-! ## Lines of a text -/

theorem intercalate_cons_feed (line : Text) (after : List Text) :
    ['\n'].intercalate (line :: after) = line ++ after.flatMap ('\n' :: ·) := by
  induction after generalizing line with
  | nil => simp
  | cons next after ih =>
    rw [List.intercalate_cons_cons, ih, List.flatMap_cons]
    simp

/-- The text up to a line of it, the line, and the lines behind it. -/
theorem eq_of_splitOn_eq {cs line : Text} {before after : List Text}
    (h : cs.splitOn '\n' = before ++ line :: after) :
    cs = before.flatMap (· ++ ['\n']) ++ (line ++ after.flatMap ('\n' :: ·)) := by
  have hjoined : ['\n'].intercalate (cs.splitOn '\n') = cs := List.intercalate_splitOn '\n'
  rw [h] at hjoined
  refine hjoined.symm.trans ?_
  clear h hjoined
  induction before with
  | nil => exact intercalate_cons_feed line after
  | cons first before ih =>
    rw [List.cons_append, List.intercalate_cons_of_ne_nil (by simp), ih, List.flatMap_cons]
    simp

namespace Lexer

variable {start l : Lexer} {ss : List Step}

/-- A lexer that a parser drives is at the start of a line where what it has read ends one. -/
theorem Driven.atLineStart (h : Driven start ss l) :
    l.atLineStart = ((ss.flatMap Step.text).getLast?.map isLineEnd).getD start.atLineStart := by
  induction h with
  | start => rfl
  | @step ss l s h hs ih =>
    obtain ⟨n, r, -, rfl⟩ := step?_eq_some_iff.1 hs
    rw [atLineStart_read, List.flatMap_append, List.flatMap_singleton, List.getLast?_append, ih]
    show _ = (((l.rest.take n).getLast?.or _).map isLineEnd).getD _
    cases (l.rest.take n).getLast? <;> rfl
  | properties h ht hbracket ih => exact ih
  | @pragma ss l h ih =>
    have htake : (l.takePragma "prefix".toList).2.atLineStart = l.atLineStart := by
      unfold takePragma
      split <;> rfl
    rw [htake, ih]

/-- Where a line of a text begins that is a pragma, the lexer in its ordinary mode reads the line up
    to its end. -/
theorem exists_step?_of_line {cs between tail : Text} {before after : List Text} {dialect : Dialect}
    (hcs : cs.splitOn '\n' = before ++ ('#' :: (between ++ ("pragma".toList ++ tail))) :: after)
    (hbetween : ∀ c ∈ between, isBlank c) (htail : ∀ c ∈ tail, Pattern.isInline c)
    (hdriven : Driven (.ofText dialect cs) ss l)
    (hread : ss.flatMap Step.text = before.flatMap (· ++ ['\n'])) (hmode : l.mode = .ordinary) :
    ∃ s, l.step? = some s ∧
      s.text = '#' :: (between ++ ("pragma".toList ++ tail)) ++
        (if after = [] then [] else ['\n']) ∧
      s.token? = none ∧ s.next.mode = .ordinary ∧
        s.pragma? = Pragma.ofBody? (tail.dropWhile isBlank) := by
  have hrest : l.rest = '#' :: (between ++ ("pragma".toList ++ tail)) ++ after.flatMap
      ('\n' :: ·) := by
    have htext : ss.flatMap Step.text ++ l.rest = cs := hdriven.text_append
    rw [hread] at htext
    exact List.append_cancel_left (htext.trans (eq_of_splitOn_eq hcs))
  have hstart : l.atLineStart := by
    rw [hdriven.atLineStart, hread]
    rcases List.eq_nil_or_concat before with rfl | ⟨front, line, rfl⟩
    · rfl
    · simp [isLineEnd]
  have hend : ∀ c ∈ (after.flatMap ('\n' :: ·)).head?, c = '\n' := by
    cases after with
    | nil => exact fun c hc => by cases hc
    | cons line after => exact fun c hc => by cases hc; rfl
  have htake : (after.flatMap ('\n' :: ·)).take 1 = if after = [] then [] else ['\n'] := by
    cases after <;> rfl
  rw [← htake]
  exact exists_step?_pragmaLine hmode hstart hbetween htail hend hrest

end Lexer

/-! ## From the source to the lexer -/

/-- Where the lexer comes to a line of the text with the pragma on it, and is in its ordinary mode,
    it reads the line up to its end without a token, and records what the body of the pragma says.
    What is recorded under other names stays. -/
def RecordsPragma (cs : Text) (group : List Lexeme) : Prop :=
  ∀ before after, cs.splitOn '\n' = before ++ lineText group :: after →
    ∀ dialect ss l, (Lexer.ofText dialect cs).Driven ss l →
      ss.flatMap Step.text = before.flatMap (· ++ ['\n']) → l.mode = .ordinary →
      ∃ s, l.step? = some s ∧ s.text = lineText group ++ (if after = [] then [] else ['\n']) ∧
        s.token? = none ∧ s.next.mode = .ordinary ∧
        ∀ name, s.next.pragmas.find? name =
          ((Pragma.ofBody? (bodyText group)).filter (·.name = name)).or (l.pragmas.find? name)

theorem Session.IsBarePragma.recordsPragma {group : List Lexeme} (h : IsBarePragma group)
    (cs : Text) :
    RecordsPragma cs group := by
  obtain ⟨contents, hgroup⟩ := h.source
  obtain ⟨between, tail, htext, hbetween, htail, hbody⟩ :=
    exists_pragmaLine_eq hgroup h.kind h.isPragma
  intro before after hcs dialect ss l hdriven hread hmode
  rw [htext] at hcs ⊢
  obtain ⟨s, hs, hline, htoken, hnext, hpragma⟩ :=
    Lexer.exists_step?_of_line hcs hbetween htail hdriven hread hmode
  refine ⟨s, hs, hline, htoken, hnext, fun name => ?_⟩
  rw [Lexer.find?_of_step? hs name, lastPragma?, ← hbody, ← hpragma]
  cases hp : s.pragma? with
  | none => simp [hp]
  | some p => by_cases hname : p.name = name <;> simp [hp, hname, Option.filter]

/-- **Pragmas pass through as they are written.** Whatever macros are in force and wherever the
    files come from, a session is one that takes notes of the pragma lines without comments that
    are kept, in its file and in those that it includes, and that looks at no more than the line
    break of a pragma line that is not kept. Where it succeeds, the lines that it has noted are
    lines of the output, in their order: each has the text that it has in its file, with each
    run of space outside of literals as a single space. The lexer records each of them where it
    comes to it. -/
theorem preprocess_keeps_pragmas {m : Type → Type} [Monad m] [LawfulMonad m] (store : SourceStore m)
    (defines : List Predefinition) (file : SourceFile) :
    let noting := StateT.run (preprocessBy Session.notingPragmas store.noting defines file) []
    Prod.fst <$> noting = preprocess store defines file ∧
      Always (fun r => ∀ cs, r.1 = .ok cs →
        (r.2.map lineText).Sublist (cs.splitOn '\n') ∧ ∀ group ∈ r.2, RecordsPragma cs group)
          noting := by
  obtain ⟨hrun, hnotes⟩ := (coupled_preprocessBy_notingPragmas store defines file).map_fst
  refine ⟨hrun, hnotes.mono fun r hr cs hcs => ?_⟩
  obtain ⟨hlines, hbare⟩ := hr cs hcs
  exact ⟨hlines, fun group hgroup => (hbare group hgroup).recordsPragma cs⟩

/-- A file with a macro, whose last line is a pragma with the name of the macro and no line feed. -/
def pragmaFile : SourceFile := ⟨"a".toList, "#define id x y\n  #  pragma  id \t 'b  c'".toList⟩

/-- A file that includes it, and has a pragma that is kept and one that is not. -/
def pragmaUser : SourceFile :=
  ⟨"m".toList, "#include \"a\"\n#pragma once id\n#if 0\n#pragma off\n#endif\nid".toList⟩

/-- What comes of them, and the pragma lines that are noted. -/
def pragmaNotes : Except PreprocessError Text × List (List Lexeme) :=
  (StateT.run (preprocessBy Session.notingPragmas (SourceStore.ofList [pragmaFile]).noting []
    pragmaUser) [] :
    Id _).run

/-- The text that comes of them. -/
def pragmaOutput : Text :=
  "# 2 \"a\"\n# pragma id 'b  c'\n# 2 \"m\"\n#pragma once id\n\n\n\nx y".toList

/-- Only the identifier behind the pragmas is expanded, and the lexer records the pragma of the
    included file behind the marker of its line. -/
theorem preprocess_keeps_pragmas_included :
    (preprocess (.ofList [pragmaFile]) [] pragmaUser : Id _).run = .ok pragmaOutput ∧
      ["# pragma id 'b  c'".toList, "#pragma once id".toList].Sublist (pragmaOutput.splitOn '\n') ∧
      ∃ s s', (Lexer.ofText .omg pragmaOutput).step? = some s ∧ s.next.step? = some s' ∧
        s'.text = "# pragma id 'b  c'\n".toList ∧
        s'.next.pragmas.find? "id".toList = some ⟨"id".toList, some "'b  c'".toList⟩ := by
  obtain ⟨hrun, halways⟩ := preprocess_keeps_pragmas (m := Id) (.ofList [pragmaFile]) [] pragmaUser
  have hok : pragmaNotes.1 = .ok pragmaOutput := by decide +kernel
  have hnoted : pragmaNotes.2.map (fun group => (lineText group, Pragma.ofBody? (bodyText group))) =
      [("# pragma id 'b  c'".toList, some ⟨"id".toList, some "'b  c'".toList⟩),
        ("#pragma once id".toList, some ⟨"once".toList, some "id".toList⟩)] := by
    decide +kernel
  obtain ⟨hlines, hrecords⟩ := always_id_iff.1 halways pragmaOutput hok
  refine ⟨hrun.symm.trans hok, ?_, ?_⟩
  · have htexts : pragmaNotes.2.map lineText =
        ["# pragma id 'b  c'".toList, "#pragma once id".toList] := by
      have hfirst := congrArg (List.map Prod.fst) hnoted
      rwa [List.map_map] at hfirst
    rw [← htexts]
    exact hlines
  · have hmarker : (Lexer.ofText .omg pragmaOutput).step?.map (fun s => (s.text, s.next.mode)) =
        some ("# 2 \"a\"\n".toList, .ordinary) := by
      decide +kernel
    obtain ⟨s, hs, hmarked⟩ := Option.map_eq_some_iff.1 hmarker
    obtain ⟨htext, hmode⟩ := Prod.ext_iff.1 hmarked
    obtain ⟨group, hgroup, hparts⟩ := List.mem_map.1 (hnoted ▸ List.mem_cons_self)
    obtain ⟨hline, hbody⟩ := Prod.ext_iff.1 hparts
    have hsplit : pragmaOutput.splitOn '\n' = ["# 2 \"a\"".toList] ++ lineText group ::
        ["# 2 \"m\"".toList, "#pragma once id".toList, [], [], [], "x y".toList] := by
      rw [show lineText group = "# pragma id 'b  c'".toList from hline]
      decide +kernel
    obtain ⟨s', hs', hread, -, -, hfind⟩ := hrecords group hgroup _ _ hsplit .omg [s] s.next
      (.step .start hs) (by simpa using htext) hmode
    refine ⟨s, s', hs, hs', ?_, ?_⟩
    · rw [hread, show lineText group = _ from hline]
      rfl
    · rw [hfind, show Pragma.ofBody? (bodyText group) = _ from hbody]
      rfl

end IdlFrontend
