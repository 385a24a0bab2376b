import IdlFrontend.Proofs.Condition.Layout
import IdlFrontend.Proofs.Macro.DefinitionText
import IdlFrontend.Proofs.Session.AtOnce
import IdlFrontend.Proofs.Session.Output
import IdlFrontend.Proofs.Session.Sources
import IdlFrontend.Proofs.Session.Transparent
import IdlFrontend.Proofs.Source.WholeLines

/-!
# Macros defined beforehand

A macro can be defined by an argument `NAME=VALUE` before the source is read, or by a line
of a source. The argument is cut into lexemes as it stands; the line has its trigraphs
replaced and its end trimmed first. Both define the same macro. The argument is split at its
first equals sign, so the name and its parameters must not have one, which only a comment
among the parameters could.

Results:

* `exec_define_ofArgument`: what an argument defines.
* `exec_run_definitionText`: what the line of a definition defines.
* `keepsMacro_readFile`: sources that do not redefine a name leave its macro alone.
* `define_ofArgument_and_line`: an argument means the same as the line of a definition.
-/

namespace IdlFrontend

open Lexeme MacroTable

variable {name list value : Text} {parameters : Parameters}

/-! ## Arguments -/

/-- The characters at the ends of a name with its parameters are not white space. -/
theorem isWhiteSpace_of_mem_ends (hname : IsName name) (hlist : AreParameters list parameters) :
    (∀ c ∈ (name ++ list).head?, isWhiteSpace c = false) ∧
      ∀ c ∈ (name ++ list).getLast?, isWhiteSpace c = false := by
  have hpart {c : Char} (hc : isWordPart c) :
      isWhiteSpace c = false := Bool.eq_false_iff.2 fun h => by
    rw [Condition.isWordPart_of_isWhiteSpace h] at hc
    cases hc
  have hne : name ≠ [] := by
    rintro rfl
    exact hname
  constructor
  · rw [List.head?_append_of_ne_nil _ hne]
    exact fun c hc => hpart (hname.isWordPart c (List.mem_of_head? hc))
  · rcases hlist with ⟨rfl, -⟩ | hlist
    · rw [List.append_nil]
      exact fun c hc => hpart (hname.isWordPart c (List.mem_of_getLast? hc))
    · rw [List.getLast?_append, hlist.getLast?_eq]
      rintro c ⟨⟩
      decide

theorem ofArgument_eq (hname : IsName name) (hlist : AreParameters list parameters)
    (hequals : '=' ∉ list) (value : Text) :
    Predefinition.ofArgument (name ++ (list ++ '=' :: value)) = ⟨name ++ list, some value⟩ := by
  have hfront : ∀ c ∈ name ++ list, !(c == '=') := by
    intro c hc
    rw [Bool.not_eq_true', beq_eq_false_iff_ne]
    rintro rfl
    rcases List.mem_append.1 hc with hmem | hmem
    · exact absurd (hname.isWordPart _ hmem) (by decide)
    · exact hequals hmem
  have hsplit : Text.splitAtFirst (· == '=') (name ++ (list ++ '=' :: value)) =
      some (name ++ list, value) := by
    rw [← List.append_assoc, Text.splitAtFirst, List.dropWhile_append_of_pos hfront,
      List.takeWhile_append_of_pos hfront]
    simp
  obtain ⟨hhead, hlast⟩ := isWhiteSpace_of_mem_ends hname hlist
  have htrim : Text.trim isWhiteSpace (name ++ list) = name ++ list := by
    have hdrop : (name ++ list).dropWhile isWhiteSpace = name ++ list := by
      cases htext : name ++ list with
      | nil => rfl
      | cons c cs =>
        rw [htext] at hhead
        exact List.dropWhile_cons_of_neg (by simp [hhead c rfl])
    rw [Text.trim, hdrop]
    exact Source.trimEnd_eq_self hlast
  rw [Predefinition.ofArgument, hsplit]
  exact congrArg (Predefinition.mk · _) htrim

namespace Session

variable {m : Type → Type} [Monad m] [LawfulMonad m]

/-- An argument defines the macro of its name. -/
theorem exec_define_ofArgument (hname : IsName name) (hlist : AreParameters list parameters)
    (hequals : '=' ∉ list) (value : Text) (s : Session) :
    exec (define (.ofArgument (name ++ (list ++ '=' :: value))) : PreprocessM m Unit) s =
      pure (.ok (), { s with macros := s.macros.insert (.ofText name parameters value) }) := by
  rw [ofArgument_eq hname hlist hequals, define, defineText, exec_defineLexemes]
  have htext : name ++ list ++ ' ' :: value = name ++ (list ++ ' ' :: value) := List.append_assoc ..
  rw [Option.getD_some, htext, define_text _ hname hlist (.inl rfl)]

end Session

/-! ## Lines -/

/-- What a line can end with: a line break, or the end of the text. -/
def lineEndings : List Text := [[], ['\n'], ['\r', '\n'], ['\r']]

/-- The logical text of a single line. -/
theorem Source.logicalText_append_ending {line ending : Text} (hne : line ≠ [])
    (hline : ∀ c ∈ line, isLineEnd c = false) (hending : ending ∈ lineEndings) :
    logicalText (line ++ ending) =
      Text.trimEnd isWhiteSpace (replaceTrigraphs line) ++ if ending = [] then [] else ['\n'] := by
  have hne' := replaceTrigraphs_ne_nil hne
  have hline' := isLineEnd_of_mem_replaceTrigraphs hline
  have htrigraphs : replaceTrigraphs (line ++ ending) = replaceTrigraphs line ++ ending := by
    cases ending with
    | nil => rw [List.append_nil, List.append_nil]
    | cons c more =>
      have hends : ∀ ending ∈ lineEndings, isLineEnd (ending.headD '\n') ∧
          '?' ∉ ending.tail := by decide
      obtain ⟨hc, hmore⟩ := hends _ hending
      have hplain : replaceTrigraphs more = more := replaceTrigraphs_of_not_mem hmore
      rw [replaceTrigraphs_append_lineEnd (show isLineEnd c from hc), hplain]
  have hlines : Text.physicalLines (replaceTrigraphs line ++ ending) = [replaceTrigraphs line] := by
    have hends : ∀ ending ∈ lineEndings, ending.takeWhile (fun c => !isLineEnd c) = [] ∧
        (Text.physicalLines ending).tail = [] := by decide
    rw [physicalLines_append hne' hline', (hends ending hending).1, (hends ending hending).2,
      List.append_nil]
  have hend : (replaceTrigraphs line ++ ending).endsInLineBreak = !ending.isEmpty := by
    cases ending with
    | nil =>
      rw [List.append_nil, Text.endsInLineBreak, List.getLast?_eq_some_getLast hne']
      exact hline' _ (List.getLast_mem hne')
    | cons c more =>
      have hends : ∀ ending ∈ lineEndings, ending ≠ [] → ending.endsInLineBreak := by decide
      rw [Text.endsInLineBreak, List.getLast?_append_of_ne_nil _ (List.cons_ne_nil _ _)]
      exact hends _ hending (List.cons_ne_nil _ _)
  have hjoin (line : Text) : Text.join ['\n'] (splice [line]) = line := by
    simp [splice, spliceOnto, Text.join, List.intercalate]
  rw [logicalText, joinContinuations, htrigraphs, hlines, hend, List.map_singleton, hjoin]
  cases ending <;> rfl

theorem IsReplacement.replaceTrigraphs_eq (h : IsReplacement value) :
    Source.replaceTrigraphs value = value := by
  refine Source.replaceTrigraphs_eq_self fun c hc => ?_
  obtain ⟨r, hr⟩ := Option.isSome_iff_exists.1 hc
  exact h.plain _ (Source.mem_trigraphs_iff.2 ⟨c, r, hr, rfl⟩)

theorem AreParameters.replaceTrigraphs (h : AreParameters list parameters) :
    AreParameters (Source.replaceTrigraphs list) parameters := by
  rcases h with ⟨rfl, rfl⟩ | h
  · exact .inl ⟨rfl, rfl⟩
  · exact .inr h.replaceTrigraphs

/-- The text of a line that defines a macro, without its line break. -/
def definitionText (name list value : Text) : Text :=
  "#define ".toList ++ (name ++ (list ++ ' ' :: value))

/-- A definition loses its trigraphs, and the space at its end if nothing replaces the name. -/
theorem exists_trimEnd_definition {front : Text} (hfront : '?' ∉ front) (hname : IsName name)
    (hlist : AreParameters list parameters) (hvalue : IsReplacement value) :
    ∃ behind, (behind = ' ' :: value ∨ value = [] ∧ behind = []) ∧
      Text.trimEnd isWhiteSpace
        (Source.replaceTrigraphs (front ++ (name ++ (list ++ ' ' :: value)))) =
        front ++ (name ++ (Source.replaceTrigraphs list ++ behind)) := by
  have hmark : '?' ∉ name := fun hmem => absurd (hname.isWordPart _ hmem) (by decide)
  rw [Source.replaceTrigraphs_append_of_not_mem hfront,
    Source.replaceTrigraphs_append_of_not_mem hmark,
    Source.replaceTrigraphs_append_cons (by decide) (.inl rfl), hvalue.replaceTrigraphs_eq]
  by_cases hnil : value = []
  · refine ⟨[], .inr ⟨hnil, rfl⟩, ?_⟩
    have hsplit : front ++ (name ++ (Source.replaceTrigraphs list ++ ' ' :: value)) =
        front ++ (name ++ Source.replaceTrigraphs list) ++ [' '] := by
      rw [hnil]
      simp only [List.append_assoc]
    have hlast := (isWhiteSpace_of_mem_ends hname hlist.replaceTrigraphs).2
    have hne : name ++ Source.replaceTrigraphs list ≠ [] := by
      refine List.append_ne_nil_of_left_ne_nil ?_ _
      rintro rfl
      exact hname
    rw [hsplit, Source.trimEnd_append, if_pos (by decide), List.append_nil, Source.trimEnd_eq_self]
    rwa [List.getLast?_append_of_ne_nil _ hne]
  · refine ⟨' ' :: value, .inl rfl, Source.trimEnd_eq_self ?_⟩
    have hlast : (front ++ (name ++ (Source.replaceTrigraphs list ++ ' ' :: value))).getLast? =
        value.getLast? := by
      rw [← List.singleton_append (l := value)]
      simp only [← List.append_assoc]
      rw [List.getLast?_append_of_ne_nil _ hnil]
    rw [hlast]
    exact hvalue.trimmed

namespace Session

/-- The lexemes of a line that defines a macro, with its line break. -/
def definitionLine (definition : List Lexeme) (ending : Text) : List Lexeme :=
  ⟨.punctuation, ['#'], 1⟩ :: ⟨.word, "define".toList, 1⟩ :: .spaceAt 1 ::
    (definition ++ if ending = [] then [] else [⟨.newline, ['\n'], 1⟩])

theorem scan_define (hname : IsName name) (cs : Text) :
    scan ("#define ".toList ++ (name ++ cs)) =
      ⟨.punctuation, ['#'], 1⟩ :: ⟨.word, "define".toList, 1⟩ :: .spaceAt 1 ::
        scan (name ++ cs) := by
  have hhead : ∀ c ∈ (name ++ cs).head?, isSpace c = false := by
    cases name with
    | nil => exact hname.elim
    | cons c name =>
      rintro _ ⟨⟩
      refine Bool.eq_false_iff.2 fun h => ?_
      exact absurd (hname.isWordPart c List.mem_cons_self) (by simp [isWordPart_of_isSpace h])
  have hspace : scanFrom 1 ([' '] ++ (name ++ cs)) = .spaceAt 1 :: scanFrom 1 (name ++ cs) :=
    scanFrom_space (List.forall_mem_singleton.2 rfl) hhead 1
  have hword : scanFrom 1 ("define".toList ++ ([' '] ++ (name ++ cs))) =
      ⟨.word, "define".toList, 1⟩ :: scanFrom 1 ([' '] ++ (name ++ cs)) :=
    scanFrom_append (isWhole_word_iff.2 (by decide)) (by decide) (by rintro d ⟨⟩; rfl) 1
  have hhash : IsWhole .punctuation ['#'] := by decide
  have hsign : scanFrom 1 (['#'] ++ ("define".toList ++ ([' '] ++ (name ++ cs)))) =
      ⟨.punctuation, ['#'], 1⟩ :: scanFrom 1 ("define".toList ++ ([' '] ++ (name ++ cs))) :=
    scanFrom_append hhash (by decide) (by rintro d ⟨⟩; rfl) 1
  exact hsign.trans (by rw [hword, hspace, scan])

/-- A comment at the end of a definition is closed. -/
theorem closed_of_mem_getLast?_scan (hname : IsName name) (hlist : AreParameters list parameters)
    (hvalue : IsReplacement value) {behind : Text}
    (hbehind : behind = ' ' :: value ∨ value = [] ∧ behind = []) :
    ∀ t ∈ (scan (name ++ (list ++ behind))).getLast?, t.kind = .comment → ['/', '*'] <+: t.text →
      ['*', '/'] <:+ t.text.drop 2 := by
  obtain ⟨ls, hscan, hls⟩ := exists_scan_definition hname hlist (blank_behind hbehind)
  intro t ht hcomment
  rw [hscan, ← List.cons_append, List.getLast?_append] at ht
  rcases hbehind with rfl | ⟨rfl, rfl⟩
  · obtain ⟨gap, gap', ts, hgap, hgap', hspace⟩ := exists_scan_space value
    have hne : scanFrom 1 (' ' :: value) ≠ [] := by
      rw [scanFrom_cons]
      exact List.cons_ne_nil _ _
    have hmem : t ∈ gap ++ ts := by
      rw [← hgap]
      rw [List.getLast?_eq_some_getLast hne] at ht
      exact List.mem_of_getLast? ((List.getLast?_eq_some_getLast hne).trans ht)
    rcases List.mem_append.1 hmem with hmem | hmem
    · have hkind := hspace t (List.mem_append_left _ hmem)
      rw [hcomment] at hkind
      cases hkind
    · exact hvalue.closed t (by rw [hgap']; exact List.mem_append_right _ hmem)
  · rw [scanFrom, List.getLast?_nil, Option.none_or] at ht
    rcases hls with ⟨rfl, -⟩ | ⟨ts, rfl, hread⟩
    · cases ht
      cases hcomment
    · obtain ⟨before, close, rfl, hclose, -⟩ := exists_of_readParameters hread
      rw [← List.cons_append, ← List.cons_append, List.getLast?_concat] at ht
      cases ht
      rw [isPunct, hcomment] at hclose
      cases hclose

/-- A definition stands on one line. -/
theorem inline_definition (hname : IsName name) (hlist : AreParameters list parameters)
    {behind : Text} (hbehind : ∀ c ∈ behind, isLineEnd c = false) :
    ∀ c ∈ "#define ".toList ++ (name ++ (list ++ behind)), isLineEnd c = false := by
  have hall : "#define ".toList.all fun c => !isLineEnd c := by decide +kernel
  have hdefine : ∀ c ∈ "#define ".toList, isLineEnd c = false := fun c hc => by
    simpa using List.all_eq_true.1 hall c hc
  have hpart : ∀ c ∈ name, isLineEnd c = false := fun c hc => Bool.eq_false_iff.2 fun h => by
    have hword := hname.isWordPart c hc
    rcases Bool.or_eq_true_iff.1 h with h | h <;> rw [beq_iff_eq.1 h] at hword <;> cases hword
  have hinline : ∀ c ∈ list, isLineEnd c = false := by
    rcases hlist with ⟨rfl, -⟩ | hlist
    · exact List.forall_mem_nil _
    · exact hlist.inline
  simp only [List.forall_mem_append]
  exact ⟨hdefine, hpart, hinline, hbehind⟩

/-- The only line of a source that defines a macro. -/
theorem sourceLines_definitionText {ending : Text} (hname : IsName name)
    (hlist : AreParameters list parameters) (hvalue : IsReplacement value)
    (hending : ending ∈ lineEndings) :
    ∃ behind, (behind = ' ' :: value ∨ value = [] ∧ behind = []) ∧
      sourceLines (definitionText name list value ++ ending) =
        [definitionLine (scan (name ++ (Source.replaceTrigraphs list ++ behind))) ending] ∧
      ∀ t ∈ scan (name ++ (Source.replaceTrigraphs list ++ behind)), t.line = 1 := by
  have hmark : '?' ∉ "#define ".toList := by decide +kernel
  obtain ⟨behind, hbehind, htext⟩ := exists_trimEnd_definition hmark hname hlist hvalue
  have hspaced : ∀ c ∈ ' ' :: value, isLineEnd c = false :=
    List.forall_mem_cons.2 ⟨rfl, hvalue.inline⟩
  have hinline : ∀ c ∈ behind, isLineEnd c = false := by
    rcases hbehind with rfl | ⟨-, rfl⟩
    · exact hspaced
    · exact List.forall_mem_nil _
  have hfeed : '\n' ∉ "#define ".toList ++ (name ++ (Source.replaceTrigraphs list ++ behind)) :=
    fun hmem => by
    cases inline_definition hname hlist.replaceTrigraphs hinline _ hmem
  have hfeed' : '\n' ∉ name ++ (Source.replaceTrigraphs list ++ behind) := fun hmem =>
    hfeed (List.mem_append_right _ hmem)
  refine ⟨behind, hbehind, ?_, line_eq_of_mem_scanFrom hfeed'⟩
  have hscan := scan_define hname (Source.replaceTrigraphs list ++ behind)
  have hbreak :
      ∀ t ∈ scan ("#define ".toList ++ (name ++ (Source.replaceTrigraphs list ++ behind))),
      t.kind ≠ .newline := kind_ne_newline_of_mem_scanFrom hfeed
  have hlast :
      (scan ("#define ".toList ++ (name ++ (Source.replaceTrigraphs list ++ behind)))).getLast? =
      (scan (name ++ (Source.replaceTrigraphs list ++ behind))).getLast? := by
    obtain ⟨ls, hdefinition, -⟩ :=
      exists_scan_definition hname hlist.replaceTrigraphs (blank_behind hbehind)
    rw [hscan, hdefinition, List.getLast?_cons_cons, List.getLast?_cons_cons,
      List.getLast?_cons_cons]
  have hclosed := closed_of_mem_getLast?_scan hname hlist.replaceTrigraphs hvalue hbehind
  have hne : definitionText name list value ≠ [] :=
    List.append_ne_nil_of_left_ne_nil (by decide +kernel) _
  have hlogical : Source.logicalText (definitionText name list value ++ ending) =
      "#define ".toList ++ (name ++ (Source.replaceTrigraphs list ++ behind)) ++
        if ending = [] then [] else ['\n'] :=
    (Source.logicalText_append_ending hne (inline_definition hname hlist hspaced) hending).trans
      (congrArg (· ++ if ending = [] then [] else ['\n']) htext)
  generalize "#define ".toList ++ (name ++ (Source.replaceTrigraphs list ++ behind)) = line at *
  rw [sourceLines, ← Source.logicalText, hlogical]
  by_cases hnil : ending = []
  · have hline : scan line ≠ [] := by
      rw [hscan]
      exact List.cons_ne_nil _ _
    rw [if_pos hnil, List.append_nil, lines_of_inline hline hbreak, hscan, definitionLine,
      if_pos hnil, List.append_nil]
  · rw [← hlast] at hclosed
    rw [if_neg hnil, scan_append_lineFeed hfeed hclosed, lines_append_newline hbreak rfl, hscan,
      definitionLine, if_neg hnil, lines]
    simp only [List.cons_append]

/-- The directive on the line of a definition. -/
theorem exists_directive_definitionLine (definition : List Lexeme) (ending : Text) :
    ∃ d, directive? (definitionLine definition ending) = some d ∧
      d.name? = some (.command .define) ∧
      d.line = 1 ∧ d.args = stripBlank definition := by
  let behind : List Lexeme :=
    .spaceAt 1 :: (definition ++ if ending = [] then [] else [⟨.newline, ['\n'], 1⟩])
  have hcontent : stripBlank (⟨.word, "define".toList, 1⟩ :: behind) =
      ⟨.word, "define".toList, 1⟩ :: behind.rdropWhile Lexeme.isBlank :=
    stripBlank_cons_of_not_isBlank rfl behind
  have hblank : ∀ t ∈ if ending = [] then [] else [(⟨.newline, ['\n'], 1⟩ : Lexeme)],
      t.isBlank := by
    split
    · exact List.forall_mem_nil _
    · exact List.forall_mem_singleton.2 rfl
  refine ⟨⟨1, ⟨.word, "define".toList, 1⟩ :: behind.rdropWhile Lexeme.isBlank⟩, ?_,
    DirectiveName.ofText?_spelling (.command .define), rfl, ?_⟩
  · rw [← hcontent]
    rfl
  · show stripBlank (behind.rdropWhile Lexeme.isBlank) = _
    rw [stripBlank_rdropWhile, stripBlank_cons_of_isBlank rfl, stripBlank_append_blank hblank]

section Exec

variable {m : Type → Type} [Monad m] [LawfulMonad m]

/-- The line of a definition defines a macro, and only its line break is left to write. -/
theorem exec_readLine_definitionLine (enter : Text → Bool → Nat → PreprocessM m Unit)
    (fileName : Text) {definition : List Lexeme} (hlines : ∀ t ∈ definition, t.line = 1)
    (ending : Text) {s : Session}
    {macros : MacroTable} (h : s.macros.define definition 1 = .ok macros) :
    exec (readLine enter { name := fileName } (definitionLine definition ending)) s =
      pure (.ok { name := fileName, pending := lineBreak (definitionLine definition ending) },
        { s with macros }) := by
  obtain ⟨d, hd, hname, hline, hargs⟩ := exists_directive_definitionLine definition ending
  have hnumbers : renumber 0 (definitionLine definition ending) =
      definitionLine definition ending := by
    refine renumber_eq_self fun t ht => ?_
    have hone : t.line = 1 := by
      simp only [definitionLine, List.mem_cons, List.mem_append] at ht
      rcases ht with rfl | rfl | rfl | ht | ht
      · rfl
      · rfl
      · rfl
      · exact hlines t ht
      · split at ht
        · cases ht
        · rw [List.mem_singleton.1 ht]
    rw [hone]
    decide
  have hdefine : exec (defineLexemes d.args d.line : PreprocessM m Unit) s =
      pure (.ok (), { s with macros }) := by
    rw [exec_defineLexemes, hargs, hline, define_stripBlank, h]
  have hobey : exec (obey enter { name := fileName } (definitionLine definition ending) d
      .define) s =
      pure (.ok { name := fileName }, { s with macros }) := by
    rw [obey, exec_bind_ok (exec_flush_nil rfl), exec_bind_ok hdefine, exec_pure]
  rw [readLine]
  dsimp only
  rw [hnumbers, hd]
  dsimp only
  rw [hname]
  dsimp only
  have hkept : Conditionals.kept [] := rfl
  rw [if_pos hkept, exec_bind_ok hobey, exec_pure, List.nil_append]

/-- A source that consists of a definition defines the macro of its name. -/
theorem exec_run_definitionText (store : SourceStore m) (fileName : Text) {ending : Text}
    (hname : IsName name) (hlist : AreParameters list parameters) (hvalue : IsReplacement value)
    (hending : ending ∈ lineEndings) (s : Session) :
    ∃ out, exec (run store ⟨fileName, definitionText name list value ++ ending⟩) s =
      pure (.ok (), ⟨(s.macros.insert (fileMacro fileName)).insert (.ofText name parameters value),
        out⟩) := by
  obtain ⟨behind, hbehind, hgroups, hlines⟩ := sourceLines_definitionText hname hlist hvalue hending
  have hdefine :=
    define_text (s.macros.insert (fileMacro fileName)) hname hlist.replaceTrigraphs hbehind 1
  have hexpand (table : MacroTable) (group : List Lexeme) :
      table.expand (lineBreak group) = .ok (lineBreak group) :=
    expand_lineBreak table group (expand_nil table)
  generalize scan (name ++ (Source.replaceTrigraphs list ++ behind)) =
    definition at hgroups hlines hdefine
  refine ⟨s.output.push fileName (lineBreak (definitionLine definition ending)), ?_⟩
  rw [run, readFile, readFileWith, exec_bind_ok (exec_defineFileName _ _), hgroups]
  simp only [List.foldlM_cons, List.foldlM_nil, bind_pure]
  rw [exec_bind_ok (exec_readLine_definitionLine _ _ hlines ending hdefine),
    exec_bind_ok (exec_flush_ok (hexpand _ _)), exec_ofExcept, Conditionals.finish]

end Exec

/-! ## Sources that leave a macro alone -/

section Untouched

variable {m : Type → Type} [Monad m] {α β : Type}

/-- Whatever stands under a name, or nothing, stands there behind the step, also when the step
    fails. -/
def KeepsMacro (name : Text) (x : PreprocessM m α) : Prop :=
  ∀ found, Preserves (fun s => s.macros.find? name = found) (fun _ => True) x

variable [LawfulMonad m]

theorem KeepsMacro.bind {x : PreprocessM m α} {f : α → PreprocessM m β} (hx : KeepsMacro name x)
    (hf : ∀ a, KeepsMacro name (f a)) : KeepsMacro name (x >>= f) :=
  fun found => (hx found).bind fun a _ => hf a found

theorem keepsMacro_pure (a : α) : KeepsMacro name (pure a : PreprocessM m α) :=
  fun _ => preserves_pure trivial

theorem keepsMacro_throw (e : PreprocessError) : KeepsMacro name (throw e : PreprocessM m α) :=
  fun _ => preserves_throw e

theorem keepsMacro_ofExcept (r : Except PreprocessError α) :
    KeepsMacro name (MonadExcept.ofExcept r : PreprocessM m α) :=
  fun _ => preserves_ofExcept fun _ _ => trivial

theorem keepsMacro_get : KeepsMacro name (get : PreprocessM m Session) := by
  intro found s hs
  rw [exec_get]
  exact always_pure ⟨hs, fun _ _ => trivial⟩

theorem keepsMacro_flush (f : OpenFile) : KeepsMacro name (flush f : PreprocessM m OpenFile) := by
  intro found s hs
  rw [exec_flush]
  split <;> exact always_pure ⟨hs, fun _ _ => trivial⟩

/-- Only the macro of the first name is defined. -/
theorem keepsMacro_defineLexemes {d : DirectiveLine} (hd : firstName? d.args ≠ some name)
    (line : Nat) :
    KeepsMacro name (defineLexemes d.args line : PreprocessM m Unit) := by
  intro found s hs
  rw [exec_defineLexemes]
  split
  next macros hmacros =>
    exact always_pure ⟨(find?_of_define hmacros hd).trans hs, fun _ _ => trivial⟩
  · exact always_pure ⟨hs, fun _ _ => trivial⟩

theorem keepsMacro_erase {erased : Text} (h : name ≠ erased) :
    KeepsMacro name (modify fun s => { s with macros := s.macros.erase erased } : PreprocessM
      m PUnit) :=
  fun _ => preserves_modify fun s hs => (find?_erase_of_ne s.macros h).trans hs

variable (hfile : name ≠ "__FILE__".toList)

include hfile

theorem keepsMacro_defineFileName (fileName : Text) :
    KeepsMacro name (defineFileName fileName : PreprocessM m Unit) := by
  intro found s hs
  rw [exec_defineFileName]
  exact always_pure ⟨(find?_insert_of_ne s.macros (fileMacro fileName) hfile).trans hs,
    fun _ _ => trivial⟩

theorem keepsMacro_changeLine (f : OpenFile) (target : List Lexeme) (line : Nat) :
    KeepsMacro name (changeLine f target line : PreprocessM m OpenFile) := by
  unfold changeLine
  split
  · exact keepsMacro_throw _
  · refine (keepsMacro_flush f).bind fun g => ?_
    dsimp only
    split
    · split
      · exact keepsMacro_pure _
      · exact (keepsMacro_defineFileName hfile _).bind fun _ => keepsMacro_pure _
    · exact keepsMacro_throw _

variable {enter : Text → Bool → Nat → PreprocessM m Unit}

theorem keepsMacro_obey (henter : ∀ target quoted line, KeepsMacro name (enter target quoted line))
    (f : OpenFile) (group : List Lexeme) {d : DirectiveLine} {command : CommandName}
    (hd : command = .define ∨ command = .undef → firstName? d.args ≠ some name) :
    KeepsMacro name (obey enter f group d command) := by
  match command with
  | .define =>
    refine (keepsMacro_flush f).bind fun g => ?_
    exact (keepsMacro_defineLexemes (hd (.inl rfl)) _).bind fun _ => keepsMacro_pure g
  | .undef =>
    refine (keepsMacro_flush f).bind fun g => ?_
    split
    · exact keepsMacro_throw _
    next erased herased =>
      have hne : name ≠ erased := by
        rintro rfl
        exact hd (.inr rfl) herased
      exact (keepsMacro_erase hne).bind fun _ => keepsMacro_pure g
  | .include =>
    refine (keepsMacro_flush f).bind fun g => ?_
    refine KeepsMacro.bind (fun _ => preserves_includeTarget _ _) fun target => ?_
    refine (henter _ _ _).bind fun _ => ?_
    exact (keepsMacro_defineFileName hfile _).bind fun _ => keepsMacro_pure g
  | .pragma =>
    refine (keepsMacro_flush f).bind fun g => ?_
    exact KeepsMacro.bind (fun _ => preserves_modify fun _ hs => hs) fun _ => keepsMacro_pure g
  | .line => exact keepsMacro_changeLine hfile f _ _

/-- A line of a file that does not redefine the name. -/
theorem keepsMacro_readLine {file : SourceFile} (hkeeps : ¬file.Redefines name)
    (henter : ∀ target quoted line, KeepsMacro name (enter target quoted line))
    {group : List Lexeme} (hgroup : group ∈ sourceLines file.contents) (f : OpenFile) :
    KeepsMacro name (readLine enter f group) := by
  unfold readLine
  dsimp only
  split
  · exact keepsMacro_pure _
  next d hd =>
    have hend (g : OpenFile) : KeepsMacro name
        (pure { g with pending := g.pending ++ lineBreak (renumber f.shift group) } : PreprocessM m
        OpenFile) :=
      keepsMacro_pure _
    split
    · refine keepsMacro_get.bind fun s => ?_
      refine (keepsMacro_ofExcept _).bind fun conditionals => ?_
      exact (keepsMacro_pure _).bind hend
    next command hcommand =>
      split
      next hkept =>
        have hadmitted : Admitted (file = ·) d command :=
          admitted_of_command? rfl hgroup (command?_eq_some_iff.2 ⟨hd, hcommand, hkept⟩)
        have hother : command = .define ∨ command = .undef → firstName? d.args ≠ some name := by
          intro hredefines hfirst
          obtain ⟨_, rfl, hmem⟩ := hadmitted.redefined hredefines name hfirst
          exact hkeeps hmem
        exact (keepsMacro_obey hfile henter f _ hother).bind hend
      · exact (keepsMacro_pure f).bind hend
    · exact (keepsMacro_pure f).bind hend

/-- Files that do not redefine the name, and that include such files only. -/
theorem keepsMacro_readFile {given : SourceFile → Prop}
    (hgiven : ∀ file, given file → ¬file.Redefines name)
    {store : SourceStore m}
    (hstore : ∀ request, Always (fun found => ∀ file ∈ found, given file) (store.find request))
    (depth : Nat) (around : List Text) {file : SourceFile} (hsource : given file) :
    KeepsMacro name (readFile store depth around file) := by
  induction depth generalizing around file with
  | zero => exact keepsMacro_pure ()
  | succ depth ih =>
    have hinclude (macro? : Option Macro) := preserves_enterFile hstore
      (fun included hincluded => ih (file.name :: around) hincluded macro?) (file.name :: around)
    have hlines (enter : Text → Bool → Nat → PreprocessM m Unit)
        (henter : ∀ target quoted line, KeepsMacro name (enter target quoted line)) (f : OpenFile) :
        KeepsMacro name ((sourceLines file.contents).foldlM (readLine enter) f) := by
      refine fun found => preserves_foldlM (R := fun _ _ => True) (fun before group after heq g _ =>
        ?_) trivial
      have hgroup : group ∈ sourceLines file.contents := by
        rw [heq]
        simp
      exact keepsMacro_readLine hfile (hgiven file hsource) henter hgroup g found
    refine (keepsMacro_defineFileName hfile _).bind fun _ => ?_
    refine (hlines _ (fun target quoted line macro? => hinclude macro? target quoted line) _).bind
      fun f => ?_
    refine (keepsMacro_flush f).bind fun g => ?_
    exact keepsMacro_ofExcept _

end Untouched

/-! ## Arguments and lines -/

/-- **An argument means the same as the line of a definition.** Let a name be followed by a list
    of parameters or not, in any case without an equals sign. An argument that gives it a value
    then defines a macro, and a session leaves that macro as it is, whether it succeeds or not,
    unless one of its sources defines or undefines the name. A session that reads the line of a
    definition with the same parts succeeds, whatever the line ends with, and ends with the same
    macro. -/
theorem define_ofArgument_and_line {m : Type → Type} [Monad m] [LawfulMonad m] (hname : IsName name)
    (hfile : name ≠ "__FILE__".toList) (hlist : AreParameters list parameters)
    (hequals : '=' ∉ list) (hvalue : IsReplacement value) {given : SourceFile → Prop}
    (hgiven : ∀ file, given file → ¬file.Redefines name)
    {store : SourceStore m}
    (hstore : ∀ request, Always (fun found => ∀ file ∈ found, given file) (store.find request))
    {file : SourceFile} (hsource : given file) (s : Session) :
    (exec (define (.ofArgument (name ++ (list ++ '=' :: value))) : PreprocessM m Unit) s =
        pure (.ok (), { s with macros := s.macros.insert (.ofText name parameters value) }) ∧
      Always (fun r => r.2.macros.find? name = some (.ofText name parameters value))
        (exec (do define (.ofArgument (name ++ (list ++ '=' :: value))); run store file) s)) ∧
    ∀ (store' : SourceStore m) (fileName : Text), ∀ ending ∈ lineEndings, ∃ s',
      exec (run store' ⟨fileName, definitionText name list value ++ ending⟩) s = pure (.ok (), s') ∧
        s'.macros.find? name = some (.ofText name parameters value) := by
  have hdefine := exec_define_ofArgument (m := m) hname hlist hequals value s
  refine ⟨⟨hdefine, ?_⟩, fun store' fileName ending hending => ?_⟩
  · rw [exec_bind_ok hdefine]
    have hrun : KeepsMacro name (run store file) :=
      keepsMacro_readFile hfile hgiven hstore _ [] hsource
    exact (hrun _ _ (find?_insert_self _ _)).mono fun r hr => hr.1
  · obtain ⟨out, hrun⟩ := exec_run_definitionText store' fileName hname hlist hvalue hending s
    exact ⟨_, hrun, find?_insert_self _ _⟩

/-- Trigraphs in the comment of a list of parameters, and a value with an equals sign and a
    comment. The source includes another one and then fails. -/
theorem define_ofArgument_and_line_trigraphs :
    let list := "(a/* ??/ */,b...)".toList
    let value := "= a /*=*/ (b)".toList
    let defined : Macro := .ofText ['F'] (.variadic [['a']] ['b']) value
    let included : SourceFile := ⟨['i'], "#define G F(1, 2)\n".toList⟩
    let file : SourceFile := ⟨['a'], "#include \"i\"\nG\n#endif\n".toList⟩
    let store : SourceStore Id := .ofList [included]
    let given := fun f => f = file ∨ f = included
    IsName ['F'] ∧ ['F'] ≠ "__FILE__".toList ∧ AreParameters list (.variadic [['a']] ['b']) ∧
      '=' ∉ list ∧ IsReplacement value ∧ (∀ f, given f → ¬f.Redefines ['F']) ∧
      (∀ request, Always (fun found => ∀ f ∈ found, given f) (store.find request)) ∧ given file ∧
      exec (define (.ofArgument "F(a/* ??/ */,b...)== a /*=*/ (b)".toList) :
          PreprocessM Id Unit) {} =
        pure (.ok (), { ({} : Session) with macros := ({} : MacroTable).insert defined }) ∧
      Always (fun r => r.2.macros.find? ['F'] = some defined)
        (exec (do
          define (.ofArgument "F(a/* ??/ */,b...)== a /*=*/ (b)".toList)
          run store file) {}) ∧
      ∃ s', exec (run store ⟨[], "#define F(a/* ??/ */,b...) = a /*=*/ (b)\r\n".toList⟩) {} =
        pure (.ok (), s') ∧ s'.macros.find? ['F'] = some defined := by
  intro list value defined included file store given
  have hinline : (list ++ value).all fun c => !isLineEnd c := by decide +kernel
  simp only [List.all_eq_true, List.forall_mem_append, Bool.not_eq_true'] at hinline
  have hlist : AreParameters list (.variadic [['a']] ['b']) :=
    .inr ⟨hinline.1, (scan list).tail, by decide +kernel, by decide +kernel⟩
  have hlast : value.getLast? = some ')' := by decide +kernel
  have hvalue : IsReplacement value := by
    refine ⟨hinline.2, by decide +kernel, by decide +kernel, ?_⟩
    rw [hlast]
    rintro _ ⟨⟩
    decide
  have hgiven : ∀ f, given f → ¬f.Redefines ['F'] := by
    rintro _ (rfl | rfl) <;> unfold SourceFile.Redefines <;> decide +kernel
  have hstore : ∀ request, Always (fun found => ∀ f ∈ found, given f) (store.find request) :=
    always_find_ofList fun f hf => .inr (List.mem_singleton.1 hf)
  have hname : IsName ['F'] := by decide
  have hfile : ['F'] ≠ "__FILE__".toList := by decide +kernel
  have hequals : '=' ∉ list := by decide +kernel
  obtain ⟨⟨hdefine, hkept⟩, hline⟩ := define_ofArgument_and_line hname hfile hlist hequals hvalue
    hgiven hstore (.inl rfl) {}
  exact ⟨hname, hfile, hlist, hequals, hvalue, hgiven, hstore, .inl rfl, hdefine, hkept,
    hline store [] ['\r', '\n'] (by decide)⟩

/-- An argument is split at its first equals sign, also in a comment. And a source can undefine
    the name. -/
theorem define_ofArgument_ne_line :
    let store : SourceStore Id := .ofList []
    let defining (argument contents : Text) := (exec (m := Id)
      (do define (.ofArgument argument); run store ⟨[], contents⟩) {}).2.macros.find? ['F']
    let line (contents : Text) := (exec (run store ⟨[], contents⟩) {}).2.macros.find? ['F']
    (IsName ['F'] ∧ AreParameters "(a/*=*/)".toList (.fixed [['a']]) ∧ IsReplacement ['x'] ∧
        defining "F(a/*=*/)=x".toList [] ≠ line "#define F(a/*=*/) x\n".toList) ∧
      defining "F=x".toList "#undef F\n".toList ≠ line "#define F x\n".toList := by
  intro store defining line
  have hinline : "(a/*=*/)".toList.all fun c => !isLineEnd c := by decide +kernel
  have hlist : AreParameters "(a/*=*/)".toList (.fixed [['a']]) := by
    refine .inr ⟨fun c hc => ?_,
      (scan "(a/*=*/)".toList).tail, by decide +kernel, by decide +kernel⟩
    simpa using List.all_eq_true.1 hinline c hc
  have hvalue : IsReplacement ['x'] := by
    refine ⟨List.forall_mem_singleton.2 rfl, by decide +kernel, by decide +kernel, ?_⟩
    rintro _ ⟨⟩
    decide
  exact ⟨⟨by decide, hlist, hvalue, by decide +kernel⟩, by decide +kernel⟩

end Session

end IdlFrontend
