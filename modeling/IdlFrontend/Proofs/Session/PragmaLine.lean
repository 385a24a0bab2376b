import IdlFrontend.Proofs.Lexeme.Neighbours
import IdlFrontend.Proofs.Session.Origin
import IdlFrontend.Proofs.Session.Relabel

/-!
# The text of a pragma line

A pragma line without comments is its number sign, the word `pragma` and the body of the pragma,
with space around them.

Results:

* `exists_pragmaLine_eq`: the parts of the text.
* `exists_oneLine_of_mem_sourceLines`: its lexemes stand on one line.
-/

namespace IdlFrontend

open Lexeme

/-- The line is a pragma. -/
def isPragma (group : List Lexeme) : Bool :=
  (directive? group).any fun d => d.name? == some (.command .pragma)

/-- The text of a line without the space around it, and with each run of space inside of it as a
    single space. -/
def lineText (group : List Lexeme) : Text := collapsed (stripBlank group)

/-- The text behind the name of a directive, written in the same way. -/
def bodyText (group : List Lexeme) : Text := (directive? group).elim [] fun d => collapsed d.args

variable {group ts us : List Lexeme}

theorem exists_of_isPragma (h : isPragma group) :
    ∃ d, directive? group = some d ∧ d.name? = some (.command .pragma) := by
  obtain ⟨d, hd, hname⟩ := (Option.any_eq_true _ _).1 h
  exact ⟨d, hd, beq_iff_eq.1 hname⟩

/-! ## Other line numbers -/

theorem collapsed_relabel (g : Nat → Nat) (ts : List Lexeme) :
    collapsed (relabel g ts) = collapsed ts :=
  List.flatMap_map ..

theorem isPragma_renumber (shift : Int) (group : List Lexeme) :
    isPragma (Session.renumber shift group) = isPragma group := by
  show (directive? (relabel (shiftLine · shift) group)).any _ = _
  rw [directive?_relabel, Option.any_map, isPragma]
  refine congrArg (Option.any · _) (funext fun d => ?_)
  show ((d.relabel _).name? == _) = _
  rw [DirectiveLine.name?_relabel]

/-! ## The end of the line -/

/-- A line is lexemes that are no line feeds, and its line break. -/
theorem eq_append_lineBreak (h : ∀ t ∈ group.dropLast, t.kind ≠ .newline) :
    group = group.filter (·.kind != .newline) ++ Session.lineBreak group := by
  rcases List.eq_nil_or_concat group with rfl | ⟨front, t, rfl⟩
  · rfl
  · rw [List.concat_eq_append, List.dropLast_concat] at h
    have hfront : front.filter (·.kind != .newline) = front :=
      List.filter_eq_self.2 fun u hu => bne_iff_ne.2 (h u hu)
    rw [List.concat_eq_append, Session.lineBreak, List.getLast?_concat, List.filter_append, hfront]
    by_cases ht : t.kind = .newline <;> simp [ht]

theorem kind_of_mem_lineBreak {t : Lexeme} (h : t ∈ Session.lineBreak group) : t.kind = .newline :=
  beq_iff_eq.1 (List.mem_filter.1 h).2

theorem isBlank_of_mem_lineBreak {t : Lexeme} (h : t ∈ Session.lineBreak group) : t.isBlank :=
  isBlank_of_newline (kind_of_mem_lineBreak h)

theorem directive?_append_blank (h : ∀ t ∈ us, t.isBlank) (ts : List Lexeme) :
    directive? (ts ++ us) = directive? ts := by
  rw [directive?, directive?, List.dropWhile_append]
  cases ts.dropWhile (·.kind == .space) with
  | nil =>
    have hus : ∀ t ∈ us.dropWhile (·.kind == .space), t.isBlank := fun t ht =>
      h t ((List.dropWhile_suffix _).subset ht)
    dsimp only [List.isEmpty_nil, if_true]
    cases hdrop : us.dropWhile (·.kind == .space) with
    | nil => rfl
    | cons t rest =>
      rw [hdrop, List.forall_mem_cons] at hus
      have hpunct : t.isPunct '#' = false := by
        rw [← Bool.not_eq_true]
        intro hpunct
        rw [isBlank_of_isPunct hpunct] at hus
        cases hus.1
      show (if t.isPunct '#' then _ else none) = none
      rw [hpunct]
      rfl
  | cons t rest =>
    show (if t.isPunct '#' then some (⟨t.line, stripBlank (rest ++ us)⟩ : DirectiveLine)
      else none) = _
    rw [stripBlank_append_blank h]

/-! ## The parts of the line -/

/-- Blanks at the ends may be dropped at either end first. -/
theorem dropWhile_rdropWhile_isBlank (ts : List Lexeme) :
    (ts.rdropWhile Lexeme.isBlank).dropWhile Lexeme.isBlank = stripBlank ts := by
  have hsplit := List.takeWhile_append_dropWhile (p := Lexeme.isBlank) (l := ts)
  have hfront : ∀ t ∈ ts.takeWhile Lexeme.isBlank, t.isBlank :=
    fun t ht => List.mem_takeWhile_imp ht
  cases hrest : ts.dropWhile Lexeme.isBlank with
  | nil =>
    rw [hrest, List.append_nil] at hsplit
    rw [hsplit] at hfront
    rw [List.rdropWhile_eq_nil_iff.2 hfront, stripBlank_eq, hrest]
    rfl
  | cons t rest =>
    have ht : t.isBlank = false := by
      have := List.head?_dropWhile_not Lexeme.isBlank ts
      rw [hrest] at this
      simpa using this
    have hne : (t :: rest).rdropWhile Lexeme.isBlank = t :: rest.rdropWhile Lexeme.isBlank :=
      rdropWhile_isBlank_cons ht rest
    rw [stripBlank_eq, hrest, hne]
    conv_lhs => rw [← hsplit, hrest]
    rw [rdropWhile_isBlank_append (by rw [hne]; exact List.cons_ne_nil _ _),
      dropWhile_isBlank_append hfront, hne, List.dropWhile_cons_of_neg (by simp [ht])]

/-- The lexemes hold a line without comments and without its line feed. -/
structure Plain (ts : List Lexeme) : Prop where
  kind : ∀ t ∈ ts, t.kind ≠ .newline ∧ t.kind ≠ .comment
  whole : ∀ t ∈ ts, IsWhole t.kind t.text
  inline : ∀ t ∈ ts, t.isBlank = false → ∀ c ∈ t.text, Pattern.isInline c

theorem Plain.subset (h : Plain ts) (hus : us ⊆ ts) : Plain us :=
  ⟨fun t ht => h.kind t (hus ht), fun t ht => h.whole t (hus ht), fun t ht => h.inline t (hus ht)⟩

theorem Plain.kind_eq_space (h : Plain ts) {t : Lexeme} (ht : t ∈ ts) (hblank : t.isBlank) :
    t.kind = .space := by
  obtain ⟨hnewline, hcomment⟩ := h.kind t ht
  simpa [Lexeme.isBlank, hnewline, hcomment] using hblank

theorem Plain.isInline_collapsed (h : Plain ts) : ∀ c ∈ collapsed ts, Pattern.isInline c := by
  intro c hc
  obtain ⟨t, ht, hc⟩ := List.mem_flatMap.1 hc
  cases hblank : t.isBlank with
  | true =>
    rw [if_pos (h.kind_eq_space ht hblank)] at hc
    cases List.mem_singleton.1 hc
    rfl
  | false =>
    rw [if_neg (isBlank_eq_false_iff.1 hblank).1] at hc
    exact h.inline t ht hblank c hc

theorem Plain.isBlank_collapsed (h : Plain ts) (hblank : ∀ t ∈ ts, t.isBlank) :
    ∀ c ∈ collapsed ts, IdlFrontend.isBlank c := by
  intro c hc
  obtain ⟨t, ht, hc⟩ := List.mem_flatMap.1 hc
  rw [if_pos (h.kind_eq_space ht (hblank t ht))] at hc
  cases List.mem_singleton.1 hc
  rfl

/-- No lexeme that is not blank begins with a blank. -/
theorem Plain.dropWhile_collapsed (h : Plain ts) :
    (collapsed ts).dropWhile IdlFrontend.isBlank = collapsed (ts.dropWhile Lexeme.isBlank) := by
  induction ts with
  | nil => rfl
  | cons t ts ih =>
    have hrest : Plain ts := h.subset (List.subset_cons_self _ _)
    rw [collapsed_cons]
    cases hblank : t.isBlank with
    | true =>
      rw [if_pos (h.kind_eq_space List.mem_cons_self hblank), List.dropWhile_cons_of_pos hblank,
        ← ih hrest]
      rfl
    | false =>
      have hkind := isBlank_eq_false_iff.1 hblank
      obtain ⟨c, cs, htext⟩ := List.exists_cons_of_ne_nil (h.whole t List.mem_cons_self).ne_nil
      have hc : IdlFrontend.isBlank c = false := by
        have hwhole := h.whole t List.mem_cons_self
        rw [htext] at hwhole
        exact (Bool.or_eq_false_iff.1 (isSpace_eq_false_of_isWhole hwhole hkind.1)).1
      rw [if_neg hkind.1, List.dropWhile_cons_of_neg (by simp [hblank]), collapsed_cons,
        if_neg hkind.1, htext, List.cons_append, List.dropWhile_cons_of_neg (by simp [hc])]

/-- The text of a pragma line is a number sign, the word `pragma` and the body, with blanks between
    them. -/
theorem Plain.exists_lineText_eq (h : Plain ts) (hpragma : isPragma ts) :
    ∃ between tail, lineText ts = '#' :: (between ++ ("pragma".toList ++ tail)) ∧
      (∀ c ∈ between, IdlFrontend.isBlank c) ∧ (∀ c ∈ tail, Pattern.isInline c) ∧
      tail.dropWhile IdlFrontend.isBlank = bodyText ts := by
  obtain ⟨d, hd, hname⟩ := exists_of_isPragma hpragma
  obtain ⟨blanks, sign, rest, rfl, hblanks, hsign, rfl⟩ := exists_of_directive?_eq hd
  unfold DirectiveLine.name? at hname
  split at hname
  · cases hname
  next word more hcontent =>
    obtain ⟨spaces, behind, rfl, hspaces, hword⟩ := exists_of_stripBlank_eq_cons hcontent
    have hmore : more = behind.rdropWhile Lexeme.isBlank := by
      dsimp only at hcontent
      rw [stripBlank_blank_append hspaces, stripBlank_cons_of_not_isBlank hword] at hcontent
      exact (List.cons.inj hcontent).2.symm
    have htext : word.text = "pragma".toList := by
      split at hname
      · cases hname
      · have := List.find?_some hname
        simpa [DirectiveName.spelling, CommandName.spelling] using (beq_iff_eq.1 this).symm
    have hgroup : Plain (spaces ++ word :: behind) :=
      h.subset fun t ht => List.mem_append_right _ (List.mem_cons_of_mem _ ht)
    have hbehind : Plain (behind.rdropWhile Lexeme.isBlank) :=
      hgroup.subset fun t ht => List.mem_append_right _
        (List.mem_cons_of_mem _ ((List.rdropWhile_prefix Lexeme.isBlank _).subset ht))
    have hstrip : stripBlank (blanks ++ sign :: (spaces ++ word :: behind)) =
        sign :: (spaces ++ word :: behind.rdropWhile Lexeme.isBlank) := by
      have hend : (word :: behind).rdropWhile Lexeme.isBlank =
          word :: behind.rdropWhile Lexeme.isBlank :=
        rdropWhile_isBlank_cons hword behind
      rw [stripBlank_blank_append fun t ht => by simp [Lexeme.isBlank, hblanks t ht],
        stripBlank_cons_of_not_isBlank (isBlank_of_isPunct hsign),
        rdropWhile_isBlank_append (by rw [hend]; exact List.cons_ne_nil _ _), hend]
    refine ⟨collapsed spaces, collapsed (behind.rdropWhile Lexeme.isBlank), ?_, ?_,
      hbehind.isInline_collapsed, ?_⟩
    · rw [lineText, hstrip, collapsed_cons,
        if_neg (isBlank_eq_false_iff.1 (isBlank_of_isPunct hsign)).1,
        text_of_isPunct hsign, collapsed_append, collapsed_cons,
          if_neg (isBlank_eq_false_iff.1 hword).1, htext]
      rfl
    · exact (hgroup.subset (List.subset_append_left _ _)).isBlank_collapsed hspaces
    · rw [hbehind.dropWhile_collapsed, dropWhile_rdropWhile_isBlank, bodyText, hd]
      show _ = collapsed (stripBlank (stripBlank (spaces ++ word :: behind)).tail)
      have hcontent' : stripBlank (spaces ++ word :: behind) = word :: more := hcontent
      rw [hcontent', List.tail_cons, hmore, stripBlank_rdropWhile]

/-! ## Lines of a source -/

section Source

open Session (sourceLines renumber)

variable {contents : Text}

theorem plain_of_mem_sourceLines (h : group ∈ sourceLines contents)
    (hcomment : ∀ t ∈ group, t.kind ≠ .comment) :
    Plain (group.filter (·.kind != .newline)) where
  kind t ht := by
    obtain ⟨hmem, hnewline⟩ := List.mem_filter.1 ht
    exact ⟨bne_iff_ne.1 hnewline, hcomment t hmem⟩
  whole t ht := isWhole_of_mem_scan t (mem_scan_of_mem_sourceLines h (List.mem_filter.1 ht).1)
  inline t ht := isInline_of_mem_sourceLines h (List.mem_filter.1 ht).1

/-- The parts of the text of a pragma line without comments. -/
theorem exists_pragmaLine_eq (h : group ∈ sourceLines contents)
    (hcomment : ∀ t ∈ group, t.kind ≠ .comment) (hpragma : isPragma group) :
    ∃ between tail, lineText group = '#' :: (between ++ ("pragma".toList ++ tail)) ∧
      (∀ c ∈ between, IdlFrontend.isBlank c) ∧ (∀ c ∈ tail, Pattern.isInline c) ∧
      tail.dropWhile IdlFrontend.isBlank = bodyText group := by
  have hplain := plain_of_mem_sourceLines h hcomment
  have hsplit := eq_append_lineBreak (kind_of_mem_dropLast h)
  have hblank : ∀ t ∈ Session.lineBreak group, t.isBlank := fun t => isBlank_of_mem_lineBreak
  have hdirective : directive? group = directive? (group.filter (·.kind != .newline)) := by
    conv_lhs => rw [hsplit]
    exact directive?_append_blank hblank _
  have hline : lineText group = lineText (group.filter (·.kind != .newline)) := by
    rw [lineText]
    conv_lhs => rw [hsplit]
    rw [stripBlank_append_blank hblank, lineText]
  rw [hline, bodyText, hdirective, ← bodyText]
  rw [isPragma, hdirective, ← isPragma] at hpragma
  exact hplain.exists_lineText_eq hpragma

/-- What is kept of a pragma line without comments stands on one line, and has all of its text. -/
theorem exists_oneLine_of_mem_sourceLines (h : group ∈ sourceLines contents)
    (hcomment : ∀ t ∈ group, t.kind ≠ .comment) (shift : Int) :
    ∃ n, OneLine n ((renumber shift group).filter staysInPragma) ∧
      collapsed (stripBlank ((renumber shift group).filter staysInPragma)) = lineText group := by
  have hplain := plain_of_mem_sourceLines h hcomment
  have hsplit := eq_append_lineBreak (kind_of_mem_dropLast h)
  have hfilter : (renumber shift group).filter staysInPragma =
      relabel (shiftLine · shift) (group.filter (·.kind != .newline)) := by
    show (group.map _).filter _ = (group.filter _).map _
    rw [List.filter_map]
    refine congrArg (List.map _) (List.filter_congr fun t ht => ?_)
    simp [staysInPragma, hcomment t ht]
  have hchain : (group.filter (·.kind != .newline)).IsChain Adjoins := by
    obtain ⟨before, after, hlines⟩ := List.append_of_mem h
    have hscan := isChain_scanFrom 1 (Source.joinContinuations (Source.replaceTrigraphs contents))
    rw [← scan, ← flatten_lines (scan _), show lines (scan _) = before ++ group :: after
      from hlines, List.flatten_append, List.flatten_cons, hsplit] at hscan
    exact (List.isChain_append.1 (List.isChain_append.1 (List.isChain_append.1 hscan).2.1).1).1
  obtain ⟨n, hline⟩ := exists_oneLine hchain hplain.kind
  refine ⟨shiftLine n shift, ?_, ?_⟩
  · rw [hfilter]
    refine ⟨?_, ?_, ?_⟩
    · rintro _ ht
      obtain ⟨t, hmem, rfl⟩ := List.mem_map.1 ht
      exact congrArg (shiftLine · shift) (hline.line t hmem)
    · rintro _ ht
      obtain ⟨t, hmem, rfl⟩ := List.mem_map.1 ht
      exact hline.kind t hmem
    · exact (List.isChain_map _).2 hline.space
  · rw [hfilter, stripBlank_relabel, collapsed_relabel, lineText]
    conv_rhs => rw [hsplit]
    rw [stripBlank_append_blank fun t => isBlank_of_mem_lineBreak]

end Source

end IdlFrontend
