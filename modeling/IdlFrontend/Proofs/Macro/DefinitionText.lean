import IdlFrontend.Proofs.Lexeme.Lossless
import IdlFrontend.Proofs.Lexeme.BlockComment
import IdlFrontend.Proofs.Macro.Spacing
import IdlFrontend.Proofs.Reading.PropertyText

/-!
# The text of a definition

A definition is a name, a list of parameters or none, and a text that replaces the name. It
is read from the lexemes of its text, and blanks around the replacement do not count. So a
space between the parts makes no difference, and no trigraph does that stands in a comment
in the list of parameters.

Results:

* `exists_of_readParameters`: what the lexemes of a list of parameters are.
* `IsParameterList.replaceTrigraphs`: such a list has the same parameters when its trigraphs
  are replaced.
* `define_text`: the macro that a definition defines.
-/

namespace IdlFrontend

open Lexeme MacroTable

/-! ## The parts of a definition -/

/-- A list of parameters that stands on one line: the reader of definitions reads the
    parameters from it, with nothing left. -/
structure IsParameterList (cs : Text) (parameters : Parameters) : Prop where
  inline : ∀ c ∈ cs, isLineEnd c = false
  accepted : ∃ ts, scan cs = ⟨.punctuation, ['('], 1⟩ :: ts ∧
    readParameters [] none ts = some (parameters, [])

/-- A list of parameters, or nothing at all. -/
def AreParameters (cs : Text) (parameters : Parameters) : Prop :=
  (cs = [] ∧ parameters = .none) ∨ IsParameterList cs parameters

/-- A text on one line that can stand at its end: it has no trigraphs, closes its comments
    and does not end in white space. -/
structure IsReplacement (cs : Text) : Prop where
  inline : ∀ c ∈ cs, isLineEnd c = false
  plain : ∀ t ∈ Source.trigraphs, ¬t.1 <:+: cs
  closed : ∀ t ∈ scan cs, ['/', '*'] <+: t.text → ['*', '/'] <:+ t.text.drop 2
  trimmed : ∀ c ∈ cs.getLast?, isWhiteSpace c = false

/-- The macro of a name, with parameters and with the text that replaces it. -/
def Macro.ofText (name : Text) (parameters : Parameters) (replacement : Text) : Macro :=
  ⟨name, parameters, (stripBlank (scan replacement)).map bodyLexeme⟩

variable {name cs ds ds' : Text} {parameters : Parameters} {ts : List Lexeme} {t : Lexeme}

/-! ## Lists of parameters -/

/-- A list of parameters consists of blanks, words, commas and dots, up to a parenthesis. -/
theorem exists_of_readParameters {names : List Text} {last : Option Text}
    (h : readParameters names last ts = some (parameters, [])) :
    ∃ before close, ts = before ++ [close] ∧ close.isPunct ')' ∧
      ∀ t ∈ before, t.isBlank ∨ t.kind = .word ∨ t.isPunct ',' ∨ t.isPunct '.' := by
  induction ts generalizing names last with
  | nil => cases h
  | cons t ts ih =>
    have hpass {names' : List Text} {last' : Option Text}
        (hrest : readParameters names' last' ts = some (parameters, []))
        (ht : t.isBlank ∨ t.kind = .word ∨ t.isPunct ',' ∨ t.isPunct '.') :
        ∃ before close, t :: ts = before ++ [close] ∧ close.isPunct ')' ∧
          ∀ t ∈ before, t.isBlank ∨ t.kind = .word ∨ t.isPunct ',' ∨ t.isPunct '.' := by
      obtain ⟨before, close, rfl, hclose, hbefore⟩ := ih hrest
      exact ⟨t :: before, close, rfl, hclose, List.forall_mem_cons.2 ⟨ht, hbefore⟩⟩
    rw [readParameters.eq_def] at h
    dsimp only at h
    split at h
    next hblank => exact hpass h (.inl hblank)
    split at h
    next hclose =>
      obtain rfl : ts = [] := by
        split at h
        · cases h
          rfl
        · split at h <;> cases h
          rfl
      exact ⟨[], t, rfl, hclose, List.forall_mem_nil _⟩
    split at h
    next rest hrest =>
      obtain ⟨a, b, c, heq, ha, hb, hc⟩ := afterEllipsis?_eq_some_iff.1 hrest
      obtain ⟨after, hafter, hpair⟩ := Option.map_eq_some_iff.1 h
      cases hpair
      unfold afterClosing? at hafter
      split at hafter
      next close more hdrop =>
        split at hafter
        next hclose =>
          cases hafter
          refine ⟨a :: b :: c :: rest.takeWhile Lexeme.isBlank, close, ?_, hclose, ?_⟩
          · rw [heq, List.cons_append, List.cons_append, List.cons_append, ← hdrop,
              List.takeWhile_append_dropWhile]
          · simp only [List.forall_mem_cons]
            exact ⟨.inr (.inr (.inr ha)), .inr (.inr (.inr hb)), .inr (.inr (.inr hc)),
              fun t ht => .inl (List.mem_takeWhile_imp ht)⟩
        · cases hafter
      · cases hafter
    next =>
      split at h
      · split at h
        next hword => exact hpass h (.inr (.inl hword))
        · cases h
      · split at h
        next hcomma => exact hpass h (.inr (.inr (.inl hcomma)))
        · cases h

theorem isWordPart_of_isSpace {c : Char} (h : isSpace c) : isWordPart c = false := by
  simp only [isSpace, IdlFrontend.isBlank, Bool.or_eq_true, beq_iff_eq] at h
  rcases h with (((rfl | rfl) | rfl) | rfl) | rfl <;> decide

theorem isWhole_word_iff : IsWhole .word cs ↔ IsName cs := by
  cases cs with
  | nil => rfl
  | cons c cs =>
    have hall : (cs.takeWhile isWordPart).length = cs.length ↔ ∀ d ∈ cs, isWordPart d := by
      rw [← List.takeWhile_eq_self_iff]
      exact ⟨(List.takeWhile_prefix _).eq_of_length, congrArg _⟩
    show extent c cs = (.word, cs.length) ↔ isWordStart c ∧ ∀ d ∈ cs, isWordPart d
    rw [← hall]
    constructor
    · intro h
      unfold extent at h
      split at h
      iterate 6 cases h
      split at h
      · cases h
      split at h
      next hword => exact ⟨hword, (Prod.mk.inj h).2⟩
      split at h <;> cases h
    · rintro ⟨hword, hlength⟩
      have hother : c ≠ '\n' ∧ c ≠ '/' ∧ c ≠ '"' ∧ c ≠ '\'' ∧ c ≠ '#' := by
        refine ⟨?_, ?_, ?_, ?_, ?_⟩ <;> rintro rfl <;> exact absurd hword (by decide)
      have hspace : isSpace c = false := Bool.eq_false_iff.2 fun h => by
        have hpart := isWordPart_of_isSpace h
        rw [Pattern.isWordPart_of_isWordStart hword] at hpart
        cases hpart
      rw [extent_other hother, hspace, if_neg Bool.false_ne_true, if_pos hword, hlength]

theorem IsName.isWordPart (h : IsName cs) : ∀ c ∈ cs, isWordPart c := by
  cases cs with
  | nil => exact h.elim
  | cons c cs => exact List.forall_mem_cons.2 ⟨Pattern.isWordPart_of_isWordStart h.1, h.2⟩

namespace IsParameterList

variable (h : IsParameterList cs parameters)

include h

/-- No question mark stands outside of the comments, and all of them are closed. -/
theorem comment_or_plain : ∀ t ∈ scan cs,
    (t.kind = .comment ∧ Source.IsBlockComment t.text) ∨ '?' ∉ t.text := by
  obtain ⟨ts, hscan, hread⟩ := h.accepted
  obtain ⟨before, close, rfl, hclose, hbefore⟩ := exists_of_readParameters hread
  have hmark {t : Lexeme} {c : Char} (ht : t.isPunct c) (hc : '?' ≠ c) : '?' ∉ t.text := by
    rw [text_of_isPunct ht]
    simpa using hc
  rw [hscan, List.forall_mem_cons, List.forall_mem_append, List.forall_mem_singleton]
  refine ⟨.inr (by decide), fun t ht => ?_, .inr (hmark hclose (by decide))⟩
  have hwhole : IsWhole t.kind t.text := by
    have hmem : t ∈ scan cs := by
      rw [hscan]
      exact List.mem_cons_of_mem _ (List.mem_append_left _ ht)
    exact isWhole_of_mem_scan t hmem
  rcases hbefore t ht with hblank | hword | hcomma | hdot
  · rcases kind_of_isBlank hblank with hnewline | hspace | hcomment
    · rw [hnewline] at hwhole
      exact .inr (by rw [eq_of_isWhole_newline hwhole]; decide)
    · refine .inr fun hmem => ?_
      rw [hspace] at hwhole
      exact absurd (isSpace_of_isWhole_space hwhole _ hmem) (by decide)
    · obtain ⟨front, back, rfl⟩ := List.append_of_mem ht
      have hplace : scan cs =
          ⟨.punctuation, ['('], 1⟩ :: front ++ t :: (back ++ [close]) := by
        rw [hscan]
        simp
      exact .inl ⟨hcomment, isBlockComment_of_scanFrom hplace (by simp) h.inline hcomment⟩
  · refine .inr fun hmem => ?_
    rw [hword, isWhole_word_iff] at hwhole
    exact absurd (hwhole.isWordPart _ hmem) (by decide)
  · exact .inr (hmark hcomma (by decide))
  · exact .inr (hmark hdot (by decide))

/-- Replacing the trigraphs of a list changes its comments only. -/
theorem replaceTrigraphs : IsParameterList (Source.replaceTrigraphs cs) parameters := by
  let f (t : Lexeme) : Lexeme :=
    if t.isBlank then { t with text := Source.replaceTrigraphs t.text } else t
  have hf : KeepsShape f := by
    refine keepsShape_of_blank (fun t ht => ?_) (fun t ht => if_neg (Bool.eq_false_iff.1 ht))
    show Lexeme.isBlank (if _ then _ else _)
    rw [if_pos ht]
    exact ht
  have hcomments := h.comment_or_plain
  obtain ⟨ts, hscan, hread⟩ := h.accepted
  have hmap : (scan cs).map (fun t => { t with text := Source.replaceTrigraphs t.text }) =
      (scan cs).map f := by
    refine List.map_congr_left fun t ht => ?_
    by_cases hblank : t.isBlank
    · exact (if_pos hblank).symm
    · rcases hcomments t ht with ⟨hcomment, -⟩ | hplain
      · exact absurd (isBlank_of_isGap (isGap_iff.2 (.inr hcomment))) hblank
      · rw [Source.replaceTrigraphs_of_not_mem hplain]
        exact (if_neg hblank).symm
  refine ⟨Source.isLineEnd_of_mem_replaceTrigraphs h.inline, ts.map f, ?_, ?_⟩
  · rw [scan, scanFrom_replaceTrigraphs fun t ht => (hcomments t ht).symm.imp id And.right, ← scan]
    exact hmap.trans (by rw [hscan]; rfl)
  · rw [readParameters_map hf, hread]
    rfl

theorem head?_eq : cs.head? = some '(' := by
  obtain ⟨ts, hscan, -⟩ := h.accepted
  have htext := text_flatten_scanFrom 1 cs
  rw [← scan, hscan] at htext
  rw [← htext]
  rfl

theorem exists_scan_eq : ∃ ts close, scan cs = ts ++ [close] ∧ close.isPunct ')' := by
  obtain ⟨ts, hscan, hread⟩ := h.accepted
  obtain ⟨before, close, rfl, hclose, -⟩ := exists_of_readParameters hread
  exact ⟨⟨.punctuation, ['('], 1⟩ :: before, close, hscan, hclose⟩

theorem getLast?_eq : cs.getLast? = some ')' := by
  obtain ⟨ts, close, hscan, hclose⟩ := h.exists_scan_eq
  have htext := text_flatten_scanFrom 1 cs
  rw [← scan, hscan] at htext
  rw [← htext]
  simp [text_of_isPunct hclose]

/-- A list is cut into the same lexemes whatever stands behind it. -/
theorem scan_append (rest : Text) : scan (cs ++ rest) = scan cs ++ scanFrom 1 rest := by
  obtain ⟨ts, close, hscan, hclose⟩ := h.exists_scan_eq
  have hcount : cs.count '\n' = 0 := List.count_eq_zero.2 fun hmem => by cases h.inline _ hmem
  have hlast : ∀ t ∈ (scanFrom 1 cs).getLast?, ∀ c more, t.text = c :: more →
      extent c (more ++ rest) = (t.kind, more.length) := by
    intro t ht c more htext
    rw [← scan, hscan, List.getLast?_concat, Option.mem_some] at ht
    subst ht
    rw [text_of_isPunct hclose] at htext
    cases htext
    have hkind : close.kind = .punctuation := by
      rw [isPunct, Bool.and_eq_true, beq_iff_eq] at hclose
      exact hclose.1
    rw [hkind, extent_append_iff (by decide) (by decide)]
    exact fun d _ => rfl
  rw [scan, scanFrom_append_of_last hlast, hcount]
  rfl

end IsParameterList

/-! ## Definitions -/

/-- The lexemes of a name and of a list of parameters, with blanks behind them. -/
theorem exists_scan_definition (hname : IsName name) (hlist : AreParameters cs parameters)
    (hblank : ∀ d ∈ ds.head?, isSpace d) :
    ∃ ls, scan (name ++ (cs ++ ds)) = ⟨.word, name, 1⟩ :: (ls ++ scanFrom 1 ds) ∧
      ((ls = [] ∧ parameters = .none) ∨ ∃ ts, ls = ⟨.punctuation, ['('], 1⟩ :: ts ∧
        readParameters [] none ts = some (parameters, [])) := by
  have hcount : name.count '\n' = 0 := List.count_eq_zero.2 fun hmem => by
    cases hname.isWordPart _ hmem
  have hword {rest : Text} (hrest : ∀ d ∈ rest.head?, isWordPart d = false) :
      scan (name ++ rest) = ⟨.word, name, 1⟩ :: scanFrom 1 rest := by
    rw [scan, scanFrom_append (isWhole_word_iff.2 hname) (by decide) hrest, hcount]
  rcases hlist with ⟨rfl, rfl⟩ | hlist
  · exact ⟨[], hword fun d hd => isWordPart_of_isSpace (hblank d hd), .inl ⟨rfl, rfl⟩⟩
  · obtain ⟨ts, hscan, hread⟩ := hlist.accepted
    refine ⟨⟨.punctuation, ['('], 1⟩ :: ts, ?_, .inr ⟨ts, rfl, hread⟩⟩
    have hparen : ∀ d ∈ (cs ++ ds).head?, isWordPart d = false := by
      rw [List.head?_append, hlist.head?_eq]
      rintro d ⟨⟩
      rfl
    rw [hword hparen, ← scan, hlist.scan_append, hscan]

/-- Blanks around the text that replaces a name do not count. -/
theorem define_definition (table : MacroTable) {ls body : List Lexeme} {n line : Nat}
    (hls : (ls = [] ∧ parameters = .none) ∨ ∃ ts, ls = ⟨.punctuation, ['('], 1⟩ :: ts ∧
      readParameters [] none ts = some (parameters, []))
    (hbody : ∀ t ∈ body.head?, t.isBlank) :
    table.define (⟨.word, name, n⟩ :: (ls ++ body)) line =
      .ok (table.insert ⟨name, parameters, (stripBlank body).map bodyLexeme⟩) := by
  rcases hls with ⟨rfl, rfl⟩ | ⟨ts, rfl, hread⟩
  · cases body with
    | nil => rfl
    | cons blank body =>
      have hblank := hbody blank rfl
      rw [List.nil_append, define_cons_blank table rfl hblank, stripBlank_cons_of_isBlank hblank]
  · have hread' := readParameters_append hread (body.rdropWhile Lexeme.isBlank)
    obtain ⟨before, close, rfl, hclose, -⟩ := exists_of_readParameters hread
    have hback : (close :: body).rdropWhile Lexeme.isBlank =
        close :: body.rdropWhile Lexeme.isBlank :=
      rdropWhile_isBlank_cons (isBlank_of_isPunct hclose) body
    have hstrip :
        stripBlank (⟨.word, name, n⟩ :: (⟨.punctuation, ['('], 1⟩ :: (before ++ [close]) ++ body)) =
        ⟨.word, name, n⟩ :: ⟨.punctuation, ['('], 1⟩ ::
          (before ++ [close] ++ body.rdropWhile Lexeme.isBlank) := by
      have hsplit (rest : List Lexeme) : ⟨.punctuation, ['('], 1⟩ :: (before ++ [close]) ++ rest =
          (⟨.punctuation, ['('], 1⟩ :: before) ++ close :: rest := by simp
      rw [stripBlank_cons_of_not_isBlank rfl, hsplit, rdropWhile_isBlank_append, hback, ← hsplit]
      · rfl
      · rw [hback]
        exact List.cons_ne_nil _ _
    have hparen : (⟨.punctuation, ['('], 1⟩ : Lexeme).isPunct '(' = true := rfl
    rw [define, hstrip]
    simp only [ne_eq, not_true_eq_false, if_false, hparen, if_true, hread']
    rw [List.nil_append, stripBlank_rdropWhile]

/-- A space in front of a text joins the space that the text begins with. -/
theorem exists_scan_space (cs : Text) : ∃ gap gap' ts, scanFrom 1 (' ' :: cs) = gap ++ ts ∧
    scan cs = gap' ++ ts ∧ ∀ t ∈ gap ++ gap', t.kind = .space := by
  have hsplit := List.takeWhile_append_dropWhile (p := isSpace) (l := cs)
  have hgap : ∀ c ∈ cs.takeWhile isSpace, isSpace c := fun c hc => List.mem_takeWhile_imp hc
  have hrest : ∀ c ∈ (cs.dropWhile isSpace).head?, isSpace c = false := by
    intro c hc
    have hnot := List.head?_dropWhile_not isSpace cs
    rw [hc] at hnot
    simpa using hnot
  refine ⟨ofSpace 1 (' ' :: cs.takeWhile isSpace), ofSpace 1 (cs.takeWhile isSpace),
    scanFrom 1 (cs.dropWhile isSpace), ?_, ?_, ?_⟩
  · rw [← scanFrom_space (List.forall_mem_cons.2 ⟨rfl, hgap⟩) hrest, List.cons_append, hsplit]
  · rw [← scanFrom_space hgap hrest, hsplit, scan]
  · exact List.forall_mem_append.2 ⟨kind_of_mem_ofSpace, kind_of_mem_ofSpace⟩

theorem blank_behind (hbehind : ds' = ' ' :: ds ∨ ds = [] ∧ ds' = []) :
    ∀ d ∈ ds'.head?, isSpace d := by
  rcases hbehind with rfl | ⟨-, rfl⟩
  · rintro d ⟨⟩
    rfl
  · exact fun d hd => by cases hd

/-- The macro that is defined by a name, parameters and a replacement with a space before it.
    Where nothing replaces the name, the space may be missing. -/
theorem define_text (table : MacroTable) (hname : IsName name) (hlist : AreParameters cs parameters)
    (hbehind : ds' = ' ' :: ds ∨ ds = [] ∧ ds' = []) (line : Nat) :
    table.define (scan (name ++ (cs ++ ds'))) line =
      .ok (table.insert (.ofText name parameters ds)) := by
  obtain ⟨ls, hscan, hls⟩ := exists_scan_definition hname hlist (blank_behind hbehind)
  rw [hscan, define_definition table hls]
  · rcases hbehind with rfl | ⟨rfl, rfl⟩
    · obtain ⟨gap, gap', ts, hgap, hgap', hspace⟩ := exists_scan_space ds
      rw [List.forall_mem_append] at hspace
      have hblanks {us : List Lexeme} (h : ∀ t ∈ us, t.kind = .space) : ∀ t ∈ us, t.isBlank :=
        fun t ht => isBlank_of_isGap (isGap_of_space (h t ht))
      rw [Macro.ofText, hgap, hgap', stripBlank_blank_append (hblanks hspace.1),
        stripBlank_blank_append (hblanks hspace.2)]
    · rw [Macro.ofText, scan]
  · rcases hbehind with rfl | ⟨-, rfl⟩
    · rw [scanFrom_cons, extent_of_isSpace rfl]
      rintro t ⟨⟩
      rfl
    · rw [scanFrom]
      exact fun t ht => by cases ht

end IdlFrontend
