import IdlFrontend.Proofs.Lexeme.Place
import IdlFrontend.Proofs.Source.Place

/-!
# A comment in a source text

A block comment stands between two texts of a source if it is one of the lexemes that the
logical text of the source is cut into, right behind those of the text before it. With a
space in its place, the other lexemes stay the same.

Results:

* `logicalText_append`: the logical text of a source with a block comment in it.
* `PlacedComment.exists_gap`: the lexemes with a space in the place of the comment.
-/

namespace IdlFrontend

/-! ## The logical text -/

namespace Source

/-- The text that is cut into lexemes for the contents of a file. -/
def logicalText (contents : Text) : Text := joinContinuations (replaceTrigraphs contents)

/-- The logical text before a place of a source. The letter that stands there instead of
    what follows is not trimmed; behind it are the empty lines that joined lines leave. -/
def textBefore (p : Text) : Text :=
  (Text.trimEnd (· == '\n') (logicalText (p ++ ['x']))).dropLast

/-- A block comment without line breaks. -/
structure IsBlockComment (c : Text) : Prop where
  marks : ∃ body, c = '/' :: '*' :: (body ++ ['*', '/'])
  inline : ∀ d ∈ c, isLineEnd d = false

theorem isLineEnd_of_mem_replaceTrigraphs {cs : Text} (h : ∀ d ∈ cs, isLineEnd d = false) :
    ∀ d ∈ replaceTrigraphs cs, isLineEnd d = false := by
  have htrigraph {c r : Char} (hr : trigraph? c = some r) : isLineEnd r = false := by
    unfold trigraph? at hr
    split at hr <;> cases hr <;> rfl
  fun_induction replaceTrigraphs cs with
  | case1 c cs r hr ih =>
    simp only [List.forall_mem_cons] at h ⊢
    exact ⟨htrigraph hr, ih h.2.2.2⟩
  | case2 c cs hnone ih =>
    rw [List.forall_mem_cons] at h ⊢
    exact ⟨h.1, ih h.2⟩
  | case3 c cs hnot ih =>
    rw [List.forall_mem_cons] at h ⊢
    exact ⟨h.1, ih h.2⟩
  | case4 => exact h

variable {p c : Text}

/-- The slash that ends a block comment is not part of a trigraph. -/
theorem IsBlockComment.exists_replaceTrigraphs (hc : IsBlockComment c) :
    ∃ front, ∀ q, replaceTrigraphs (c ++ q) = front ++ '/' :: replaceTrigraphs q := by
  obtain ⟨body, rfl⟩ := hc.marks
  refine ⟨replaceTrigraphs ('/' :: '*' :: (body ++ ['*'])), fun q => ?_⟩
  have hstar : ¬['?', '?'] <:+ '/' :: '*' :: (body ++ ['*']) := by
    rintro ⟨front, heq⟩
    rw [← List.cons_append, ← List.cons_append, ← List.singleton_append (l := ['?']),
      ← List.append_assoc] at heq
    cases (List.append_inj' heq rfl).2
  rw [← replaceTrigraphs_append_cons (by decide) (Or.inr hstar)]
  simp

theorem IsBlockComment.stays (hc : IsBlockComment c) : Stays (replaceTrigraphs c) := by
  obtain ⟨front, hfront⟩ := hc.exists_replaceTrigraphs
  have hend := hfront []
  rw [List.append_nil, replaceTrigraphs] at hend
  refine ⟨?_, isLineEnd_of_mem_replaceTrigraphs hc.inline, ?_⟩
  · rw [hend]
    exact List.append_ne_nil_of_right_ne_nil _ (List.cons_ne_nil _ _)
  · rw [hend, List.getLast?_append_of_ne_nil _ (List.cons_ne_nil _ _)]
    rintro d ⟨⟩
    decide

/-- Only a text that ends in two question marks has a trigraph with the slash that begins
    a comment. -/
theorem replaceTrigraphs_append_comment (hc : IsBlockComment c) (hp : ¬['?', '?'] <:+ p)
    (q : Text) :
    replaceTrigraphs (p ++ (c ++ q)) =
      replaceTrigraphs p ++ (replaceTrigraphs c ++ replaceTrigraphs q) := by
  obtain ⟨front, hfront⟩ := hc.exists_replaceTrigraphs
  have hend : replaceTrigraphs (c ++ q) = replaceTrigraphs c ++ replaceTrigraphs q := by
    have hself := hfront []
    rw [List.append_nil, replaceTrigraphs] at hself
    rw [hfront, hself, List.append_assoc]
    rfl
  rw [← hend]
  obtain ⟨body, rfl⟩ := hc.marks
  have hslash (cs : Text) : replaceTrigraphs ('/' :: cs) = '/' :: replaceTrigraphs cs := by
    rw [← List.nil_append ('/' :: cs), replaceTrigraphs_append_cons (by decide)
      (Or.inr (by decide))]
    rfl
  rw [List.cons_append, replaceTrigraphs_append_cons (by decide) (Or.inr hp), hslash]

/-! ## A place -/

theorem textBefore_eq {before : Text} {after : Text}
    (h : logicalText (p ++ ['x']) = before ++ 'x' :: after) (hafter : ∀ d ∈ after, d = '\n') :
    textBefore p = before := by
  have hall : after.all (· == '\n') := List.all_eq_true.2 fun d hd => beq_iff_eq.2 (hafter d hd)
  have htrim : Text.trimEnd (· == '\n') (before ++ ['x']) = before ++ ['x'] :=
    trimEnd_append_of_last (x := ['x']) (List.cons_ne_nil _ _) (by rintro d ⟨⟩; decide) before []
  rw [textBefore, h, ← List.singleton_append, ← List.append_assoc, trimEnd_append,
    if_pos hall, htrim, List.dropLast_concat]

/-- The logical text of a source with a block comment in it, and with a space in its place.
    The space is trimmed together with the white space before it if the line ends behind. -/
theorem logicalText_append (hc : IsBlockComment c) (hp : ¬['?', '?'] <:+ p) (q : Text) :
    ∃ before opened after, textBefore p = before ++ opened ∧ (∀ d ∈ opened, isLineEnd d = false) ∧
      logicalText (p ++ (c ++ q)) = textBefore p ++ (replaceTrigraphs c ++ after) ∧
      (endsLine (replaceTrigraphs q) = false →
        logicalText (p ++ ' ' :: q) = textBefore p ++ ' ' :: after) ∧
      (endsLine (replaceTrigraphs q) → (∀ d ∈ after.head?, d = '\n') ∧
        ((before ++ Text.trimEnd isWhiteSpace opened).getLast? ≠ some '\\' →
          logicalText (p ++ ' ' :: q) = before ++ Text.trimEnd isWhiteSpace opened ++ after)) := by
  obtain ⟨before, opened, hopened, hplace⟩ := exists_joinContinuations (replaceTrigraphs p)
  have hx : logicalText (p ++ ['x']) = joinContinuations (replaceTrigraphs p ++ ['x']) := by
    rw [logicalText, replaceTrigraphs_append_cons (by decide) (Or.inl rfl), replaceTrigraphs]
  have hspace : logicalText (p ++ ' ' :: q) =
      joinContinuations (replaceTrigraphs p ++ ' ' :: replaceTrigraphs q) := by
    rw [logicalText, replaceTrigraphs_append_cons (by decide) (Or.inl rfl)]
  have htext : textBefore p = before ++ opened := by
    obtain ⟨after, hstays, -, -, hfeeds⟩ := hplace []
    have hletter : Stays ['x'] :=
      ⟨List.cons_ne_nil _ _, List.forall_mem_singleton.2 rfl, by rintro d ⟨⟩; decide⟩
    exact textBefore_eq (hx.trans (hstays ['x'] hletter)) (hfeeds rfl)
  obtain ⟨after, hstays, hmiddle, hend, -⟩ := hplace (replaceTrigraphs q)
  refine ⟨before, opened, after, htext, hopened, ?_, ?_, ?_⟩
  · rw [logicalText, replaceTrigraphs_append_comment hc hp, hstays _ hc.stays, htext]
  · rw [hspace, htext]
    exact hmiddle
  · rw [hspace]
    exact hend

/-- Where the end of a line is trimmed, what stands before its last space stays, unless it
    ends in white space as well. -/
theorem exists_trimEnd {before opened front gap : Text} (h : before ++ opened = front ++ gap)
    (hopened : ∀ d ∈ opened, isLineEnd d = false)
    (hfront : ∀ d ∈ front.getLast?, isWhiteSpace d → d = '\n') :
    ∃ gap', (∀ d ∈ gap', d ∈ gap) ∧ before ++ Text.trimEnd isWhiteSpace opened = front ++ gap' := by
  have htrim (cs : Text) : ∀ d ∈ Text.trimEnd isWhiteSpace cs, d ∈ cs := fun d hd =>
    (List.rdropWhile_prefix isWhiteSpace (l := cs)).subset hd
  rcases List.append_eq_append_iff.1 h with ⟨x, rfl, rfl⟩ | ⟨x, rfl, rfl⟩
  · by_cases hx : x = []
    · subst hx
      exact ⟨Text.trimEnd isWhiteSpace gap, htrim gap, by simp⟩
    · have hlast : ∀ d ∈ x.getLast?, isWhiteSpace d = false := by
        intro d hd
        rw [List.getLast?_append_of_ne_nil _ hx] at hfront
        rw [Bool.eq_false_iff]
        intro hwhite
        have hend := hopened d (List.mem_append_left _ (List.mem_of_getLast? hd))
        rw [hfront d hd hwhite] at hend
        cases hend
      refine ⟨Text.trimEnd isWhiteSpace gap, htrim gap, ?_⟩
      rw [← List.nil_append (x ++ gap), trimEnd_append_of_last hx hlast, List.nil_append,
        List.append_assoc]
  · refine ⟨x ++ Text.trimEnd isWhiteSpace opened, fun d hd => ?_, List.append_assoc _ _ _⟩
    exact (List.mem_append.1 hd).elim (List.mem_append_left _)
      fun hd => List.mem_append_right _ (htrim opened d hd)

end Source

/-! ## The lexemes -/

open Lexeme

/-- A block comment `c` between the texts `p` and `q` of a source: it is a lexeme of the
    source behind the lexemes of the text before it. -/
structure PlacedComment (p c q : Text) where
  before : List Lexeme
  comment : Lexeme
  behind : List Lexeme
  block : Source.IsBlockComment c
  /-- The slash is no part of a trigraph. -/
  slash : ¬['?', '?'] <:+ p
  kind : comment.kind = .comment
  text : comment.text = Source.replaceTrigraphs c
  text_before : before.flatMap Lexeme.text = Source.textBefore p
  lexemes : scan (Source.logicalText (p ++ (c ++ q))) = before ++ comment :: behind

/-- A comment, the space on both of its sides, and the space that a single space in its place
    makes together with them. There is none if the line ends there and is trimmed. -/
structure CommentGap where
  left : List Lexeme
  comment : Lexeme
  right : List Lexeme
  space : List Lexeme
  kind : comment.kind = .comment
  left_kind : ∀ t ∈ left, t.kind = .space
  right_kind : ∀ t ∈ right, t.kind = .space
  space_kind : ∀ t ∈ space, t.kind = .space
  alone : left = [] → right = [] → space = [] ∨ space = [spaceAt comment.line]

namespace CommentGap

/-- The comment and the space around it. -/
def lexemes (g : CommentGap) : List Lexeme := g.left ++ g.comment :: g.right

end CommentGap

namespace PlacedComment

variable {p c q : Text}

/-- If the line ends behind the comment, what stands before it is neither white space, which
    would be trimmed together with the space, nor a backslash, which would continue the line. -/
def EndsPlainly (C : PlacedComment p c q) : Prop :=
  Source.endsLine (Source.replaceTrigraphs q) →
    ∀ d ∈ ((dropSpace C.before).flatMap Lexeme.text).getLast?, d ≠ '\\' ∧
      (isWhiteSpace d → d = '\n')

/-- With a space in the place of the comment, only the lexemes of the gap change. -/
theorem exists_gap (C : PlacedComment p c q) (hend : C.EndsPlainly) :
    ∃ (g : CommentGap) (us : List Lexeme), C.before = dropSpace C.before ++ g.left ∧
      g.comment = C.comment ∧ C.behind = g.right ++ us ∧
      (∀ t ∈ us.head?, t.kind ≠ .space) ∧ (g.space = [] → ∀ t ∈ us.head?, t.kind = .newline) ∧
      scan (Source.logicalText (p ++ ' ' :: q)) = dropSpace C.before ++ (g.space ++ us) := by
  obtain ⟨before, opened, after, hbefore, hopened, hcomment, hmiddle, hlast⟩ :=
    Source.logicalText_append C.block C.slash q
  have hinline : '\n' ∉ C.comment.text := fun hmem => by
    rw [C.text] at hmem
    cases C.block.stays.inline '\n' hmem
  have hscan := C.lexemes
  rw [hcomment, ← C.text_before, ← C.text] at hscan
  obtain ⟨spaces, hspaces, hkind, htext, hbehind, hgap⟩ := exists_scan_gap hscan hinline
  have hplace : Source.textBefore p =
      (dropSpace C.before).flatMap Lexeme.text ++ spaces.flatMap Lexeme.text := by
    rw [← List.flatMap_append, ← hspaces, C.text_before]
  cases hends : Source.endsLine (Source.replaceTrigraphs q) with
  | false =>
    -- The space behind the comment belongs to the gap.
    have hright : ∀ d ∈ after.takeWhile isSpace, isSpace d := fun d hd => List.mem_takeWhile_imp hd
    have hrest : ∀ d ∈ (after.dropWhile isSpace).head?, isSpace d = false := by
      intro d hd
      have := List.head?_dropWhile_not isSpace after
      rw [Option.mem_def.1 hd] at this
      simpa using this
    have hcut : after.takeWhile isSpace ++ after.dropWhile isSpace = after :=
      List.takeWhile_append_dropWhile
    let gap := spaces.flatMap Lexeme.text ++ ' ' :: after.takeWhile isSpace
    have hne : gap ≠ [] := List.append_ne_nil_of_right_ne_nil _ (List.cons_ne_nil _ _)
    have halone : spaces = [] → ofSpace C.comment.line (after.takeWhile isSpace) = [] →
        ofSpace C.comment.line gap = [] ∨
          ofSpace C.comment.line gap = [spaceAt C.comment.line] := by
      intro hleft hright
      have hnil : after.takeWhile isSpace = [] := by
        by_contra hcons
        rw [ofSpace, if_neg hcons] at hright
        cases hright
      refine Or.inr ?_
      show ofSpace _ (spaces.flatMap Lexeme.text ++ ' ' :: after.takeWhile isSpace) = _
      rw [hleft, hnil]
      rfl
    refine ⟨⟨spaces, C.comment, ofSpace C.comment.line (after.takeWhile isSpace),
      ofSpace C.comment.line gap, C.kind, hkind, kind_of_mem_ofSpace, kind_of_mem_ofSpace, halone⟩,
      scanFrom C.comment.line (after.dropWhile isSpace), hspaces, rfl, ?_,
      kind_ne_space_of_mem_head?_scanFrom hrest, ?_, ?_⟩
    · rw [hbehind, ← scanFrom_space hright hrest, hcut]
    · intro hnil
      simp only [ofSpace, if_neg hne] at hnil
      cases hnil
    · rw [hmiddle hends, hplace, ← hgap gap _ ?_ hrest fun hnil => absurd hnil hne]
      · simp only [gap, List.append_assoc, List.cons_append, hcut]
      · refine List.forall_mem_append.2 ⟨htext, List.forall_mem_cons.2 ⟨by decide, hright⟩⟩
  | true =>
    obtain ⟨hfeed, hlogical⟩ := hlast hends
    have hplain := hend hends
    obtain ⟨gap, hsub, htrim⟩ := Source.exists_trimEnd (hbefore.symm.trans hplace) hopened
      fun d hd => (hplain d hd).2
    have hspace : ∀ d ∈ gap, isSpace d := fun d hd => htext d (hsub d hd)
    have hbackslash : (before ++ Text.trimEnd isWhiteSpace opened).getLast? ≠ some '\\' := by
      rw [htrim]
      intro hmem
      cases gap with
      | nil =>
        rw [List.append_nil] at hmem
        exact (hplain _ hmem).1 rfl
      | cons d gap =>
        rw [List.getLast?_append_of_ne_nil _ (List.cons_ne_nil _ _)] at hmem
        exact absurd (hspace _ (List.mem_of_getLast? hmem)) (by decide)
    have halone : spaces = [] → ([] : List Lexeme) = [] →
        ofSpace C.comment.line gap = [] ∨
          ofSpace C.comment.line gap = [spaceAt C.comment.line] := by
      rintro rfl -
      exact Or.inl (if_pos (List.eq_nil_iff_forall_not_mem.2 fun d hd => List.not_mem_nil
        (hsub d hd)))
    have hrest : ∀ d ∈ after.head?, isSpace d = false := fun d hd => by
      rw [hfeed d hd]
      rfl
    refine ⟨⟨spaces, C.comment, [], ofSpace C.comment.line gap, C.kind, hkind,
      List.forall_mem_nil _,
      kind_of_mem_ofSpace, halone⟩, scanFrom C.comment.line after, hspaces, rfl, hbehind,
      kind_ne_space_of_mem_head?_scanFrom hrest, fun _ => isNewline_of_mem_head?_scanFrom hfeed, ?_⟩
    rw [hlogical hbackslash, htrim, List.append_assoc]
    exact hgap gap after hspace hrest fun _ => hfeed

end PlacedComment

end IdlFrontend
