import IdlFrontend.Proofs.Layout.Basic
import IdlFrontend.Proofs.Lexer.Modes
import IdlFrontend.Proofs.Lexer.Run

/-!
# The layout of a text that is read in the ordinary mode

Results:

* `Lexer.PlainStep.exists_shape`: what a step of the ordinary mode is.
* `Lexer.exists_laid`: a text that is read without failure, and without pragmas,
  markers and open literals, has a layout, and its tokens are those of the layout.
-/

namespace IdlFrontend

namespace Lexer

/-- A step that stays in the ordinary mode, reads no pragma or marker and no literal
    that goes on behind its line, and reads a comment wherever one is opened. `P` holds
    of the words that are read. -/
structure PlainStep (P : Text → Prop) (s : Step) : Prop where
  mode : s.next.mode = .ordinary
  not_sign : s.rule.pattern ∉ [.pragma, .lineMarker]
  comment : opensComment (s.text ++ s.next.rest) → s.rule.pattern ∈ [.lineComment, .blockComment]
  literal : s.rule.pattern ∈ [.quoted '\'', .quoted '"'] → ∀ c ∈ s.text, isLineEnd c = false
  word : s.rule.pattern = .word → P s.text

/-- The rules of stretches without a token. -/
def isGapRule (r : Rule) : Bool :=
  r.pattern ∈ [.blanks, .lineBreak, .lineComment, .blockComment] && r.meaning = .nothing &&
    r.change = .stay

/-- The rules of tokens. -/
def isTokenRule (r : Rule) : Bool :=
  (r.pattern ∈ [.word, .octal, .hexadecimal, .decimal, .quoted '\'', .quoted '"'] ||
    r.pattern.isPunctuation) && r.meaning ∉ [.nothing, .pragma, .lineMarker] && r.change = .stay

theorem rule_cases : ∀ r ∈ Rule.inMode .ordinary,
    r.pattern ∈ [.pragma, .lineMarker] ∨ r.change = .enter .fragment ∨ isGapRule r ∨
    isTokenRule r := by
  decide

variable {P : Text → Prop} {l : Lexer} {s : Step}

theorem note_eq_self {text : Text} {m : Meaning} (hm : m ∉ [.pragma, .lineMarker]) (l : Lexer) :
    l.note text m = l := by
  simp only [List.mem_cons, List.not_mem_nil, or_false, not_or] at hm
  unfold note
  split
  · exact absurd rfl hm.1
  · exact absurd rfl hm.2
  · rfl

theorem exists_kind? {m : Meaning} (hm : m ∉ [.nothing, .pragma, .lineMarker]) (dialect : Dialect)
    (cs : Text) : ∃ kind, m.kind? dialect cs = some kind := by
  cases m with
  | nothing | pragma | lineMarker => exact absurd hm (by decide)
  | token kind => exact ⟨kind, rfl⟩
  | word => exact ⟨_, rfl⟩
  | number => exact ⟨_, rfl⟩

/-- A step that stays in its mode and is neither a pragma nor a marker moves behind its
    stretch. -/
theorem next_read_of_stay {n : Nat} {r : Rule} (hstay : r.change = .stay)
    (hm : r.meaning ∉ [.pragma, .lineMarker])
    (hnative : r.meaning.kind? l.dialect (l.rest.take n) ≠ some (.keyword .native)) :
    (l.read n r).next = l.skip n := by
  show ((l.skip n).note (l.rest.take n) r.meaning).change (if _ then _ else _) = _
  rw [if_neg hnative, hstay, note_eq_self hm]
  rfl

/-- What a plain step is: it reads `n` characters by its rule and moves behind them. -/
structure PlainStep.Shape (l : Lexer) (s : Step) (n : Nat) : Prop where
  longestMatch : Rule.longestMatch l.atLineStart l.rest (Rule.inMode .ordinary) = some (n, s.rule)
  text_eq : s.text = l.rest.take n
  next_eq : s.next = l.skip n
  kind : (isGapRule s.rule ∧ s.token? = none) ∨
    (isTokenRule s.rule ∧ ∃ kind, kind ≠ .keyword .native ∧
      s.rule.meaning.kind? l.dialect s.text = some kind ∧ s.token? = some ⟨kind, s.text, l.line⟩)

theorem PlainStep.exists_shape (h : PlainStep P s) (hmode : l.mode = .ordinary)
    (hs : l.step? = some s) : ∃ n, PlainStep.Shape l s n := by
  obtain ⟨n, r, hmatch, rfl⟩ := step?_eq_some_iff.1 hs
  rw [hmode] at hmatch
  have hr := (Rule.longestMatch_mem hmatch).1
  obtain ⟨hnext, -⟩ := modes_read l n r
  have hordinary := hnext.symm.trans h.mode
  have hnot_native : r.meaning.kind? l.dialect (l.rest.take n) ≠ some (.keyword .native) := by
    intro hnative
    rw [if_pos hnative] at hordinary
    cases hordinary
  rw [if_neg hnot_native] at hordinary
  refine ⟨n, hmatch, rfl, ?_, ?_⟩ <;> rcases rule_cases r hr with hsign | hfragment | hgap | htoken
  · exact absurd hsign h.not_sign
  · rw [hfragment] at hordinary
    cases hordinary
  · simp only [isGapRule, Bool.and_eq_true, decide_eq_true_eq] at hgap
    exact next_read_of_stay hgap.2 (by rw [hgap.1.2]; decide) hnot_native
  · simp only [isTokenRule, Bool.and_eq_true, decide_eq_true_eq] at htoken
    exact next_read_of_stay htoken.2 (fun hm => htoken.1.2 (List.mem_cons_of_mem _ hm)) hnot_native
  · exact absurd hsign h.not_sign
  · rw [hfragment] at hordinary
    cases hordinary
  · have hmeaning : r.meaning = .nothing := by
      simp only [isGapRule, Bool.and_eq_true, decide_eq_true_eq] at hgap
      exact hgap.1.2
    refine Or.inl ⟨hgap, ?_⟩
    show (r.meaning.kind? _ _).map _ = none
    rw [hmeaning]
    rfl
  · have hmeaning : r.meaning ∉ [.nothing, .pragma, .lineMarker] := by
      simp only [isTokenRule, Bool.and_eq_true, decide_eq_true_eq] at htoken
      exact htoken.1.2
    obtain ⟨kind, hkind⟩ := exists_kind? hmeaning l.dialect (l.rest.take n)
    refine Or.inr ⟨htoken, kind, fun hnative => hnot_native (hnative ▸ hkind), hkind, ?_⟩
    show (r.meaning.kind? _ _).map _ = _
    rw [hkind]
    rfl

/-! ## Stretches without a token -/

theorem lineBreaks_eq_zero {cs : Text} (h : ∀ c ∈ cs, isLineEnd c = false) :
    Text.lineBreaks cs = 0 := by
  induction cs with
  | nil => rfl
  | cons c cs ih =>
    rw [List.forall_mem_cons] at h
    have hcr : ∀ rest, c = '\r' → cs = '\n' :: rest → False := by
      rintro rest rfl -
      exact absurd h.1 (by decide)
    rw [Text.lineBreaks.eq_3 c cs hcr, h.1, ih h.2]
    rfl

theorem lineBreaks_take_lineBreakLength {cs : Text} (h : 0 < Pattern.lineBreakLength cs) :
    Text.lineBreaks (cs.take (Pattern.lineBreakLength cs)) = 1 := by
  unfold Pattern.lineBreakLength at h ⊢
  split
  · rfl
  next c rest _ =>
    split
    next hend =>
      simp only [List.take_succ_cons, List.take_zero]
      rw [Text.lineBreaks.eq_3 c [] (fun _ _ h => by cases h), if_pos hend]
      rfl
    next hend => simp_all
  · cases h

variable {dialect : Dialect} {n : Nat} {ps : List Part}

/-- A stretch without a token is a part of the layout. -/
theorem PlainStep.Shape.exists_laid_gap (h : PlainStep.Shape l s n) (hgap : isGapRule s.rule)
    (hrest : Laid dialect P (l.skip n).rest ps) :
    ∃ p, Laid dialect P l.rest (p :: ps) ∧
      tokensFrom l.line (p :: ps) = tokensFrom (l.skip n).line ps := by
  have hlen : s.rule.pattern.length? l.atLineStart l.rest = some n :=
    (Rule.longestMatch_mem h.longestMatch).2
  have hline : (l.skip n).line = l.line + .ofNat (Text.lineBreaks (l.rest.take n)) := rfl
  have hdrop : (l.skip n).rest = l.rest.drop n := rfl
  rw [hdrop] at hrest
  rw [hline]
  simp only [isGapRule, Bool.and_eq_true, decide_eq_true_eq] at hgap
  obtain ⟨⟨hpattern, -⟩, -⟩ := hgap
  simp only [List.mem_cons, List.not_mem_nil, or_false] at hpattern
  rcases hpattern with hp | hp | hp | hp <;> rw [hp] at hlen
  · obtain ⟨rfl, hpos⟩ := Pattern.nonzero_eq_some.1 hlen
    have hblank := @Pattern.forall_mem_take_of_le_runLength isBlank l.rest _ (Nat.le_refl _)
    have hinline : ∀ c ∈ l.rest.take (Pattern.runLength isBlank l.rest), isLineEnd c = false :=
      fun c hc => isLineEnd_of_isBlank (hblank c hc)
    have hhead : ∀ c ∈ (l.rest.drop (Pattern.runLength isBlank l.rest)).head?, isBlank c = false :=
      Lexeme.head?_drop_takeWhile
    refine ⟨.blank 0, ?_, ?_⟩
    · have hlaid := Laid.blanks (Pattern.take_runLength_ne_nil hpos) hblank hhead hrest
      rwa [List.take_append_drop] at hlaid
    · rw [lineBreaks_eq_zero hinline]
      rfl
  · obtain ⟨rfl, hpos⟩ := Pattern.nonzero_eq_some.1 hlen
    refine ⟨.lineBreak, .lineBreak hpos hrest, ?_⟩
    rw [lineBreaks_take_lineBreakLength hpos]
    rfl
  · simp only [Pattern.length?, Pattern.lineCommentLength?] at hlen
    split at hlen
    next cs hcs =>
      cases hlen
      have hinline : ∀ c ∈ cs.take (Pattern.runLength (fun c => !isLineEnd c) cs), isLineEnd c =
          false := by
        intro c hc
        have := Pattern.forall_mem_take_of_le_runLength (Nat.le_refl _) c hc
        simpa using this
      have hhead : ∀ c ∈ (cs.drop (Pattern.runLength (fun c => !isLineEnd c) cs)).head?,
          isLineEnd c := by
        intro c hc
        have := Lexeme.head?_drop_takeWhile c hc
        simpa using this
      rw [hcs] at hrest ⊢
      refine ⟨.blank 0, ?_, ?_⟩
      · have hlaid := Laid.lineComment hinline hhead hrest
        rwa [List.cons_append, List.cons_append, List.take_append_drop] at hlaid
      · have hslash : ∀ c ∈ ['/', '/'], isLineEnd c = false := fun _ => eq_false_of_mem (by decide)
        have hall := List.forall_mem_append.2 ⟨hslash, hinline⟩
        show _ = tokensFrom (l.line + .ofNat (Text.lineBreaks (['/', '/'] ++ _))) ps
        rw [lineBreaks_eq_zero hall]
        rfl
    · cases hlen
  · simp only [Pattern.length?, Pattern.blockCommentLength?] at hlen
    split at hlen
    next cs hcs =>
      obtain ⟨k, hk, rfl⟩ := Option.map_eq_some_iff.1 hlen
      rw [hcs] at hrest ⊢
      exact ⟨_, .blockComment hk hrest, rfl⟩
    · cases hlen

/-! ## Tokens -/

theorem not_isGapRule_of_isTokenRule {r : Rule} (h : isTokenRule r) : ¬isGapRule r := by
  intro hgap
  simp only [isTokenRule, isGapRule, Bool.and_eq_true, decide_eq_true_eq] at h hgap
  exact h.1.2 (by rw [hgap.1.2]; decide)

theorem change_of_isTokenRule {r : Rule} (h : isTokenRule r) : r.change = .stay := by
  simp only [isTokenRule, Bool.and_eq_true, decide_eq_true_eq] at h
  exact h.2

theorem PlainStep.Shape.pos (h : PlainStep.Shape l s n) (htoken : isTokenRule s.rule) : 0 < n := by
  refine Pattern.length?_pos (Rule.longestMatch_mem h.longestMatch).2 fun hp => ?_
  rw [isTokenRule, hp] at htoken
  simp [Pattern.isPunctuation] at htoken

/-- What is known about the characters `c :: t` of a token in front of `rest`. -/
inductive TokenText (P : Text → Prop) (c : Char) (t rest : Text) : Prop
  | plain : Pattern.PlainToken c t rest → (isWordStart c → P (c :: t)) →
    opensComment (c :: t ++ rest) = false → TokenText P c t rest
  | quoted : c ∈ ['\'', '"'] → (∀ d ∈ t, isLineEnd d = false) →
    Pattern.quotedLength? c t = some t.length → TokenText P c t rest

theorem PlainStep.Shape.tokenText (h : PlainStep P s) {c : Char} {cs : Text} {m : Nat}
    (hshape : PlainStep.Shape l s (m + 1)) (hrest : l.rest = c :: cs)
    (htoken : isTokenRule s.rule) :
    TokenText P c (cs.take m) (cs.drop m) := by
  have hlen : s.rule.pattern.length? l.atLineStart (c :: cs) = some (m + 1) := by
    rw [← hrest]
    exact (Rule.longestMatch_mem hshape.longestMatch).2
  have htext : s.text = c :: cs.take m := by
    rw [hshape.text_eq, hrest]
    rfl
  simp only [isTokenRule, Bool.and_eq_true, Bool.or_eq_true, decide_eq_true_eq] at htoken
  obtain ⟨⟨hpattern, -⟩, -⟩ := htoken
  have hcomment (hp : s.rule.pattern ∉ [.lineComment, .blockComment]) :
      opensComment (c :: cs.take m ++ cs.drop m) = false := by
    have hnext : s.next.rest = cs.drop m := by
      rw [hshape.next_eq]
      show l.rest.drop (m + 1) = _
      rw [hrest]
      rfl
    rw [← htext, ← hnext]
    exact Bool.eq_false_iff.2 fun hopens => hp (h.comment hopens)
  have hplain (ht : Pattern.PlainToken c (cs.take m) (cs.drop m) ∧ isWordStart c = false)
      (hp : s.rule.pattern ∉ [.lineComment, .blockComment]) :
      TokenText P c (cs.take m) (cs.drop m) := by
    refine .plain ht.1 (fun hstart => ?_) (hcomment hp)
    rw [ht.2] at hstart
    cases hstart
  have hquoted {quote : Char} (hp : s.rule.pattern = .quoted quote) (hquote : quote ∈ ['\'', '"']) :
      TokenText P c (cs.take m) (cs.drop m) := by
    have hliteral : ∀ d ∈ s.text, isLineEnd d = false := by
      refine h.literal ?_
      rw [hp]
      simpa using hquote
    rw [htext, List.forall_mem_cons] at hliteral
    rw [hp] at hlen
    simp only [Pattern.length?] at hlen
    split at hlen
    next hc =>
      rw [beq_iff_eq] at hc
      subst hc
      obtain ⟨k, hk, hkm⟩ := Option.map_eq_some_iff.1 hlen
      obtain rfl : k = m := Nat.succ.inj hkm
      have hle := Pattern.quotedLength?_le hk
      refine .quoted hquote hliteral.2 ?_
      rw [Pattern.quotedLength?_take hk, List.length_take, Nat.min_eq_left hle]
    · cases hlen
  rcases hpattern with hpattern | hmark
  · simp only [List.mem_cons, List.not_mem_nil, or_false] at hpattern
    rcases hpattern with hp | hp | hp | hp | hp | hp
    · rw [hp] at hlen
      refine .plain (Pattern.plainToken_of_word hlen rfl) (fun _ => ?_)
        (hcomment (by rw [hp]; decide))
      rw [← htext]
      exact h.word hp
    · exact hplain (Pattern.plainToken_of_number (by decide) (hp ▸ hlen) _) (by rw [hp]; decide)
    · exact hplain (Pattern.plainToken_of_number (by decide) (hp ▸ hlen) _) (by rw [hp]; decide)
    · exact hplain (Pattern.plainToken_of_number (by decide) (hp ▸ hlen) _) (by rw [hp]; decide)
    · exact hquoted hp (by decide)
    · exact hquoted hp (by decide)
  · cases hp : s.rule.pattern with
    | mark d m' =>
      rw [hp] at hlen hmark
      exact hplain (Pattern.plainToken_of_mark hmark hlen _) (by rw [hp]; simp)
    | _ =>
      rw [hp] at hmark
      cases hmark

theorem TokenText.inline {c : Char} {t rest : Text} (h : TokenText P c t rest) :
    ∀ d ∈ c :: t, isLineEnd d = false := by
  cases h with
  | plain ht => exact fun d hd => isLineEnd_of_isPlain (ht.isPlain d hd)
  | quoted hquote hinline =>
    refine List.forall_mem_cons.2 ⟨?_, hinline⟩
    exact eq_false_of_mem (by decide) hquote

theorem TokenText.readable {c : Char} {t w x : Text} (h : TokenText P c t (w ++ x)) :
    Rule.Readable x (c :: t ++ w) := by
  cases h with
  | plain ht _ hcomment =>
    refine .plain (ht.isPlain c List.mem_cons_self) ?_
    show opensComment (c :: (t ++ w ++ x)) = false
    rw [List.append_assoc]
    exact hcomment
  | quoted hquote _ hclosed => exact .quoted hquote (Pattern.quotedLength?_append hclosed w)

theorem TokenText.compact {c : Char} {t w x : Text} (h : TokenText P c t (w ++ x)) (hx : Ends x)
    (hw : Lexeme.Compact P x false w) : Lexeme.Compact P x false (c :: t ++ w) := by
  cases h with
  | plain ht hword hcomment =>
    refine .prepend ht hx ?_ hword hw
    show opensComment (c :: (t ++ w ++ x)) = false
    rw [List.append_assoc]
    exact hcomment
  | quoted hquote hinline hclosed => exact .quoted hquote hinline hclosed hw

/-- A token is put in front of the tokens that it touches. -/
theorem PlainStep.Shape.exists_laid_token (h : PlainStep P s) (hshape : PlainStep.Shape l s n)
    (htoken : isTokenRule s.rule) (hrest : Laid l.dialect P (l.skip n).rest ps) :
    ∃ qs, Laid l.dialect P l.rest qs ∧
      tokensFrom l.line qs = s.token?.toList ++ tokensFrom (l.skip n).line ps := by
  obtain ⟨ts, x, qs, hsplit, hglued, hcompact, hends, hqs, hlaid, htokens⟩ := hrest.split
  obtain ⟨c, cs, m, hcs, rfl⟩ : ∃ c cs m, l.rest = c :: cs ∧ n = m + 1 := by
    have hpos := hshape.pos htoken
    have hle : n ≤ l.rest.length := Pattern.length?_le (Rule.longestMatch_mem hshape.longestMatch).2
    obtain ⟨c, cs, hcs⟩ := List.exists_cons_of_length_pos (Nat.lt_of_lt_of_le hpos hle)
    exact ⟨c, cs, n - 1, hcs, by omega⟩
  have hdrop : cs.drop m = glue ts ++ x := by
    rw [← hsplit]
    show _ = l.rest.drop (m + 1)
    rw [hcs, List.drop_succ_cons]
  have htext := hshape.tokenText h hcs htoken
  rw [hdrop] at htext
  have hstep : s.text = c :: cs.take m := by
    rw [hshape.text_eq, hcs, List.take_succ_cons]
  have hall : c :: cs.take m ++ glue ts ++ x = l.rest := by
    rw [hcs, List.append_assoc, ← hdrop, List.cons_append, List.take_append_drop]
  have hlength : (c :: cs.take m).length = m + 1 := by
    have hle := Pattern.length?_le (Rule.longestMatch_mem hshape.longestMatch).2
    rw [hcs, List.length_cons] at hle
    rw [List.length_cons, List.length_take, Nat.min_eq_left (by omega)]
  rcases hshape.kind with ⟨hgap, -⟩ | ⟨-, kind, hnative, hkind, htoken?⟩
  · exact absurd hgap (not_isGapRule_of_isTokenRule htoken)
  · rw [hstep] at hkind
    have hmatch := hshape.longestMatch
    rw [← hall, Rule.longestMatch_append hends htext.readable] at hmatch
    have halone : ReadsAlone l.dialect ⟨kind, c :: cs.take m⟩ (glue ts) :=
      ⟨⟨s.rule, by rw [hlength]; exact hmatch, hkind, change_of_isTokenRule htoken⟩, hnative,
        List.cons_ne_nil _ _, htext.inline⟩
    refine ⟨.solid (⟨kind, c :: cs.take m⟩ :: ts) :: qs, ?_, ?_⟩
    · rw [← hall]
      exact .solid (List.cons_ne_nil _ _) (.cons halone htext.readable hglued)
        (htext.compact hends hcompact) hends hqs hlaid
    · have hline : (l.skip (m + 1)).line = l.line := by
        show l.line + .ofNat (Text.lineBreaks (l.rest.take (m + 1))) = l.line
        rw [← hshape.text_eq, hstep, lineBreaks_eq_zero htext.inline]
        exact UInt64.add_zero l.line
      rw [htoken?, hstep, htokens, hline]
      rfl

/-- A text that is read without failure by plain steps has a layout, and its tokens are
    those of the layout. -/
theorem exists_laid {l : Lexer} (hmode : l.mode = .ordinary) (hok : l.tokenize.2.1 = none)
    (hplain : ∀ s ∈ l.steps, PlainStep P s) :
    ∃ ps, Laid l.dialect P l.rest ps ∧ l.tokenize.1 = tokensFrom l.line ps := by
  fun_induction steps l with
  | case1 l hrest =>
    have hnil : l.rest = [] := by simpa using hrest
    rw [tokenize_of_rest_eq_nil hnil, hnil]
    exact ⟨[], .nil, rfl⟩
  | case2 l hrest hnone =>
    rw [tokenize_of_no_step (by simpa using hrest) hnone] at hok
    cases hok
  | case3 l hrest s hs ih =>
    rw [List.forall_mem_cons] at hplain
    rw [tokenize_of_step (by simpa using hrest) hs] at hok ⊢
    obtain ⟨ps, hlaid, htokens⟩ := ih hplain.1.mode hok hplain.2
    obtain ⟨n, hshape⟩ := hplain.1.exists_shape hmode hs
    rw [hshape.next_eq] at hlaid htokens
    have hdialect : (l.skip n).dialect = l.dialect := rfl
    rw [hdialect] at hlaid
    rcases hshape.kind with ⟨hgap, htoken⟩ | ⟨hrule, -⟩
    · obtain ⟨p, hlaid, hline⟩ := hshape.exists_laid_gap hgap hlaid
      refine ⟨p :: ps, hlaid, ?_⟩
      rw [hline, ← htokens, htoken, hshape.next_eq]
      rfl
    · obtain ⟨qs, hlaid, hline⟩ := hshape.exists_laid_token hplain.1 hrule hlaid
      refine ⟨qs, hlaid, ?_⟩
      rw [hline, ← htokens, hshape.next_eq]

end Lexer

end IdlFrontend
