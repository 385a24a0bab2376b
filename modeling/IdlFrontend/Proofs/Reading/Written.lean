import IdlFrontend.Frontend
import IdlFrontend.Proofs.Layout.Output
import IdlFrontend.Proofs.Reading.Place
import Mathlib.Data.List.Chain

/-!
# Words that are written down

Words are written with blanks behind them. Behind a closing template bracket the blanks can be
missing, and then the lexer reads two brackets as one token. Behind the bracket of a property list
the lexer is in another mode, up to the closing bracket.

Results:

* `Written.gives`: the lexer reads the words that are written, and nothing else.
* `Writable.spaced`: words with spaces behind them, and with any gaps behind closing brackets.
-/

namespace IdlFrontend

/-- In the mode, the lexer reads the text as one token of the kind. -/
def IsToken (d : Dialect) (mode : Mode) (kind : TokenKind) (cs : Text) : Prop :=
  ({ Lexer.ofText d cs with mode } : Lexer).step?.map (fun s => (s.text, s.token?)) =
    some (cs, some ⟨kind, cs, 1⟩)

instance (d : Dialect) (mode : Mode) (kind : TokenKind) (cs : Text) :
    Decidable (IsToken d mode kind cs) :=
  inferInstanceAs (Decidable (_ = _))

/-- How a word is written. -/
def Word.text : Word → Text
  | .keyword k => k.spelling.toList
  | .identifier name => name
  | .integer text | .floating text | .fixedPoint text => text
  | .character body => '\'' :: (body ++ ['\''])
  | .string body => '"' :: (body ++ ['"'])
  | .propertyArgs body => '(' :: (body ++ [')'])
  | .nativeType text | .fragment text => text
  | .punct p => p.text
  | .openProperties => ['[']

/-- A text that the words are written as, if the lexer begins in the mode. -/
inductive Written (d : Dialect) : Mode → List Word → Text → Prop
  | nil (mode : Mode) : Written d mode [] []
  | token {mode : Mode} {w : Word} {ws : List Word} {gap cs : Text} :
    IsToken d mode w.kind w.text → w ∉ [.closing, .openProperties, .keyword .native] →
    (mode = .properties → w ≠ .punct .closeBracket) → (∀ c ∈ gap, isBlank c) →
    (gap = [] → ws = []) → Written d mode ws cs → Written d mode (w :: ws) (w.text ++ (gap ++ cs))
  | closing {ws : List Word} {gap cs : Text} : (∀ c ∈ gap, isBlank c) →
    (gap = [] → ws.head? ≠ some (.punct .shiftRight)) → Written d .ordinary ws cs →
    Written d .ordinary (.closing :: ws) ('>' :: (gap ++ cs))
  | openProperties {ws : List Word} {gap cs : Text} : (∀ c ∈ gap, isBlank c) →
    Written d .properties ws cs → Written d .ordinary (.openProperties :: ws) ('[' :: (gap ++ cs))
  | closeBracket {ws : List Word} {gap cs : Text} : (∀ c ∈ gap, isBlank c) →
    Written d .ordinary ws cs →
    Written d .properties (.punct .closeBracket :: ws) (']' :: (gap ++ cs))

variable {d : Dialect} {mode : Mode} {kind : TokenKind} {w : Word} {ws : List Word}
  {cs gap x : Text} {modes below : List Mode} {l : Lexer} {r : Rule}

/-- A word is the token that is written as its text. -/
theorem Word.word_token (hw : w ≠ .openProperties) (line : UInt64) :
    Token.word ⟨w.kind, w.text, line⟩ = w := by
  have hquoted (quote : Char) (body : Text) : quotedBody (quote :: (body ++ [quote])) = body :=
    List.dropLast_concat
  cases w with
  | character body => exact congrArg Word.character (hquoted '\'' body)
  | string body => exact congrArg Word.string (hquoted '"' body)
  | propertyArgs body =>
    refine congrArg Word.propertyArgs ?_
    show (if (body ++ [')']).getLast? = some ')' then (body ++ [')']).dropLast else _) = body
    rw [if_pos List.getLast?_concat, List.dropLast_concat]
  | openProperties => exact absurd rfl hw
  | _ => rfl

/-! ## Tokens -/

namespace Lexer

/-- The modes in which tokens are written. -/
def writing : List Mode := [.ordinary, .properties]

/-- The patterns of the rules of tokens in these modes. -/
theorem pattern_of_token : ∀ mode ∈ writing, ∀ r ∈ Rule.inMode mode,
    r.meaning ∉ [.nothing, .pragma, .lineMarker] →
    r.pattern ∈ [.word, .octal, .hexadecimal, .decimal, .quoted '\'', .quoted '"', .propertyArgs] ∨
      r.pattern.isPunctuation := by
  decide

end Lexer

/-- The rule that reads a token. -/
theorem IsToken.exists_rule (h : IsToken d mode kind cs) :
    ∃ r, Rule.longestMatch true cs (Rule.inMode mode) = some (cs.length, r) ∧
      r.meaning.kind? d cs = some kind := by
  obtain ⟨s, hs, hpair⟩ := Option.map_eq_some_iff.1 h
  obtain ⟨n, r, hmatch, rfl⟩ := Lexer.step?_eq_some_iff.1 hs
  obtain ⟨htext, htoken⟩ := Prod.mk.inj hpair
  have hle : n ≤ cs.length := Pattern.length?_le (Rule.longestMatch_mem hmatch).2
  have hlen : n = cs.length := by
    have hlength : (cs.take n).length = cs.length := congrArg List.length htext
    rw [List.length_take] at hlength
    omega
  subst hlen
  refine ⟨r, hmatch, ?_⟩
  obtain ⟨kind', hkind, heq⟩ := Option.map_eq_some_iff.1 htoken
  obtain rfl : kind' = kind := congrArg Token.kind heq
  rw [← hkind]
  exact congrArg (r.meaning.kind? d) (List.take_length (l := cs)).symm

theorem meaning_of_kind? (h : r.meaning.kind? d cs = some kind) :
    r.meaning ∉ [.nothing, .pragma, .lineMarker] := by
  intro hm
  simp only [List.mem_cons, List.not_mem_nil, or_false] at hm
  rcases hm with hm | hm | hm <;> rw [hm] at h <;> cases h

theorem eq_of_isBlank {c : Char} (h : isBlank c) :
    c = ' ' ∨ c = '\t' ∨ c = '\x0b' ∨ c = '\x0c' := by
  simpa only [isBlank, Bool.or_eq_true, beq_iff_eq, or_assoc] using h

/-- The first character of a token that is no literal. -/
theorem isPlain_of_canBegin {p : Pattern} {c : Char}
    (hp : p ∈ [.word, .octal, .hexadecimal, .decimal, .propertyArgs] ∨ p.isPunctuation)
    (hc : p.canBegin c) : isPlain c := by
  have hword (h : isWordPart c) : isPlain c := by rw [isPlain, h, Bool.true_or]
  rcases hp with hp | hp
  · simp only [List.mem_cons, List.not_mem_nil, or_false] at hp
    rcases hp with rfl | rfl | rfl | rfl | rfl
    · exact hword (Pattern.isWordPart_of_isWordStart hc)
    · exact beq_iff_eq.1 hc ▸ rfl
    · exact beq_iff_eq.1 hc ▸ rfl
    · rw [Pattern.canBegin, Bool.or_eq_true, beq_iff_eq] at hc
      rcases hc with hc | rfl
      · exact hword (Pattern.isWordPart_of_isDigit hc)
      · rfl
    · exact beq_iff_eq.1 hc ▸ rfl
  · cases p with
    | mark e es =>
      simp only [Pattern.isPunctuation, List.all_cons, Bool.and_eq_true] at hp
      exact beq_iff_eq.1 hc ▸ hp.1.1.1
    | _ => cases hp

/-- A match of a token rule begins with a quote, which is closed, or with a plain character. -/
theorem readable_of_token (hmode : mode ∈ Lexer.writing) (hr : r ∈ Rule.inMode mode)
    (hm : r.meaning ∉ [.nothing, .pragma, .lineMarker]) {lineStart : Bool}
    (hlen : r.length? lineStart cs = some cs.length) (hx : ∀ c ∈ x.head?, isBlank c) :
    Rule.Readable x cs := by
  have hslash : ∀ mode ∈ Lexer.writing, ∀ r ∈ Rule.inMode mode,
      r.meaning ∉ [.nothing, .pragma, .lineMarker] → r.pattern.canBegin '/' →
        r.pattern = .mark '/' [] := by decide
  have hpattern := Lexer.pattern_of_token mode hmode r hr hm
  have hpos : 0 < cs.length := by
    refine Pattern.length?_pos hlen fun hp => ?_
    rw [hp] at hpattern
    exact absurd hpattern (by decide)
  obtain ⟨c, v, rfl⟩ := List.exists_cons_of_length_pos hpos
  have hbegin := Pattern.canBegin_of_length? hlen
  by_cases hquoted : r.pattern ∈ [.quoted '\'', .quoted '"']
  · obtain ⟨quote, hquote, hp⟩ : ∃ quote ∈ ['\'', '"'], r.pattern = .quoted quote := by
      simpa using hquoted
    rw [hp] at hbegin
    obtain rfl : quote = c := beq_iff_eq.1 hbegin
    rw [Rule.length?, hp] at hlen
    simp only [Pattern.length?, beq_self_eq_true, if_true] at hlen
    obtain ⟨k, hk, -⟩ := Option.map_eq_some_iff.1 hlen
    exact .quoted hquote hk
  · have hplain : isPlain c := by
      refine isPlain_of_canBegin ?_ hbegin
      simp only [List.mem_cons, List.not_mem_nil, or_false, not_or] at hquoted hpattern ⊢
      rcases hpattern with (hp | hp | hp | hp | hp | hp | hp) | hp <;> simp_all
    refine .plain hplain ?_
    by_cases hc : c = '/'
    · subst hc
      have hp := hslash mode hmode r hr hm hbegin
      rw [Rule.length?, hp] at hlen
      obtain rfl : v = [] := by
        simp only [Pattern.length?] at hlen
        split at hlen
        · exact List.length_eq_zero_iff.1 (Nat.succ.inj (Option.some.inj hlen)).symm
        · cases hlen
      cases x with
      | nil => rfl
      | cons b x =>
        have hblank : isBlank b := hx b rfl
        rcases eq_of_isBlank hblank with rfl | rfl | rfl | rfl <;> rfl
    · exact opensComment_of_ne hc _

/-! ## Reading -/

/-- The lexer stands in front of the text, with the modes that it is in. -/
structure Lexer.Faces (d : Dialect) (modes : List Mode) (cs : Text) (l : Lexer) : Prop where
  dialect : l.dialect = d
  modes : l.mode :: l.below = modes
  rest : l.rest = cs

/-- What a rule for a token reads. -/
theorem Lexer.Faces.next (h : l.Faces d (mode :: below) (cs ++ x)) (hcs : cs ≠ [])
    (hstep : l.step? = some (l.read cs.length r)) (hkind : r.meaning.kind? d cs = some kind)
    (hnative : kind ≠ .keyword .native) :
    ∃ l' : Lexer, l'.Faces d (mode :: below) x ∧
      l.next = (.ok (some ⟨kind, cs, l.line⟩), l'.change r.change) := by
  have hm := meaning_of_kind? hkind
  have htake : l.rest.take cs.length = cs := by rw [h.rest, List.take_left]
  have hread : l.read cs.length r =
      ⟨cs, r, some ⟨kind, cs, l.line⟩, (l.skip cs.length).change r.change⟩ := by
    unfold Lexer.read
    dsimp only
    rw [htake, h.dialect, hkind, Lexer.note_eq_self fun hmem => hm (List.mem_cons_of_mem _ hmem),
      if_neg fun heq => hnative (Option.some.inj heq)]
    rfl
  have hrest : l.rest ≠ [] := by
    rw [h.rest]
    exact List.append_ne_nil_of_left_ne_nil hcs x
  refine ⟨l.skip cs.length, ⟨h.dialect, h.modes, ?_⟩, ?_⟩
  · show l.rest.drop cs.length = x
    rw [h.rest, List.drop_left]
  · rw [Lexer.next_of_step hrest hstep, hread]

theorem Lexer.Faces.mode_eq (h : l.Faces d (mode :: below) cs) : l.mode = mode :=
  (List.cons.inj h.modes).1

/-- In front of a parenthesis the lexer may read the arguments of a property. Any other token of one
    of these modes is read like alone. -/
theorem longestMatch_of_isToken (hmode : mode ∈ Lexer.writing) (h : IsToken d mode kind cs)
    (hparen : mode = .properties → cs.head? ≠ some '(') (hx : ∀ c ∈ x.head?, isBlank c)
    (lineStart : Bool) :
    ∃ r, Rule.longestMatch lineStart (cs ++ x) (Rule.inMode mode) = some (cs.length, r) ∧
      r.meaning.kind? d cs = some kind := by
  have hlocal : ∀ mode ∈ Lexer.writing, ∀ r ∈ Rule.inMode mode,
      r.pattern.isLocal ∨ mode = .properties ∧ r.pattern = .propertyArgs := by decide
  obtain ⟨r, hmatch, hkind⟩ := h.exists_rule
  obtain ⟨hr, hlen⟩ := Rule.longestMatch_mem hmatch
  have hm := meaning_of_kind? hkind
  have hends : Ends x := fun c hc => mem_boundary_of_isBlank (hx c hc)
  -- Both sides are compared with the match in the text alone.
  have hcongr (y : Text) (b : Bool) (hy : Ends y) (hread : Rule.Readable y cs) :
      Rule.longestMatch b (cs ++ y) (Rule.inMode mode) =
        Rule.longestMatch false cs (Rule.inMode mode) := by
    refine Rule.longestMatch_congr fun r hr => ?_
    rcases hlocal mode hmode r hr with hp | ⟨hproperties, hp⟩
    · cases hread with
      | plain hc hcomment => exact Pattern.length?_append_of_isPlain hp hc hcomment hy
      | quoted hquote hw => exact Pattern.length?_append_of_quote hp hquote hw
    · have hnone {e : Char} {es : Text} (he : some e ≠ some '(') (b : Bool) :
          r.length? b (e :: es) = none := by
        refine Pattern.length?_of_not_canBegin ?_ b es
        rw [hp]
        exact beq_eq_false_iff_ne.2 fun heq => he (congrArg some heq)
      have hhead := hparen hproperties
      cases hread with
      | plain => exact (hnone hhead b).trans (hnone hhead false).symm
      | quoted => exact (hnone hhead b).trans (hnone hhead false).symm
  refine ⟨r, ?_, hkind⟩
  rw [hcongr x lineStart hends (readable_of_token hmode hr hm hlen hx)]
  rw [← hcongr [] true ends_nil (readable_of_token hmode hr hm hlen (by rintro _ ⟨⟩)),
    List.append_nil, hmatch]

/-- Blanks are read by a rule of their own, unless a line begins with them. -/
theorem rule_of_isBlank {c : Char} (hc : isBlank c) : ∀ mode ∈ Lexer.writing,
    ∀ r ∈ Rule.inMode mode, r.pattern.canBegin c →
      r = ⟨.blanks, .nothing, .stay⟩ ∨ r.pattern = .pragma ∨ r.pattern = .lineMarker := by
  rcases eq_of_isBlank hc with rfl | rfl | rfl | rfl <;> decide

/-- Blanks in front of a token are skipped. -/
theorem Lexer.Faces.skipBlanks (hmode : mode ∈ Lexer.writing)
    (h : l.Faces d (mode :: below) (gap ++ cs)) (hgap : ∀ c ∈ gap, isBlank c)
    (hcs : ∀ c ∈ cs.head?, isBlank c = false ∧ c ≠ '#') :
    ∃ m : Lexer, m.Faces d (mode :: below) cs ∧ l.next = m.next := by
  cases gap with
  | nil => exact ⟨l, h, rfl⟩
  | cons b gap =>
    have hlmode := h.mode_eq
    have hblanks : ∀ mode ∈ Lexer.writing, ⟨.blanks, .nothing, .stay⟩ ∈ Rule.inMode
        mode := by decide
    have hunique := rule_of_isBlank (hgap b List.mem_cons_self) mode hmode
    have htake : (b :: gap ++ cs).takeWhile isBlank = b :: gap := by
      rw [Pattern.takeWhile_append fun c hc => (hcs c hc).1]
      exact List.takeWhile_eq_self_iff.2 hgap
    have hdrop : (b :: gap ++ cs).dropWhile isBlank = cs := by
      have hsplit := List.takeWhile_append_dropWhile (p := isBlank) (l := b :: gap ++ cs)
      rw [htake] at hsplit
      exact List.append_cancel_left hsplit
    have hstep : l.step? = some (l.read (b :: gap).length ⟨.blanks, .nothing, .stay⟩) := by
      refine Lexer.step?_of_unique (by rw [hlmode]; exact hblanks mode hmode) ?_ fun r hr k hk => ?_
      · show Pattern.nonzero (Pattern.runLength isBlank l.rest) = _
        rw [h.rest, Pattern.runLength, htake]
        rfl
      · rw [hlmode] at hr
        rw [h.rest] at hk
        refine (hunique r hr (Pattern.canBegin_of_length? hk)).resolve_right fun hp => ?_
        have hsign := (Pattern.lineStart_of_length? hp hk).2
        rw [hdrop] at hsign
        exact (hcs '#' hsign).2 rfl
    have hrest : l.rest ≠ [] := by
      rw [h.rest]
      exact List.cons_ne_nil _ _
    refine ⟨l.skip (b :: gap).length, ⟨h.dialect, h.modes, ?_⟩, ?_⟩
    · show l.rest.drop (b :: gap).length = cs
      rw [h.rest, List.drop_left]
    · rw [Lexer.next_of_step hrest hstep]
      rfl

/-! ## Brackets -/

/-- A character that only one rule begins with. -/
theorem Lexer.Faces.bracket {c : Char} (p : Punct) (change : ModeChange)
    (h : l.Faces d (mode :: below) (c :: x)) (hr : p.rule change ∈ Rule.inMode mode)
    (hp : p.spelling = (c, []))
    (hunique : ∀ r ∈ Rule.inMode mode, r.pattern.canBegin c → r = p.rule change) :
    ∃ l' : Lexer, l'.Faces d (mode :: below) x ∧
      l.next = (.ok (some ⟨.punct p, [c], l.line⟩), l'.change change) := by
  have hstep : l.step? = some (l.read 1 (p.rule change)) := by
    refine Lexer.step?_of_unique (by rw [h.mode_eq]; exact hr) ?_ fun r hr k hk => ?_
    · rw [h.rest, Punct.rule, hp]
      simp [Rule.length?, Pattern.length?]
    · rw [h.mode_eq] at hr
      rw [h.rest] at hk
      exact hunique r hr (Pattern.canBegin_of_length? hk)
  exact Lexer.Faces.next h (List.cons_ne_nil c []) hstep rfl (by rintro ⟨⟩)

/-- The rules that an angle begins. -/
theorem rule_of_angle : ∀ r ∈ Rule.inMode .ordinary, r.pattern.canBegin '>' →
    r = Punct.greater.rule ∨ r = Punct.shiftRight.rule := by decide

/-- One angle, and no other one behind it. -/
theorem Lexer.Faces.angle (h : l.Faces d (.ordinary :: below) ('>' :: x))
    (hx : x.head? ≠ some '>') :
    ∃ l' : Lexer, l'.Faces d (.ordinary :: below) x ∧
      l.next = (.ok (some ⟨.punct .greater, ['>'], l.line⟩), l') := by
  have hstep : l.step? = some (l.read 1 Punct.greater.rule) := by
    refine Lexer.step?_of_unique (by rw [h.mode_eq]; decide) (by rw [h.rest]; rfl)
      fun r hr k hk => ?_
    rw [h.mode_eq] at hr
    rw [h.rest] at hk
    refine (rule_of_angle r hr (Pattern.canBegin_of_length? hk)).resolve_right ?_
    rintro rfl
    cases x with
    | nil => cases hk
    | cons c x =>
      refine hx (congrArg some ?_)
      refine Decidable.byContradiction fun hc => ?_
      have hone : ['>', '>'].isPrefixOf ('>' :: c :: x) = false := by
        simp [List.isPrefixOf, Ne.symm hc]
      have hlen : (if ['>', '>'].isPrefixOf ('>' :: c :: x) then some 2 else none) = some k := hk
      rw [hone] at hlen
      cases hlen
  exact Lexer.Faces.next h (List.cons_ne_nil '>' []) hstep rfl (by rintro ⟨⟩)

/-- Two angles are read as one token. -/
theorem Lexer.Faces.angles (h : l.Faces d (.ordinary :: below) ('>' :: '>' :: x)) :
    ∃ l' : Lexer, l'.Faces d (.ordinary :: below) x ∧
      l.next = (.ok (some ⟨.punct .shiftRight, ['>', '>'], l.line⟩), l') := by
  have hmatch : Rule.longestMatch l.atLineStart ('>' :: '>' :: x) (Rule.inMode .ordinary) =
      some (2, Punct.shiftRight.rule) := by
    have hmem : Punct.shiftRight.rule ∈ Rule.inMode .ordinary := by decide
    have hlen : Punct.shiftRight.rule.length? l.atLineStart ('>' :: '>' :: x) = some 2 := rfl
    cases hbest : Rule.longestMatch l.atLineStart ('>' :: '>' :: x) (Rule.inMode .ordinary) with
    | none =>
      rw [Rule.longestMatch_eq_none_iff.1 hbest _ hmem] at hlen
      cases hlen
    | some best =>
      obtain ⟨n, r⟩ := best
      obtain ⟨hr, hn⟩ := Rule.longestMatch_mem hbest
      have hle := Rule.length_le_of_longestMatch hbest hmem hlen
      rcases rule_of_angle r hr (Pattern.canBegin_of_length? hn) with rfl | rfl
      · have hone : some 1 = some n := hn
        have := Option.some.inj hone
        omega
      · rw [hlen] at hn
        rw [Option.some.inj hn]
  have hstep : l.step? = some (l.read 2 Punct.shiftRight.rule) :=
    Lexer.step?_eq_some_iff.2 ⟨2, _, by rw [h.rest, h.mode_eq, hmatch], rfl⟩
  exact Lexer.Faces.next h (List.cons_ne_nil '>' ['>']) hstep rfl (by rintro ⟨⟩)

/-! ## Words -/

theorem IsToken.exists_cons (hmode : mode ∈ Lexer.writing) (h : IsToken d mode kind cs) :
    ∃ c v, cs = c :: v ∧ isBlank c = false ∧ c ≠ '#' := by
  obtain ⟨r, hmatch, hkind⟩ := h.exists_rule
  obtain ⟨hr, hlen⟩ := Rule.longestMatch_mem hmatch
  cases readable_of_token (x := []) hmode hr (meaning_of_kind? hkind) hlen (by rintro _ ⟨⟩) with
  | plain hc => exact ⟨_, _, rfl, isBlank_of_isPlain hc, ne_of_isPlain hc rfl⟩
  | quoted hquote =>
    refine ⟨_, _, rfl, eq_false_of_mem (by decide) hquote, ?_⟩
    rintro rfl
    exact absurd hquote (by decide)

/-- The arguments of a property end with the first closing parenthesis. -/
theorem step?_of_propertyArgs (h : IsToken d .properties kind cs) (hcs : cs.head? = some '(')
    (hl : l.Faces d (.properties :: below) (cs ++ x)) :
    ∃ r, l.step? = some (l.read cs.length r) ∧ r ∈ Rule.inMode .properties ∧
      r.meaning.kind? d cs = some kind := by
  have hrules : ∀ r ∈ Rule.inMode .properties, r.pattern.canBegin '(' →
      r = ⟨.propertyArgs, .token .propertyArgs, .stay⟩ := by decide
  obtain ⟨r, hmatch, hkind⟩ := h.exists_rule
  obtain ⟨hr, hlen⟩ := Rule.longestMatch_mem hmatch
  cases cs with
  | nil => cases hcs
  | cons c v =>
    obtain rfl := Option.some.inj hcs
    obtain rfl := hrules r hr (Pattern.canBegin_of_length? hlen)
    refine ⟨_, Lexer.step?_of_unique (by rw [hl.mode_eq]; decide) ?_ fun s hs k hk => ?_, hr, hkind⟩
    · have hlen' : Pattern.propertyArgsLength? ('(' :: v) = some (v.length + 1) := hlen
      rw [hl.rest]
      show Pattern.propertyArgsLength? ('(' :: (v ++ x)) = some (v.length + 1)
      rw [← hlen']
      simp only [Pattern.propertyArgsLength?] at hlen' ⊢
      split at hlen'
      next hlt =>
        have hrun : Pattern.runLength (· != ')') (v ++ x) = Pattern.runLength (· != ')') v := by
          rw [Pattern.runLength, List.takeWhile_append,
            if_neg (show (List.takeWhile _ v).length ≠ v.length from Nat.ne_of_lt hlt)]
          rfl
        rw [hrun, if_pos hlt, if_pos (Nat.lt_of_lt_of_le hlt (by simp))]
      · cases hlen'
    · rw [hl.mode_eq] at hs
      rw [hl.rest] at hk
      exact hrules s hs (Pattern.canBegin_of_length? hk)

theorem Word.eq_of_kind {p : Punct} (hp : p ≠ .openBracket) (h : w.kind = .punct p) :
    w = .punct p := by
  cases w with
  | punct q => rw [TokenKind.punct.inj h]
  | openProperties => exact absurd (TokenKind.punct.inj h).symm hp
  | _ => cases h

/-- A token that is read alone is read in front of a blank. -/
theorem Lexer.Faces.token (hmode : mode ∈ Lexer.writing) (h : l.Faces d (mode :: below) (cs ++ x))
    (hcs : IsToken d mode kind cs) (hnative : kind ≠ .keyword .native)
    (hclose : mode = .properties → kind ≠ .punct .closeBracket) (hx : ∀ c ∈ x.head?, isBlank c) :
    ∃ l' : Lexer, l'.Faces d (mode :: below) x ∧ l.next = (.ok (some ⟨kind, cs, l.line⟩), l') := by
  have hchange : ∀ mode ∈ Lexer.writing, ∀ r ∈ Rule.inMode mode,
      r.meaning ∉ [.nothing, .pragma, .lineMarker] →
        r.change = .stay ∨ mode = .properties ∧
          r.meaning = .token (.punct .closeBracket) := by decide
  have hstep : ∃ r, l.step? = some (l.read cs.length r) ∧ r ∈ Rule.inMode mode ∧
      r.meaning.kind? d cs = some kind := by
    by_cases hparen : mode = .properties ∧ cs.head? = some '('
    · obtain ⟨rfl, hhead⟩ := hparen
      exact step?_of_propertyArgs hcs hhead h
    · rw [not_and] at hparen
      obtain ⟨r, hmatch, hkind⟩ := longestMatch_of_isToken hmode hcs hparen hx l.atLineStart
      refine ⟨r, Lexer.step?_eq_some_iff.2 ⟨_, r, ?_, rfl⟩, (Rule.longestMatch_mem hmatch).1, hkind⟩
      rw [h.rest, h.mode_eq, hmatch]
  obtain ⟨r, hstep, hr, hkind⟩ := hstep
  obtain ⟨c, v, htext, -⟩ := hcs.exists_cons hmode
  obtain ⟨l', hl', hnext⟩ := h.next (htext ▸ List.cons_ne_nil c v) hstep hkind hnative
  refine ⟨l', hl', ?_⟩
  rcases hchange mode hmode r hr (meaning_of_kind? hkind) with hstay | ⟨hproperties, hm⟩
  · rw [hnext, hstay]
    rfl
  · rw [hm] at hkind
    exact absurd (Option.some.inj hkind).symm (hclose hproperties)

/-- A word that is written with blanks behind it. -/
theorem Lexer.Faces.word (hmode : mode ∈ Lexer.writing)
    (h : l.Faces d (mode :: below) (w.text ++ x)) (hw : IsToken d mode w.kind w.text)
    (hnative : w ≠ .keyword .native) (hclose : mode = .properties → w ≠ .punct .closeBracket)
    (hx : ∀ c ∈ x.head?, isBlank c) :
    ∃ l' : Lexer, l'.Faces d (mode :: below) x ∧
      l.next = (.ok (some ⟨w.kind, w.text, l.line⟩), l') := by
  have hkeyword : w.kind ≠ .keyword .native := by
    intro heq
    cases w with
    | keyword k => exact hnative (congrArg Word.keyword (TokenKind.keyword.inj heq))
    | _ => cases heq
  exact h.token hmode hw hkeyword
    (fun hproperties heq => hclose hproperties (Word.eq_of_kind (by decide) heq)) hx

/-- Written words begin with no blank. -/
theorem Written.head (hmode : mode ∈ Lexer.writing) (h : Written d mode ws cs) :
    ∀ c ∈ cs.head?, isBlank c = false ∧ c ≠ '#' := by
  cases h with
  | nil => rintro _ ⟨⟩
  | token hw =>
    obtain ⟨c, v, htext, hc⟩ := hw.exists_cons hmode
    rw [htext]
    rintro c ⟨⟩
    exact hc
  | closing | openProperties | closeBracket =>
    rintro c ⟨⟩
    decide

/-- Behind a gap the next word has not begun. -/
theorem head?_gap (hgap : ∀ c ∈ gap, isBlank c) (hcs : gap = [] → cs = []) :
    ∀ c ∈ (gap ++ cs).head?, isBlank c := by
  cases gap with
  | nil =>
    rw [hcs rfl]
    rintro _ ⟨⟩
  | cons b gap =>
    rintro c ⟨⟩
    exact hgap b List.mem_cons_self

theorem Written.eq_nil (h : Written d mode [] cs) : cs = [] := by
  cases h
  rfl

/-- Written words that begin with an angle begin with a closing bracket, or else with a shift. -/
theorem Written.exists_closing (h : Written d .ordinary ws cs) (hcs : cs.head? = some '>')
    (hshift : ws.head? ≠ some (.punct .shiftRight)) :
    ∃ vs gap xs, ws = .closing :: vs ∧ cs = '>' :: (gap ++ xs) ∧ (∀ c ∈ gap, isBlank c) ∧
      Written d .ordinary vs xs := by
  cases h with
  | nil | openProperties => cases hcs
  | closing hgap _ hvs => exact ⟨_, _, _, rfl, rfl, hgap, hvs⟩
  | @token _ w ws gap cs hw hplain =>
    obtain ⟨r, hmatch, hkind⟩ := hw.exists_rule
    obtain ⟨hr, hlen⟩ := Rule.longestMatch_mem hmatch
    obtain ⟨c, v, htext, -⟩ := hw.exists_cons (by decide)
    rw [htext] at hcs hlen
    obtain rfl := Option.some.inj hcs
    rcases rule_of_angle r hr (Pattern.canBegin_of_length? hlen) with rfl | rfl
    · have hclosing := Word.eq_of_kind (by decide) (Option.some.inj hkind).symm
      exact absurd (by rw [hclosing]; exact List.mem_cons_self) hplain
    · exact absurd (congrArg some (Word.eq_of_kind (by decide) (Option.some.inj hkind).symm)) hshift

/-- The lexer reads the words that are written, and nothing else. -/
theorem Written.gives (h : Written d mode ws cs) (hmode : mode ∈ Lexer.writing)
    (hbelow : mode = .properties → below.head? = some .ordinary) (hgap : ∀ c ∈ gap, isBlank c)
    (hl : l.Faces d (mode :: below) (gap ++ cs)) :
    ∃ m m', l.Gives ws m ∧ m.next = (.ok none, m') := by
  induction hn : ws.length using Nat.strong_induction_on generalizing mode ws cs gap below l with
  | _ n ih =>
    subst hn
    obtain ⟨l₁, hl₁, hskip⟩ := hl.skipBlanks hmode hgap (h.head hmode)
    cases h with
    | nil =>
      refine ⟨l, l₁, .nil l, ?_⟩
      rw [hskip, Lexer.next_of_rest_eq_nil hl₁.rest]
    | @token _ w ws gap' cs hw hplain hclose hgap' hne hws =>
      have hbehind := head?_gap hgap' fun hnil => (hne hnil ▸ hws).eq_nil
      have hnative : w ≠ .keyword .native := fun h => hplain (by rw [h]; decide)
      have hproperties : w ≠ .openProperties := fun h => hplain (by rw [h]; decide)
      obtain ⟨l₂, hl₂, hnext⟩ := hl₁.word hmode hw hnative hclose hbehind
      obtain ⟨m, m', hgives, hend⟩ :=
        ih ws.length (Nat.lt_succ_self _) hws hmode hbelow hgap' hl₂ rfl
      have hoffers : Token.Offers ⟨w.kind, w.text, l₁.line⟩ l₂ ws
          (Token.word ⟨w.kind, w.text, l₁.line⟩ :: ws) l₂ := .word
      rw [Word.word_token hproperties] at hoffers
      exact ⟨m, m', .cons (hskip.trans hnext) hoffers hgives, hend⟩
    | @closing ws gap' cs hgap' hshift hws =>
      by_cases hhead : (gap' ++ cs).head? = some '>'
      · have hnil : gap' = [] := by
          cases gap' with
          | nil => rfl
          | cons b gap' =>
            have hblank := hgap' b List.mem_cons_self
            rw [Option.some.inj hhead] at hblank
            cases hblank
        subst hnil
        obtain ⟨vs, gap, xs, rfl, rfl, hgap, hvs⟩ := hws.exists_closing hhead (hshift rfl)
        obtain ⟨l₂, hl₂, hnext⟩ := hl₁.angles
        have hlt : vs.length < (Word.closing :: .closing :: vs).length :=
          Nat.lt_succ_of_lt (Nat.lt_succ_self _)
        obtain ⟨m, m', hgives, hend⟩ := ih vs.length hlt hvs hmode (by rintro ⟨⟩) hgap hl₂ rfl
        exact ⟨m, m', .cons (hskip.trans hnext) (.closings rfl) hgives, hend⟩
      · obtain ⟨l₂, hl₂, hnext⟩ := hl₁.angle hhead
        obtain ⟨m, m', hgives, hend⟩ :=
          ih ws.length (Nat.lt_succ_self _) hws hmode (by rintro ⟨⟩) hgap' hl₂ rfl
        exact ⟨m, m', .cons (hskip.trans hnext) .word hgives, hend⟩
    | @openProperties ws gap' cs hgap' hws =>
      obtain ⟨l₂, hl₂, hnext⟩ :=
        hl₁.bracket .openBracket .stay (by decide) rfl (by decide)
      have hpush : (l₂.push .properties).Faces d (.properties :: .ordinary :: below) (gap' ++ cs) :=
        ⟨hl₂.dialect, congrArg (.properties :: ·) hl₂.modes, hl₂.rest⟩
      obtain ⟨m, m', hgives, hend⟩ :=
        ih ws.length (Nat.lt_succ_self _) hws (by decide) (fun _ => rfl) hgap' hpush rfl
      exact ⟨m, m', .cons (hskip.trans hnext) (.properties rfl) hgives, hend⟩
    | @closeBracket ws gap' cs hgap' hws =>
      obtain ⟨l₂, hl₂, hnext⟩ :=
        hl₁.bracket .closeBracket .leave (by decide) rfl (by decide)
      obtain ⟨outer, rfl⟩ := List.head?_eq_some_iff.1 (hbelow rfl)
      have hpop : l₂.pop.Faces d (.ordinary :: outer) (gap' ++ cs) := by
        have hbelow₂ : l₂.below = .ordinary :: outer := (List.cons.inj hl₂.modes).2
        unfold Lexer.pop
        rw [hbelow₂]
        exact ⟨hl₂.dialect, rfl, hl₂.rest⟩
      obtain ⟨m, m', hgives, hend⟩ :=
        ih ws.length (Nat.lt_succ_self _) hws (by decide) (by rintro ⟨⟩) hgap' hpop rfl
      exact ⟨m, m', .cons (hskip.trans hnext) .word hgives, hend⟩

/-! ## Lines of words -/

/-- The words with a space behind each of them. Behind a closing bracket there is a gap instead,
    which depends on the number of words that follow. -/
def Word.spaced (gap : Nat → Text) : List Word → Text
  | [] => []
  | w :: ws => w.text ++ ((if w = .closing then gap ws.length else [' ']) ++ spaced gap ws)

/-- The words with a space behind each of them. -/
def Word.line (ws : List Word) : Text := Word.spaced (fun _ => [' ']) ws

/-- Unless the first word is a closing bracket, the second one may be a shift. -/
abbrev Word.Apart (w v : Word) : Prop := w = .closing → v ≠ .punct .shiftRight

/-- The words can be written one after the other, if the lexer begins in the first mode. Behind them
    it is in the second one. -/
inductive Writable (d : Dialect) : Mode → List Word → Mode → Prop
  | nil (mode : Mode) : Writable d mode [] mode
  | token {mode mode' : Mode} {w : Word} {ws : List Word} :
    IsToken d mode w.kind w.text → w ∉ [.closing, .openProperties, .keyword .native] →
    (mode = .properties → w ≠ .punct .closeBracket) → Writable d mode ws mode' →
    Writable d mode (w :: ws) mode'
  | closing {mode' : Mode} {ws : List Word} : Writable d .ordinary ws mode' →
    Writable d .ordinary (.closing :: ws) mode'
  | openProperties {mode' : Mode} {ws : List Word} : Writable d .properties ws mode' →
    Writable d .ordinary (.openProperties :: ws) mode'
  | closeBracket {mode' : Mode} {ws : List Word} : Writable d .ordinary ws mode' →
    Writable d .properties (.punct .closeBracket :: ws) mode'

theorem Writable.append {mode' mode'' : Mode} {us : List Word} (h : Writable d mode ws mode')
    (h' : Writable d mode' us mode'') : Writable d mode (ws ++ us) mode'' := by
  induction h with
  | nil => exact h'
  | token hw hplain hclose _ ih => exact .token hw hplain hclose (ih h')
  | closing _ ih => exact .closing (ih h')
  | openProperties _ ih => exact .openProperties (ih h')
  | closeBracket _ ih => exact .closeBracket (ih h')

theorem Writable.flatMap {α : Type} {f : α → List Word} {as : List α}
    (h : ∀ a ∈ as, Writable d mode (f a) mode) : Writable d mode (as.flatMap f) mode := by
  induction as with
  | nil => exact .nil mode
  | cons a as ih =>
    rw [List.forall_mem_cons] at h
    exact h.1.append (ih h.2)

/-- The gaps can be empty if no shift follows a closing bracket. -/
theorem Writable.spaced {mode' : Mode} {gap : Nat → Text} (h : Writable d mode ws mode')
    (hgap : ∀ k, ∀ c ∈ gap k, isBlank c) (happart : (∀ k, gap k ≠ []) ∨ ws.IsChain Word.Apart) :
    Written d mode ws (Word.spaced gap ws) := by
  have hspace : ∀ c ∈ [' '], isBlank c := List.forall_mem_singleton.2 rfl
  have htail {w : Word} {ws : List Word} (h : (∀ k, gap k ≠ []) ∨ (w :: ws).IsChain Word.Apart) :
      (∀ k, gap k ≠ []) ∨ ws.IsChain Word.Apart :=
    h.imp_right fun hchain => (List.isChain_cons.1 hchain).2
  induction h with
  | nil mode => exact .nil mode
  | token hw hplain hclose _ ih =>
    rw [Word.spaced, if_neg (by rintro rfl; exact hplain List.mem_cons_self)]
    exact .token hw hplain hclose hspace (by rintro ⟨⟩) (ih (htail happart))
  | @closing _ ws _ ih =>
    show Written d .ordinary _ ('>' :: (gap ws.length ++ Word.spaced gap ws))
    refine .closing (hgap _) (fun hnil hhead => ?_) (ih (htail happart))
    rcases happart with hne | hchain
    · exact hne _ hnil
    · exact (List.isChain_cons.1 hchain).1 _ hhead rfl rfl
  | @openProperties _ ws _ ih =>
    show Written d .ordinary _ ('[' :: ([' '] ++ Word.spaced gap ws))
    exact .openProperties hspace (ih (htail happart))
  | @closeBracket _ ws _ ih =>
    show Written d .properties _ (']' :: ([' '] ++ Word.spaced gap ws))
    exact .closeBracket hspace (ih (htail happart))

theorem Writable.written {mode' : Mode} (h : Writable d mode ws mode') :
    Written d mode ws (Word.line ws) :=
  h.spaced (fun _ => List.forall_mem_singleton.2 rfl) (.inl fun _ => by rintro ⟨⟩)

theorem isToken_punct (d : Dialect) (p : Punct) : IsToken d .ordinary (.punct p) p.text := by
  have hall : ∀ d ∈ [Dialect.omg, .web], ∀ p ∈ Punct.all, IsToken d .ordinary (.punct p)
      p.text := by
    decide +kernel
  exact hall d (by cases d <;> decide) p (Punct.mem_all p)

theorem isToken_keyword {d : Dialect} {k : Keyword} (hk : k.isIn d) :
    IsToken d .ordinary (.keyword k) k.spelling.toList := by
  have hall : ∀ d ∈ [Dialect.omg, .web], ∀ k ∈ Keyword.all, k.isIn d →
      IsToken d .ordinary (.keyword k) k.spelling.toList := by
    decide +kernel
  exact hall d (by cases d <;> decide) k (Keyword.mem_all k) hk

/-- Punctuation can be written anywhere but in property lists. -/
theorem Writable.punct {mode' : Mode} (p : Punct) (h : Writable d .ordinary ws mode') :
    Writable d .ordinary (.punct p :: ws) mode' := by
  by_cases hp : p = .greater
  · subst hp
    exact .closing h
  · refine .token (isToken_punct d p) ?_ (by rintro ⟨⟩) h
    simp [hp]

theorem Writable.keyword {mode' : Mode} {k : Keyword} (hk : k.isIn d) (hnative : k ≠ .native)
    (h : Writable d .ordinary ws mode') : Writable d .ordinary (.keyword k :: ws) mode' :=
  .token (isToken_keyword hk) (by simp [hnative]) (by rintro ⟨⟩) h

/-! ## Texts -/

/-- The stream in front of a text, with template brackets open. -/
def TokenStream.ofTextWithin (d : Dialect) (cs : Text) (n : Nat) : TokenStream :=
  { TokenStream.ofText d cs with openAngles := n }

theorem Written.at (h : Written d .ordinary ws cs) (n : Nat) :
    ∃ m m', (TokenStream.ofTextWithin d cs n).At ⟨n, ws, m⟩ ∧ m.next = (.ok none, m') := by
  have hl : (Lexer.ofText d cs).Faces d [.ordinary] ([] ++ cs) := ⟨rfl, rfl, rfl⟩
  obtain ⟨m, m', hgives, hend⟩ := h.gives (by decide) (by rintro ⟨⟩) (List.forall_mem_nil _) hl
  exact ⟨m, m', ⟨rfl, .unread rfl hgives⟩, hend⟩

end IdlFrontend
