import IdlFrontend.Proofs.Lexer.Maximal
import IdlFrontend.Proofs.Reading.Property

/-!
# Property lists as texts

Between the brackets of a property list no two words run together, so white space is needed
nowhere: behind a key, a name or a number come a bracket, a comma, an equals sign or arguments.
There, every word is an identifier, the keywords of either dialect among them. Behind the
closing bracket the lexer is in the ordinary mode again.

Results:

* `Lexer.InFrontOf.skipSpace`: white space in front of a token is skipped.
* `Lexer.InFrontOf.item`: the words between the brackets, one at a time.
* `Listed.gives`: from the text of property lists the lexer reads their words.
-/

namespace IdlFrontend

/-! ## Words -/

/-- Blanks and line breaks. -/
def IsSpace (cs : Text) : Prop := ∀ c ∈ cs, isBlank c ∨ isLineEnd c

instance (cs : Text) : Decidable (IsSpace cs) := List.decidableBAll _ cs

/-- A letter or an underscore, and behind it letters, digits and underscores. -/
def IsName : Text → Prop
  | [] => False
  | c :: cs => isWordStart c ∧ ∀ d ∈ cs, isWordPart d

instance : (cs : Text) → Decidable (IsName cs)
  | [] => instDecidableFalse
  | _ :: cs => @instDecidableAnd _ _ _ (List.decidableBAll _ cs)

/-- What can stand between two quotes: a quote and a backslash only behind a backslash. -/
inductive IsQuotable (quote : Char) : Text → Prop
  | nil : IsQuotable quote []
  | escape (c : Char) {cs : Text} : IsQuotable quote cs → IsQuotable quote ('\\' :: c :: cs)
  | plain {c : Char} {cs : Text} : c ≠ quote → c ≠ '\\' → IsQuotable quote cs →
      IsQuotable quote (c :: cs)

/-- The text is a number of the kind. -/
def IsNumber (kind : TokenKind) (text : Text) : Prop :=
  ∃ v : Numeral, v.IsProper ∧ v.kind = kind ∧ v.text = text

/-- A word that can stand between the brackets of a property list. -/
def Word.IsItem : Word → Prop
  | .identifier name => IsName name
  | .integer text => IsNumber .integer text
  | .floating text => IsNumber .floating text
  | .fixedPoint text => IsNumber .fixedPoint text
  | .character body => IsQuotable '\'' body
  | .string body => IsQuotable '"' body
  | .propertyArgs body => ')' ∉ body
  | .punct p => p = .equal ∨ p = .comma
  | _ => False

/-- Whether the word would go on with letters and digits behind it. -/
def Word.isBare : Word → Bool
  | .identifier _ | .integer _ | .floating _ | .fixedPoint _ => true
  | _ => false

/-- The words of property lists one after the other, if the lexer begins in the mode. -/
inductive Listed : Mode → List Word → Prop
  | nil : Listed .ordinary []
  | openBracket {ws : List Word} : Listed .properties ws → Listed .ordinary (.openProperties :: ws)
  | item {w : Word} {ws : List Word} : w.IsItem → (w.isBare → ∀ v ∈ ws.head?, v.isBare = false) →
    Listed .properties ws → Listed .properties (w :: ws)
  | closeBracket {ws : List Word} : Listed .ordinary ws →
      Listed .properties (.punct .closeBracket :: ws)

/-- The words with gaps around them. A gap depends on the number of words behind it. -/
def Word.laid (gap : Nat → Text) : List Word → Text
  | [] => gap 0
  | w :: ws => gap (ws.length + 1) ++ (w.text ++ laid gap ws)

variable {d : Dialect} {mode : Mode} {below modes : List Mode} {kind : TokenKind}
    {cs gap u x : Text}
  {l : Lexer} {r : Rule} {w : Word} {ws : List Word}

/-! ## Characters -/

theorem isNumeric_of_isWordStart {c : Char} (h : isWordStart c) : Pattern.isNumeric c :=
  Pattern.isNumeric_of_isWordPart c (Pattern.isWordPart_of_isWordStart h)

theorem isNumeric_of_isDigit {c : Char} (h : c.isDigit) : Pattern.isNumeric c :=
  Pattern.isNumeric_of_isWordPart c (Pattern.isWordPart_of_isDigit h)

namespace Numeral

theorem isNumeric_of_isDigits {digits : Text} (h : ∀ c ∈ digits, c.isDigit) :
    ∀ c ∈ digits, Pattern.isNumeric c :=
  fun c hc => isNumeric_of_isDigit (h c hc)

/-- Numerals consist of letters, digits, points and minus signs. -/
theorem isNumeric_of_mem_text {v : Numeral} (hv : v.IsProper) :
    ∀ c ∈ v.text, Pattern.isNumeric c := by
  cases v with
  | octal digits => exact List.forall_mem_cons.2 ⟨rfl, isNumeric_of_isDigits hv.2⟩
  | hexadecimal letter digits =>
    obtain ⟨hletter, -, hdigits⟩ := hv
    refine List.forall_mem_cons.2 ⟨rfl, List.forall_mem_cons.2 ⟨?_, fun c hc => ?_⟩⟩
    · rcases hletter with rfl | rfl <;> rfl
    · exact Pattern.isNumeric_of_isWordPart c (Pattern.isWordPart_of_isHexDigit (hdigits c hc))
  | decimal whole fraction exponent suffix =>
    obtain ⟨hwhole, -, hfraction, hexponent, hsuffix⟩ := hv
    simp only [text, List.forall_mem_append]
    refine ⟨⟨⟨isNumeric_of_isDigits hwhole.1, ?_⟩, ?_⟩, fun c hc => ?_⟩
    · cases fraction with
      | none => exact List.forall_mem_nil _
      | some digits =>
        exact List.forall_mem_cons.2 ⟨rfl, isNumeric_of_isDigits (hfraction digits rfl).2⟩
    · cases exponent with
      | none => exact List.forall_mem_nil _
      | some e =>
        obtain ⟨hletter, -, hdigits⟩ := hexponent e rfl
        refine List.forall_mem_cons.2 ⟨?_, List.forall_mem_append.2 ⟨?_,
          isNumeric_of_isDigits hdigits⟩⟩
        · rcases hletter with h | h <;> rw [h] <;> rfl
        · unfold Exponent.sign
          split
          · exact List.forall_mem_singleton.2 rfl
          · exact List.forall_mem_nil _
    · rcases hsuffix c (Option.mem_toList.1 hc) with rfl | rfl <;> rfl

theorem beginsNumeral {v : Numeral} (hv : v.IsProper) (x : Text) :
    Lexer.BeginsNumeral (v.text ++ x) := by
  cases v with
  | octal | hexadecimal => exact ⟨'0', _, rfl, .inl rfl⟩
  | decimal whole fraction exponent suffix =>
    obtain ⟨hwhole, hmissing, hfraction, -⟩ := hv
    cases whole with
    | cons c cs => exact ⟨c, _, rfl, .inl (hwhole.1 c List.mem_cons_self)⟩
    | nil =>
      obtain ⟨digits, rfl⟩ := Option.isSome_iff_exists.1 (hmissing rfl)
      obtain ⟨hne, hdigits⟩ := hfraction digits rfl
      obtain ⟨c, cs, rfl⟩ := List.exists_cons_of_ne_nil hne
      exact ⟨'.', _, rfl, .inr ⟨rfl, c, rfl, hdigits c List.mem_cons_self⟩⟩

theorem text_ne_nil {v : Numeral} (hv : v.IsProper) : v.text ≠ [] := by
  obtain ⟨c, rest, htext, -⟩ := beginsNumeral hv []
  rw [List.append_nil] at htext
  rw [htext]
  exact List.cons_ne_nil c rest

/-- A numeral does not reach beyond a character that no numeral has. -/
theorem eq_of_isLongest {v v' : Numeral} (hv : v.IsProper)
    (hx : ∀ c ∈ x.head?, Pattern.isNumeric c = false) (h : v'.IsLongest (v.text ++ x)) :
    v' = v := by
  have hle : v'.text.length ≤ v.text.length := by
    rcases List.prefix_or_prefix_of_prefix h.isPrefix
      (List.prefix_append v.text x) with hpre | ⟨y, hy⟩
    · exact hpre.length_le
    · have hyx : y <+: x := (List.prefix_append_right_inj v.text).1 (hy ▸ h.isPrefix)
      cases y with
      | nil => exact Nat.le_of_eq (by rw [← hy, List.append_nil])
      | cons c y =>
        obtain ⟨z, rfl⟩ := hyx
        have hnumeric :=
          isNumeric_of_mem_text h.isProper c (hy ▸ List.mem_append_right _ List.mem_cons_self)
        rw [hx c rfl] at hnumeric
        cases hnumeric
  rcases h.longest v hv (List.prefix_append v.text x) with heq | hlt
  · exact heq.symm
  · omega

end Numeral

namespace Lexer

/-! ## Steps -/

/-- The lexer stands in front of the text, with the modes that it is in, and has met no pragma. -/
structure InFrontOf (d : Dialect) (modes : List Mode) (cs : Text) (l : Lexer) : Prop extends
    l.Faces d modes cs where
  pragmas : l.pragmas = []

theorem InFrontOf.skip (h : l.InFrontOf d modes (u ++ x)) :
    (l.skip u.length).InFrontOf d modes x := by
  refine ⟨⟨h.dialect, h.modes, ?_⟩, h.pragmas⟩
  show l.rest.drop u.length = x
  rw [h.rest, List.drop_left]

/-- A stretch that is no token. -/
theorem InFrontOf.skipStep (h : l.InFrontOf d modes (u ++ x)) (hu : u ≠ [])
    (hstep : l.step? = some (l.read u.length r)) (hm : r.meaning = .nothing)
    (hstay : r.change = .stay) :
    l.next = (l.skip u.length).next := by
  have hrest : l.rest ≠ [] := by
    rw [h.rest]
    exact List.append_ne_nil_of_left_ne_nil hu x
  have hread : l.read u.length r = ⟨l.rest.take u.length, r, none, l.skip u.length⟩ := by
    unfold read
    simp only [hm, hstay, Meaning.kind?, note]
    rfl
  rw [next_of_step hrest hstep, hread]

/-- A stretch that is a token. -/
theorem InFrontOf.tokenStep (h : l.InFrontOf d modes (u ++ x)) (hu : u ≠ [])
    (hstep : l.step? = some (l.read u.length r)) (hkind : r.meaning.kind? d u = some kind)
    (hnative : kind ≠ .keyword .native) :
    l.next = (.ok (some ⟨kind, u, l.line⟩), (l.skip u.length).change r.change) := by
  have hrest : l.rest ≠ [] := by
    rw [h.rest]
    exact List.append_ne_nil_of_left_ne_nil hu x
  have htake : l.rest.take u.length = u := by rw [h.rest, List.take_left]
  have hread :=
    read_eq_of_kind? (l := l) (n := u.length) (by rw [htake, h.dialect]; exact hkind) hnative
  rw [next_of_step hrest hstep, hread, htake]

/-- A rule that is the only one to begin with the first character of the text. -/
theorem InFrontOf.step?_of_unique {c : Char} {n : Nat} (h : l.InFrontOf d (mode :: below) (c :: cs))
    (hr : r ∈ Rule.inMode mode) (hlen : r.length? l.atLineStart (c :: cs) = some n)
    (hunique : ∀ s ∈ Rule.inMode mode, s.pattern.canBegin c → s = r) :
    l.step? = some (l.read n r) := by
  refine Lexer.step?_of_unique (by rw [h.mode_eq]; exact hr) (by rw [h.rest]; exact hlen)
    fun s hs k hk => ?_
  rw [h.mode_eq] at hs
  rw [h.rest] at hk
  exact hunique s hs (Pattern.canBegin_of_length? hk)

/-! ## White space -/

/-- White space is read in stretches, a run of blanks or a line break at a time. -/
theorem InFrontOf.exists_spaceStep (hmode : mode ∈ writing)
    (h : l.InFrontOf d (mode :: below) (gap ++ cs)) (hgap : IsSpace gap)
    (hne : gap ≠ [])
    (hcs : ∀ c ∈ cs.head?, isBlank c = false ∧ isLineEnd c = false ∧ c ≠ '#') :
    ∃ n r, 0 < n ∧ n ≤ gap.length ∧ l.step? = some (l.read n r) ∧ r.meaning = .nothing ∧
      r.change = .stay := by
  obtain ⟨c, gap, rfl⟩ := List.exists_cons_of_ne_nil hne
  have hblanks : ∀ mode ∈ writing, ⟨.blanks, .nothing, .stay⟩ ∈ Rule.inMode mode := by decide
  have hbreak : ∀ mode ∈ writing, ⟨.lineBreak, .nothing, .stay⟩ ∈ Rule.inMode mode := by decide
  have hfeed : ∀ mode ∈ writing, ∀ r ∈ Rule.inMode mode, r.pattern.canBegin '\n' →
      r = ⟨.lineBreak, .nothing, .stay⟩ := by decide
  have hreturn : ∀ mode ∈ writing, ∀ r ∈ Rule.inMode mode, r.pattern.canBegin '\r' →
      r = ⟨.lineBreak, .nothing, .stay⟩ := by decide
  by_cases hc : isBlank c
  · have hrun : Pattern.runLength isBlank (c :: gap ++ cs) = Pattern.runLength isBlank (c :: gap) :=
      Pattern.runLength_append (fun c hc => (hcs c hc).1) _
    have hpos : 0 < Pattern.runLength isBlank (c :: gap) := by
      rw [Pattern.runLength_cons, if_pos hc]
      exact Nat.succ_pos _
    refine ⟨_, ⟨.blanks, .nothing, .stay⟩, hpos, Pattern.runLength_le _ _, ?_, rfl, rfl⟩
    refine Lexer.step?_of_unique (by rw [h.mode_eq]; exact hblanks mode hmode) ?_
      fun s hs k hk => ?_
    · rw [h.rest]
      exact Pattern.nonzero_eq_some.2 ⟨hrun, hpos⟩
    · rw [h.mode_eq] at hs
      rw [h.rest] at hk
      refine (rule_of_isBlank hc mode hmode s hs (Pattern.canBegin_of_length? hk)).resolve_right
        fun hp => ?_
      -- No number sign stands behind the blanks.
      have hsign := (Pattern.lineStart_of_length? hp hk).2
      rw [List.dropWhile_append] at hsign
      split at hsign
      next =>
        cases cs with
        | nil => cases hsign
        | cons e cs =>
          obtain ⟨he, -, hne⟩ := hcs e rfl
          rw [List.dropWhile_cons_of_neg (by rw [he]; decide)] at hsign
          exact hne (Option.some.inj hsign)
      next hrest =>
        rw [List.head?_append_of_ne_nil _ (by simpa using hrest)] at hsign
        have hmem := (List.dropWhile_suffix isBlank).subset (List.mem_of_mem_head? hsign)
        exact absurd (hgap '#' hmem) (by decide)
  · have hend : isLineEnd c := (hgap c List.mem_cons_self).resolve_left hc
    have hunique : ∀ r ∈ Rule.inMode mode, r.pattern.canBegin c →
        r = ⟨.lineBreak, .nothing, .stay⟩ := by
      rcases (by simpa [isLineEnd] using hend : c = '\n' ∨ c = '\r') with rfl | rfl
      · exact hfeed mode hmode
      · exact hreturn mode hmode
    have hle : Pattern.lineBreakLength (c :: gap ++ cs) ≤ (c :: gap).length := by
      refine Nat.le_trans (Pattern.lineBreakLength_le_runLength _) ?_
      rw [Pattern.runLength_append fun c hc => (hcs c hc).2.1]
      exact Pattern.runLength_le _ _
    have hpos : 0 < Pattern.lineBreakLength (c :: gap ++ cs) := by
      rw [List.cons_append]
      unfold Pattern.lineBreakLength
      split
      · exact Nat.succ_pos _
      next heq =>
        obtain ⟨rfl, -⟩ := List.cons.inj heq
        rw [if_pos hend]
        exact Nat.succ_pos _
      next heq => cases heq
    refine ⟨_, ⟨.lineBreak, .nothing, .stay⟩, hpos, hle, ?_, rfl, rfl⟩
    exact h.step?_of_unique (hbreak mode hmode) (Pattern.nonzero_eq_some.2 ⟨rfl, hpos⟩) hunique

/-- White space in front of a token is skipped. -/
theorem InFrontOf.skipSpace (hmode : mode ∈ writing) (h : l.InFrontOf d (mode :: below) (gap ++ cs))
    (hgap : IsSpace gap) (hcs : ∀ c ∈ cs.head?, isBlank c = false ∧ isLineEnd c = false ∧ c ≠ '#') :
    ∃ m : Lexer, m.InFrontOf d (mode :: below) cs ∧ l.next = m.next := by
  induction hlen : gap.length using Nat.strongRecOn generalizing gap l with
  | ind len ih =>
  subst hlen
  by_cases hne : gap = []
  · subst hne
    exact ⟨l, h, rfl⟩
  · obtain ⟨n, r, hpos, hle, hstep, hm, hstay⟩ := h.exists_spaceStep hmode hgap hne hcs
    have hsplit : gap ++ cs = gap.take n ++ (gap.drop n ++ cs) := by
      rw [← List.append_assoc, List.take_append_drop]
    have htake : (gap.take n).length = n := List.length_take_of_le hle
    rw [hsplit] at h
    have hskip := h.skip
    rw [htake] at hskip
    have hnext :=
      h.skipStep (List.ne_nil_of_length_pos (by omega)) (by rw [htake]; exact hstep) hm hstay
    rw [htake] at hnext
    obtain ⟨m, hm, heq⟩ := ih (gap.drop n).length (by rw [List.length_drop]; omega) hskip
      (fun c hc => hgap c (List.mem_of_mem_drop hc)) rfl
    exact ⟨m, hm, hnext.trans heq⟩

/-! ## Items -/

/-- A word that no letters or digits follow. -/
theorem InFrontOf.word (h : l.InFrontOf d (mode :: below) (u ++ x)) (hu : IsName u)
    (hx : ∀ c ∈ x.head?, isWordPart c = false) (hr : r ∈ Rule.inMode mode) (hp : r.pattern = .word)
    (hrules : ∀ s ∈ Rule.inMode mode, s.pattern.avoidsWords ∧ (s.pattern = .word → s = r))
    (hkind : r.meaning.kind? d u = some kind) (hnative : kind ≠ .keyword .native) :
    l.next = (.ok (some ⟨kind, u, l.line⟩), (l.skip u.length).change r.change) := by
  cases u with
  | nil => exact hu.elim
  | cons c u =>
    obtain ⟨hstart, hpart⟩ := hu
    have hlen : r.length? l.atLineStart (c :: u ++ x) = some (c :: u).length := by
      rw [Rule.length?, hp, List.cons_append]
      show Pattern.wordLength? (c :: (u ++ x)) = _
      rw [Pattern.wordLength?, if_pos hstart, (Pattern.munches_runLength hpart).eq x hx]
      rfl
    have hstep := h.step?_of_unique hr hlen fun s hs hbegin =>
      (hrules s hs).2 (Pattern.eq_word_of_canBegin (hrules s hs).1 hstart hbegin)
    exact h.tokenStep (List.cons_ne_nil c u) hstep hkind hnative

theorem isWordPart_of_isNumeric {c : Char} (h : Pattern.isNumeric c = false) :
    isWordPart c = false := by
  rw [Pattern.isNumeric, Bool.or_eq_false_iff, Bool.or_eq_false_iff] at h
  exact h.1.1

theorem InFrontOf.number (hmode : mode ∈ writing) (h : l.InFrontOf d (mode :: below) (u ++ x))
    (hu : IsNumber kind u) (hx : ∀ c ∈ x.head?, Pattern.isNumeric c = false) :
    l.next = (.ok (some ⟨kind, u, l.line⟩), l.skip u.length) := by
  obtain ⟨v, hv, rfl, rfl⟩ := hu
  have hbegins : BeginsNumeral l.rest := by
    rw [h.rest]
    exact Numeral.beginsNumeral hv x
  obtain ⟨v', hlongest, hstep⟩ := exists_step?_of_numeral (by rw [h.mode_eq]; exact hmode) hbegins
  rw [h.rest] at hlongest
  obtain rfl := Numeral.eq_of_isLongest hv hx hlongest
  have hnext :=
    h.tokenStep (Numeral.text_ne_nil hv) hstep (Numeral.kind?_text hv d) v'.kind_ne_native
  rw [v'.change_rule] at hnext
  exact hnext

theorem quotedLength?_of_isQuotable {quote : Char} (hquote : quote ≠ '\\') (h : IsQuotable quote cs)
    (x : Text) :
    Pattern.quotedLength? quote (cs ++ quote :: x) = some (cs.length + 1) := by
  induction h with
  | nil =>
    rw [List.nil_append, Pattern.quotedLength?_cons hquote, if_pos (beq_self_eq_true quote)]
    rfl
  | escape c _ ih =>
    show (Pattern.quotedLength? quote (_ ++ quote :: x)).map (· + 2) = _
    rw [ih]
    rfl
  | plain hne hc _ ih =>
    rw [List.cons_append, Pattern.quotedLength?_cons hc, if_neg (by simpa using hne), ih]
    rfl

/-- A quoted literal, and its quotes. -/
theorem InFrontOf.quoted {quote : Char} (hquote : quote ∈ ['\'', '"'])
    (h : l.InFrontOf d (.properties :: below) (quote :: (u ++ [quote]) ++ x))
    (hu : IsQuotable quote u) (hr : r ∈ Rule.inMode .properties)
    (hunique : ∀ s ∈ Rule.inMode .properties, s.pattern.canBegin quote → s = r)
    (hp : r.pattern = .quoted quote) (hm : r.meaning = .token kind) (hstay : r.change = .stay)
    (hnative : kind ≠ .keyword .native) :
    l.next = (.ok (some ⟨kind, quote :: (u ++ [quote]), l.line⟩),
      l.skip (quote :: (u ++ [quote])).length) := by
  have hescape : quote ≠ '\\' := by
    rintro rfl
    exact absurd hquote (by decide)
  have hlen : r.length? l.atLineStart (quote :: (u ++ [quote]) ++ x) =
      some (quote :: (u ++ [quote])).length := by
    rw [Rule.length?, hp, List.cons_append, List.append_assoc]
    simp only [Pattern.length?, beq_self_eq_true, if_true, List.singleton_append]
    rw [quotedLength?_of_isQuotable hescape hu]
    simp
  have hstep := h.step?_of_unique hr hlen hunique
  rw [h.tokenStep (List.cons_ne_nil _ _) hstep (by rw [hm]; rfl) hnative, hstay]
  rfl

/-- Arguments end with the first closing parenthesis. -/
theorem InFrontOf.args (h : l.InFrontOf d (.properties :: below) ('(' :: (u ++ [')']) ++ x))
    (hu : ')' ∉ u) :
    l.next = (.ok (some ⟨.propertyArgs, '(' :: (u ++ [')']), l.line⟩),
      l.skip ('(' :: (u ++ [')'])).length) := by
  have hlen : Pattern.propertyArgsLength? ('(' :: (u ++ [')']) ++ x) =
      some ('(' :: (u ++ [')'])).length := by
    refine Pattern.propertyArgsLength?_eq_some_iff.2 ⟨u, x, ?_, hu, ?_⟩
    · rw [List.cons_append, List.append_assoc, List.singleton_append]
    · simp
  have hstep :=
    h.step?_of_unique (r := ⟨.propertyArgs, .token .propertyArgs, .stay⟩) (by decide) hlen
      (by decide)
  exact h.tokenStep (List.cons_ne_nil _ _) hstep rfl (by rintro ⟨⟩)

/-- A mark of one character that no other rule begins with. -/
theorem InFrontOf.mark {c : Char} (p : Punct) (change : ModeChange)
    (h : l.InFrontOf d (mode :: below) ([c] ++ x)) (hr : p.rule change ∈ Rule.inMode mode)
    (hp : p.spelling = (c, []))
    (hunique : ∀ r ∈ Rule.inMode mode, r.pattern.canBegin c → r = p.rule change) :
    l.next = (.ok (some ⟨.punct p, [c], l.line⟩), (l.skip 1).change change) := by
  have hlen : (p.rule change).length? l.atLineStart ([c] ++ x) = some 1 := by
    rw [Punct.rule, hp]
    simp [Rule.length?, Pattern.length?]
  exact h.tokenStep (List.cons_ne_nil c []) (h.step?_of_unique hr hlen hunique) rfl (by rintro ⟨⟩)

/-- The words between the brackets, one at a time. -/
theorem InFrontOf.item (h : l.InFrontOf d (.properties :: below) (w.text ++ x)) (hw : w.IsItem)
    (hx : w.isBare → ∀ c ∈ x.head?, Pattern.isNumeric c = false) :
    l.next = (.ok (some ⟨w.kind, w.text, l.line⟩), l.skip w.text.length) := by
  cases w with
  | identifier name =>
    exact h.word (r := ⟨.word, .token .identifier, .stay⟩) hw (fun c hc => isWordPart_of_isNumeric
      (hx rfl c hc)) (by decide) rfl (by decide) rfl (by rintro ⟨⟩)
  | integer text | floating text | fixedPoint text => exact h.number (by decide) hw (hx rfl)
  | character body =>
    exact h.quoted (r := ⟨.quoted '\'', .token .character, .stay⟩) (by decide) hw (by decide)
      (by decide)
      rfl rfl rfl (by rintro ⟨⟩)
  | string body =>
    exact h.quoted (r := ⟨.quoted '"', .token .string, .stay⟩) (by decide) hw (by decide)
      (by decide)
      rfl rfl rfl (by rintro ⟨⟩)
  | propertyArgs body => exact h.args hw
  | punct p =>
    rcases hw with rfl | rfl
    · exact h.mark .equal .stay (by decide) rfl (by decide)
    · exact h.mark .comma .stay (by decide) rfl (by decide)
  | keyword | nativeType | fragment | openProperties => exact hw.elim

end Lexer

/-! ## Lists -/

/-- The first character of a word that is no space, and that no name or number goes on with
    unless the word is bare. -/
structure Word.Begins (w : Word) (c : Char) : Prop where
  not_blank : isBlank c = false
  not_lineEnd : isLineEnd c = false
  ne_sign : c ≠ '#'
  not_numeric : w.isBare = false → Pattern.isNumeric c = false

theorem Word.begins_of_isNumeric {c : Char} (hw : w.isBare) (hc : Pattern.isNumeric c) :
    w.Begins c := by
  have hplain := Pattern.isPlain_of_isNumeric hc
  refine ⟨isBlank_of_isPlain hplain, isLineEnd_of_isPlain hplain, ne_of_isPlain hplain rfl,
    fun h => ?_⟩
  rw [hw] at h
  cases h

theorem Word.IsItem.exists_begins (hw : w.IsItem) : ∃ c cs, w.text = c :: cs ∧ w.Begins c := by
  have hnumber {kind : TokenKind} {text : Text} (h : IsNumber kind text) :
      ∃ c cs, text = c :: cs ∧ Pattern.isNumeric c := by
    obtain ⟨v, hv, -, rfl⟩ := h
    obtain ⟨c, cs, htext, -⟩ := Numeral.beginsNumeral hv []
    rw [List.append_nil] at htext
    exact ⟨c, cs, htext, Numeral.isNumeric_of_mem_text hv c (htext ▸ List.mem_cons_self)⟩
  cases w with
  | identifier name =>
    cases name with
    | nil => exact hw.elim
    | cons c cs => exact ⟨c, cs, rfl, Word.begins_of_isNumeric rfl (isNumeric_of_isWordStart hw.1)⟩
  | integer text | floating text | fixedPoint text =>
    obtain ⟨c, cs, htext, hc⟩ := hnumber hw
    exact ⟨c, cs, htext, Word.begins_of_isNumeric rfl hc⟩
  | character | string | propertyArgs => exact ⟨_, _, rfl, rfl, rfl, by decide, fun _ => rfl⟩
  | punct p => rcases hw with rfl | rfl <;> exact ⟨_, _, rfl, rfl, rfl, by decide, fun _ => rfl⟩
  | keyword | nativeType | fragment | openProperties => exact hw.elim

theorem Listed.exists_begins (h : Listed mode (w :: ws)) :
    ∃ c cs, w.text = c :: cs ∧ w.Begins c := by
  cases h with
  | item hw => exact hw.exists_begins
  | openBracket | closeBracket => exact ⟨_, _, rfl, rfl, rfl, by decide, fun _ => rfl⟩

variable {gaps : Nat → Text}

/-- What stands behind a name or a number does not go on with it. -/
theorem Listed.not_numeric_head (hgaps : ∀ k, IsSpace (gaps k)) (h : Listed .properties ws)
    (hbare : ∀ v ∈ ws.head?, v.isBare = false) (x : Text) :
    ∀ c ∈ (Word.laid gaps ws ++ x).head?, Pattern.isNumeric c = false := by
  obtain ⟨v, vs, rfl⟩ : ∃ v vs, ws = v :: vs := by cases h <;> exact ⟨_, _, rfl⟩
  have hspace {c : Char} (hc : isBlank c ∨ isLineEnd c) : Pattern.isNumeric c = false := by
    rcases hc with hc | hc
    · rcases eq_of_isBlank hc with rfl | rfl | rfl | rfl <;> rfl
    · rcases (by simpa [isLineEnd] using hc : c = '\n' ∨ c = '\r') with rfl | rfl <;> rfl
  obtain ⟨e, es, htext, he⟩ := h.exists_begins
  intro c hc
  rw [Word.laid, htext] at hc
  cases hgap : gaps (vs.length + 1) with
  | nil =>
    rw [hgap] at hc
    obtain rfl : e = c := Option.some.inj hc
    exact he.not_numeric (hbare v rfl)
  | cons b bs =>
    rw [hgap] at hc
    obtain rfl : b = c := Option.some.inj hc
    exact hspace (hgaps (vs.length + 1) b (hgap ▸ List.mem_cons_self))

/-- The modes that the lexer is in. It reads property lists in front of declarations in the mode
    below. -/
def Mode.stack (outer : List Mode) : Mode → List Mode
  | .properties => .properties :: .ordinary :: outer
  | mode => mode :: outer

/-- In front of a word, the white space is skipped. -/
theorem Listed.skipSpace (hmode : mode ∈ Lexer.writing) (h : Listed mode (w :: ws))
    (hgaps : ∀ k, IsSpace (gaps k))
    (hl : l.InFrontOf d (mode :: below) (Word.laid gaps (w :: ws) ++ x)) :
    ∃ m : Lexer, m.InFrontOf d (mode :: below) (w.text ++ (Word.laid gaps ws ++ x)) ∧
      l.next = m.next := by
  rw [Word.laid, List.append_assoc, List.append_assoc] at hl
  refine hl.skipSpace hmode (hgaps _) fun c hc => ?_
  obtain ⟨e, es, htext, he⟩ := h.exists_begins
  rw [htext] at hc
  obtain rfl : e = c := Option.some.inj hc
  exact ⟨he.not_blank, he.not_lineEnd, he.ne_sign⟩

/-- A token that is written as the word stands for it. -/
theorem Token.offers_word (hne : w ≠ .openProperties) (line : UInt64) (m : Lexer) (us : List Word) :
    Token.Offers ⟨w.kind, w.text, line⟩ m us (w :: us) m := by
  have hword : Token.Offers ⟨w.kind, w.text, line⟩ m us (Token.word ⟨w.kind, w.text, line⟩ :: us)
      m := .word
  rwa [Word.word_token hne] at hword

/-- From the text of property lists the lexer reads their words, and then it is in the mode
    below. -/
theorem Listed.gives {outer : List Mode} (h : Listed mode ws) (hgaps : ∀ k, IsSpace (gaps k))
    (hl : l.InFrontOf d (mode.stack outer) (Word.laid gaps ws ++ x)) :
    ∃ m : Lexer, m.InFrontOf d (.ordinary :: outer) (gaps 0 ++ x) ∧ l.Gives ws m := by
  induction h generalizing l with
  | nil => exact ⟨l, hl, .nil l⟩
  | @openBracket ws hws ih =>
    obtain ⟨m, hm, hskip⟩ := Listed.skipSpace (by decide) (.openBracket hws) hgaps hl
    have hnext := hm.mark .openBracket .stay (by decide) rfl (by decide)
    obtain ⟨m', hm', hgives⟩ := ih (l := (m.skip 1).push .properties)
      ⟨⟨hm.skip.dialect, congrArg (.properties :: ·) hm.skip.modes, hm.skip.rest⟩, hm.skip.pragmas⟩
    exact ⟨m', hm', .cons (hskip.trans hnext) (.properties rfl) hgives⟩
  | @item w ws hw hbare hws ih =>
    obtain ⟨m, hm, hskip⟩ := Listed.skipSpace (by decide) (.item hw hbare hws) hgaps hl
    have hnext := hm.item hw fun h => hws.not_numeric_head hgaps (hbare h) x
    obtain ⟨m', hm', hgives⟩ := ih (l := m.skip w.text.length) hm.skip
    have hne : w ≠ .openProperties := by
      rintro rfl
      exact hw
    exact ⟨m', hm', .cons (hskip.trans hnext) (Token.offers_word hne _ _ _) hgives⟩
  | @closeBracket ws hws ih =>
    obtain ⟨m, hm, hskip⟩ := Listed.skipSpace (by decide) (.closeBracket hws) hgaps hl
    have hnext := hm.mark .closeBracket .leave (by decide) rfl (by decide)
    have hpop : (m.skip 1).pop.InFrontOf d (.ordinary :: outer) (Word.laid gaps ws ++ x) := by
      have hbelow : (m.skip 1).below = .ordinary :: outer := (List.cons.inj hm.skip.modes).2
      unfold Lexer.pop
      rw [hbelow]
      exact ⟨⟨hm.skip.dialect, rfl, hm.skip.rest⟩, hm.skip.pragmas⟩
    obtain ⟨m', hm', hgives⟩ := ih (l := (m.skip 1).pop) hpop
    exact ⟨m', hm', .cons (hskip.trans hnext) .word hgives⟩

end IdlFrontend
