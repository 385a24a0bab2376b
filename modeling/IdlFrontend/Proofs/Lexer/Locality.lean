import IdlFrontend.Proofs.Lexer.FirstChar
import IdlFrontend.Proofs.Lexer.LineFeeds

/-!
# Matches and what follows them

In the ordinary mode, no pattern looks further than the characters it matches and the
one behind them. So what is matched at the start of a text does not depend on what
stands behind the text, as long as that begins with a blank, a line break or a comment
and no literal is left open.

Results:

* `decimalLength?_append`, `quotedLength?_append`: the same for single patterns.
* `Rule.longestMatch_append`: the longest match in a text is the longest match in the
  text alone.
-/

namespace IdlFrontend

/-- The characters that blanks, line breaks and comments begin with. -/
def boundary : Text := [' ', '\t', '\x0b', '\x0c', '\n', '\r', '/']

/-- A text that is empty, or begins with blanks, a line break or a comment. -/
def Ends (cs : Text) : Prop := ∀ c ∈ cs.head?, c ∈ boundary

/-- The characters of the fixed marks. -/
def marks : List Char :=
  ['.', ':', ';', ',', '{', '}', '(', ')', '[', ']', '<', '>', '=', '?', '|', '^', '&', '+', '-',
    '*', '/', '%', '~']

/-- A character of tokens other than quoted literals. -/
def isPlain (c : Char) : Bool := isWordPart c || c ∈ marks

/-- Whether a text begins with the opening mark of a comment. -/
def opensComment : Text → Bool
  | '/' :: c :: _ => c == '/' || c == '*'
  | _ => false

theorem opensComment_of_ne {c : Char} (h : c ≠ '/') (cs : Text) :
    opensComment (c :: cs) = false := by
  unfold opensComment
  split
  next heq => exact absurd (List.cons.inj heq).1 h
  · rfl

theorem ends_nil : Ends [] := fun _ h => by cases h

/-- What a check of all characters of a list says about one of them. -/
theorem eq_false_of_mem {p : Char → Bool} {cs : List Char} (h : cs.all (!p ·)) {c : Char}
    (hc : c ∈ cs) : p c = false := by
  rw [← Bool.not_eq_true']
  exact List.all_eq_true.1 h c hc

theorem Ends.head?_eq_false {x : Text} (h : Ends x) {p : Char → Bool}
    (hp : boundary.all (!p ·)) : ∀ c ∈ x.head?, p c = false :=
  fun c hc => eq_false_of_mem hp (h c hc)

/-- What holds of the empty text and of every text that begins at a boundary. -/
@[elab_as_elim]
theorem Ends.elim {motive : Text → Prop} {x : Text} (h : Ends x) (nil : motive [])
    (cons : ∀ c ∈ boundary, ∀ cs, motive (c :: cs)) : motive x := by
  cases x with
  | nil => exact nil
  | cons c cs => exact cons c (h c rfl) cs

theorem ne_of_isPlain {c d : Char} (h : isPlain c) (hd : isPlain d = false) : c ≠ d := by
  rintro rfl
  rw [hd] at h
  cases h

theorem isBlank_of_isPlain {c : Char} (h : isPlain c) : isBlank c = false := by
  simp only [isBlank, Bool.or_eq_false_iff, beq_eq_false_iff_ne]
  exact ⟨⟨⟨ne_of_isPlain h rfl, ne_of_isPlain h rfl⟩, ne_of_isPlain h rfl⟩, ne_of_isPlain h rfl⟩

theorem isLineEnd_of_isPlain {c : Char} (h : isPlain c) : isLineEnd c = false := by
  simp only [isLineEnd, Bool.or_eq_false_iff, beq_eq_false_iff_ne]
  exact ⟨ne_of_isPlain h rfl, ne_of_isPlain h rfl⟩

namespace Pattern

variable {x : Text}

/-! ## Numbers and words -/

theorem takeWhile_append {p : Char → Bool} (h : ∀ c ∈ x.head?, p c = false) (w : Text) :
    (w ++ x).takeWhile p = w.takeWhile p := by
  induction w with
  | nil =>
    cases x with
    | nil => rfl
    | cons c x => rw [List.nil_append, List.takeWhile_cons, h c rfl]; rfl
  | cons c w ih => rw [List.cons_append, List.takeWhile_cons, List.takeWhile_cons, ih]

theorem runLength_append {p : Char → Bool} (h : ∀ c ∈ x.head?, p c = false) (w : Text) :
    runLength p (w ++ x) = runLength p w := by
  rw [runLength, takeWhile_append h, runLength]

theorem integerLength_append (hx : Ends x) (w : Text) :
    integerLength (w ++ x) = integerLength w := by
  cases w with
  | nil => exact hx.elim rfl (by simp [boundary, integerLength])
  | cons c w =>
    rw [List.cons_append, integerLength, integerLength,
      runLength_append (hx.head?_eq_false (by decide))]

theorem fractionLength_append (hx : Ends x) (w : Text) :
    fractionLength (w ++ x) = fractionLength w := by
  cases w with
  | nil => exact hx.elim rfl (by simp [boundary, fractionLength])
  | cons c w =>
    by_cases hc : c = '.'
    · subst hc
      rw [List.cons_append, fractionLength, fractionLength,
        runLength_append (hx.head?_eq_false (by decide))]
    · rw [List.cons_append, fractionLength.eq_2 _ fun cs h => hc (List.cons.inj h).1,
        fractionLength.eq_2 _ fun cs h => hc (List.cons.inj h).1]

theorem exponentLength_append (hx : Ends x) (w : Text) :
    exponentLength (w ++ x) = exponentLength w := by
  cases w with
  | nil => exact hx.elim rfl (by simp [boundary, exponentLength])
  | cons e w =>
    have hsign : ((w ++ x).head? == some '-') = (w.head? == some '-') := by
      cases w with
      | nil => exact hx.elim rfl (by simp [boundary])
      | cons c w => rfl
    have hdrop : (w ++ x).drop (if w.head? == some '-' then 1 else 0) =
        w.drop (if w.head? == some '-' then 1 else 0) ++ x := by
      refine List.drop_append_of_le_length ?_
      cases w with
      | nil => exact Nat.le_refl 0
      | cons c w =>
        rw [List.length_cons]
        split <;> omega
    rw [List.cons_append, exponentLength, exponentLength, hsign]
    dsimp only
    rw [hdrop, runLength_append (hx.head?_eq_false (by decide))]

theorem suffixLength_append (hx : Ends x) (w : Text) :
    suffixLength (w ++ x) = suffixLength w := by
  cases w with
  | nil => exact hx.elim rfl (by simp [boundary, suffixLength])
  | cons c w => rfl

theorem decimalLength?_append (hx : Ends x) (w : Text) :
    decimalLength? (w ++ x) = decimalLength? w := by
  have hwhole := integerLength_le w
  have hmantissa := fractionLength_le (w.drop (integerLength w))
  generalize hm : integerLength w + fractionLength (w.drop (integerLength w)) = m at hmantissa
  have hscaled := exponentLength_le (w.drop m)
  rw [List.length_drop] at hmantissa hscaled
  simp only [decimalLength?]
  rw [integerLength_append hx, List.drop_append_of_le_length hwhole, fractionLength_append hx, hm,
    List.drop_append_of_le_length (by omega), exponentLength_append hx,
    List.drop_append_of_le_length (by omega), suffixLength_append hx]

theorem octalLength?_append (hx : Ends x) (w : Text) : octalLength? (w ++ x) = octalLength? w := by
  cases w with
  | nil => exact hx.elim rfl (by simp [boundary, octalLength?])
  | cons c w =>
    by_cases hc : c = '0'
    · subst hc
      rw [List.cons_append, octalLength?, octalLength?,
        runLength_append (hx.head?_eq_false (by decide))]
    · rw [List.cons_append, octalLength?.eq_2 _ fun cs h => hc (List.cons.inj h).1,
        octalLength?.eq_2 _ fun cs h => hc (List.cons.inj h).1]

theorem hexadecimalLength?_append (hx : Ends x) (w : Text) :
    hexadecimalLength? (w ++ x) = hexadecimalLength? w := by
  match w with
  | [] => exact hx.elim rfl (by simp [boundary, hexadecimalLength?])
  | [c] =>
    refine hx.elim rfl ?_
    by_cases hc : c = '0'
    · subst hc
      simp [boundary, hexadecimalLength?]
    · intro d _ cs
      rw [List.singleton_append, hexadecimalLength?.eq_2 _ fun _ _ h => hc (List.cons.inj h).1,
        hexadecimalLength?.eq_2 _ fun _ _ h => hc (List.cons.inj h).1]
  | c :: d :: w =>
    by_cases hc : c = '0'
    · subst hc
      rw [List.cons_append, List.cons_append, hexadecimalLength?, hexadecimalLength?,
        runLength_append (hx.head?_eq_false (by decide))]
    · rw [List.cons_append, hexadecimalLength?.eq_2 _ fun _ _ h => hc (List.cons.inj h).1,
        hexadecimalLength?.eq_2 _ fun _ _ h => hc (List.cons.inj h).1]

theorem wordLength?_append (hx : Ends x) (w : Text) : wordLength? (w ++ x) = wordLength? w := by
  cases w with
  | nil => exact hx.elim rfl (by simp [boundary, wordLength?, isWordStart])
  | cons c w =>
    rw [List.cons_append, wordLength?, wordLength?,
      runLength_append (hx.head?_eq_false (by decide))]

/-! ## Marks and literals -/

theorem isPrefixOf_append (hx : Ends x) {m : Text} (hm : ∀ c ∈ m, c ∉ boundary) (w : Text) :
    m.isPrefixOf (w ++ x) = m.isPrefixOf w := by
  induction m generalizing w with
  | nil => simp
  | cons c m ih =>
    rw [List.forall_mem_cons] at hm
    cases w with
    | nil =>
      refine hx.elim rfl fun d hd cs => ?_
      have hne : (c == d) = false := by
        rw [beq_eq_false_iff_ne]
        rintro rfl
        exact hm.1 hd
      rw [List.nil_append, List.isPrefixOf_cons_cons, hne]
      rfl
    | cons d w =>
      rw [List.cons_append, List.isPrefixOf_cons_cons, List.isPrefixOf_cons_cons, ih hm.2]

/-- A character that is no escape, for it neither ends a text nor has another behind it. -/
theorem ne_backslash {c : Char} {cs : Text} (hlast : c = '\\' → cs = [] → False)
    (hescape : ∀ d ds, c = '\\' → cs = d :: ds → False) : c ≠ '\\' := by
  intro hc
  cases cs with
  | nil => exact hlast hc rfl
  | cons d ds => exact hescape d ds hc rfl

theorem quotedLength?_cons {quote c : Char} (hc : c ≠ '\\') (cs : Text) :
    quotedLength? quote (c :: cs) =
      if c == quote then some 1 else (quotedLength? quote cs).map (· + 1) :=
  quotedLength?.eq_4 quote c cs (fun h => absurd h hc) fun _ _ h => absurd h hc

/-- A literal that is closed does not go on. -/
theorem quotedLength?_append {quote : Char} {w : Text} {n : Nat}
    (h : quotedLength? quote w = some n) (x : Text) : quotedLength? quote (w ++ x) = some n := by
  fun_induction quotedLength? quote w generalizing n with
  | case1 | case2 => cases h
  | case3 d w ih =>
    obtain ⟨k, hk, rfl⟩ := Option.map_eq_some_iff.1 h
    show (quotedLength? quote (w ++ x)).map (· + 2) = _
    rw [ih hk]
    rfl
  | case4 c w hlast hescape hquote | case5 c w hlast hescape hquote ih =>
    have hc := ne_backslash hlast hescape
    rw [List.cons_append, quotedLength?_cons hc]
    first
    | rw [if_pos hquote]
      exact h
    | obtain ⟨k, hk, rfl⟩ := Option.map_eq_some_iff.1 h
      rw [if_neg hquote, ih hk]
      rfl

/-! ## Patterns of the ordinary mode -/

/-- A pattern that ends with what it matches. -/
def isLocal : Pattern → Bool
  | mark c cs => isPlain c && cs.all (· ∉ boundary)
  | quoted quote => quote == '\'' || quote == '"'
  | propertyArgs | nativeType | fragmentBody => false
  | _ => true

theorem isLocal_mark (c : Char) (cs : Text) :
    (mark c cs).isLocal = (isPlain c && cs.all (· ∉ boundary)) := rfl

theorem isLocal_quoted (quote : Char) :
    (quoted quote).isLocal = (quote == '\'' || quote == '"') := rfl

theorem length?_comment {cs : Text} (h : opensComment cs = false) :
    lineCommentLength? cs = none ∧ blockCommentLength? cs = none := by
  constructor
  · unfold lineCommentLength?
    split
    · cases h
    · rfl
  · unfold blockCommentLength?
    split
    · cases h
    · rfl

theorem opensComment_of_append {w x : Text} (h : opensComment (w ++ x) = false) :
    opensComment w = false := by
  unfold opensComment
  split
  · exact h
  · rfl

/-- What a pattern matches at a plain character does not depend on what stands behind
    the text. -/
theorem length?_append_of_isPlain {p : Pattern} (hp : p.isLocal) {lineStart : Bool} {c : Char}
    (hc : isPlain c) {w : Text} (hcomment : opensComment (c :: w ++ x) = false) (hx : Ends x) :
    p.length? lineStart (c :: w ++ x) = p.length? false (c :: w) := by
  have hother (hbegin : p.canBegin c = false) :
      p.length? lineStart (c :: w ++ x) = p.length? false (c :: w) := by
    rw [List.cons_append, length?_of_not_canBegin hbegin, length?_of_not_canBegin hbegin]
  cases p with
  | mark d m =>
    rw [isLocal_mark, Bool.and_eq_true] at hp
    have hm : ∀ e ∈ m, e ∉ boundary := by simpa using hp.2
    show (if (d :: m).isPrefixOf (c :: (w ++ x)) then _ else _) =
      if (d :: m).isPrefixOf (c :: w) then _ else _
    rw [List.isPrefixOf_cons_cons, List.isPrefixOf_cons_cons, isPrefixOf_append hx hm]
  | word => exact wordLength?_append hx (c :: w)
  | octal => exact octalLength?_append hx (c :: w)
  | hexadecimal => exact hexadecimalLength?_append hx (c :: w)
  | decimal => exact decimalLength?_append hx (c :: w)
  | quoted quote =>
    have hquote : quote ∈ ['\'', '"'] := by simpa [isLocal_quoted] using hp
    have hplain : isPlain quote = false := eq_false_of_mem (by decide) hquote
    exact hother (beq_eq_false_iff_ne.2 (ne_of_isPlain hc hplain).symm)
  | propertyArgs | nativeType | fragmentBody => cases hp
  | blanks => exact hother (isBlank_of_isPlain hc)
  | lineBreak => exact hother (isLineEnd_of_isPlain hc)
  | pragma | lineMarker =>
    refine hother ?_
    rw [canBegin, isBlank_of_isPlain hc, Bool.false_or, beq_eq_false_iff_ne]
    exact ne_of_isPlain hc rfl
  | lineComment =>
    simp only [length?, (length?_comment hcomment).1,
      (length?_comment (opensComment_of_append hcomment)).1]
  | blockComment =>
    simp only [length?, (length?_comment hcomment).2,
      (length?_comment (opensComment_of_append hcomment)).2]

/-- At a quote, no other pattern matches than the one of literals. -/
theorem length?_of_quote {p : Pattern} (hp : p.isLocal) {lineStart : Bool} {quote : Char}
    (hquote : quote ∈ ['\'', '"']) (hne : p ≠ quoted quote) (cs : Text) :
    p.length? lineStart (quote :: cs) = none := by
  refine length?_of_not_canBegin ?_ lineStart cs
  cases p with
  | mark d m =>
    have hplain : isPlain quote = false := eq_false_of_mem (by decide) hquote
    rw [isLocal_mark, Bool.and_eq_true] at hp
    exact beq_eq_false_iff_ne.2 (ne_of_isPlain hp.1 hplain)
  | quoted d =>
    refine beq_eq_false_iff_ne.2 ?_
    rintro rfl
    exact hne rfl
  | propertyArgs | nativeType | fragmentBody => cases hp
  | _ =>
    simp only [List.mem_cons, List.not_mem_nil, or_false] at hquote
    rcases hquote with rfl | rfl <;> rfl

/-- What a pattern matches at a literal that is closed does not depend on what stands
    behind it. -/
theorem length?_append_of_quote {p : Pattern} (hp : p.isLocal) {lineStart : Bool} {quote : Char}
    (hquote : quote ∈ ['\'', '"']) {w : Text} {n : Nat} (hw : quotedLength? quote w = some n) :
    p.length? lineStart (quote :: w ++ x) = p.length? false (quote :: w) := by
  by_cases hquoted : p = quoted quote
  · subst hquoted
    simp only [length?, List.cons_append, quotedLength?_append hw x, hw]
  · rw [List.cons_append, length?_of_quote hp hquote hquoted, length?_of_quote hp hquote hquoted]

end Pattern

namespace Rule

theorem longestMatch_congr {lineStart lineStart' : Bool} {cs ds : Text} {rs : List Rule}
    (h : ∀ r ∈ rs, r.length? lineStart cs = r.length? lineStart' ds) :
    longestMatch lineStart cs rs = longestMatch lineStart' ds rs := by
  induction rs with
  | nil => rfl
  | cons r rs ih =>
    rw [List.forall_mem_cons] at h
    rw [longestMatch, longestMatch, h.1, ih h.2]

/-- A text that is read alike alone and in front of `x`: it begins with a plain
    character that opens no comment, or with a literal that is closed. -/
inductive Readable (x : Text) : Text → Prop
  | plain {c : Char} {w : Text} : isPlain c → opensComment (c :: w ++ x) = false →
      Readable x (c :: w)
  | quoted {quote : Char} {w : Text} {n : Nat} : quote ∈ ['\'', '"'] →
    Pattern.quotedLength? quote w = some n → Readable x (quote :: w)

/-- In the ordinary mode, the longest match in a text is the longest match in the text
    alone. -/
theorem longestMatch_append {x w : Text} (hx : Ends x) (h : Readable x w) (lineStart : Bool) :
    longestMatch lineStart (w ++ x) (inMode .ordinary) =
      longestMatch false w (inMode .ordinary) := by
  have hlocal : ∀ r ∈ inMode .ordinary, r.pattern.isLocal := by decide
  refine longestMatch_congr fun r hr => ?_
  cases h with
  | plain hc hcomment => exact Pattern.length?_append_of_isPlain (hlocal r hr) hc hcomment hx
  | quoted hquote hw => exact Pattern.length?_append_of_quote (hlocal r hr) hquote hw

end Rule

end IdlFrontend
