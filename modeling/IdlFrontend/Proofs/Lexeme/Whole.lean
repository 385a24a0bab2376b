import IdlFrontend.Source.Lexeme
import IdlFrontend.Text.Numeral
import Mathlib.Data.List.TakeWhile

/-!
# Lexemes that stand alone, and lexemes with something behind them

A lexeme that was cut from a text is cut again as a whole when it stands alone.
When something else stands behind it, it may run on: a word into a letter, a slash
into another slash. The first character behind a lexeme decides that.

Results:

* `isWhole_of_mem_scan`: every lexeme of a text is whole.
* `extent_append_iff`: a lexeme is cut behind its last character exactly if it does
  not run on into the next one.
-/

namespace IdlFrontend.Lexeme

theorem kind_of_isBlank {t : Lexeme} (h : t.isBlank) :
    t.kind = .newline ∨ t.kind = .space ∨ t.kind = .comment := by
  simp only [isBlank, Bool.or_eq_true, beq_iff_eq] at h
  rcases h with (h | h) | h
  · exact Or.inr (Or.inl h)
  · exact Or.inl h
  · exact Or.inr (Or.inr h)

theorem isBlank_eq_false_iff {t : Lexeme} :
    t.isBlank = false ↔ t.kind ≠ .space ∧ t.kind ≠ .newline ∧ t.kind ≠ .comment := by
  simp [isBlank, and_assoc]

theorem isBlank_of_isPunct {t : Lexeme} {c : Char} (h : t.isPunct c) : t.isBlank = false := by
  simp only [isPunct, Bool.and_eq_true, beq_iff_eq] at h
  simp [isBlank, h.1]

theorem text_of_isPunct {t : Lexeme} {c : Char} (h : t.isPunct c) : t.text = [c] := by
  simp only [isPunct, Bool.and_eq_true, beq_iff_eq] at h
  exact h.2

/-- The text alone is one lexeme of the kind. -/
def IsWhole (kind : LexemeKind) : Text → Prop
  | [] => False
  | c :: cs => extent c cs = (kind, cs.length)

instance (kind : LexemeKind) (text : Text) : Decidable (IsWhole kind text) :=
  match text with
  | [] => isFalse id
  | c :: cs => inferInstanceAs (Decidable (extent c cs = (kind, cs.length)))

theorem IsWhole.ne_nil {kind : LexemeKind} {text : Text} (h : IsWhole kind text) : text ≠ [] := by
  rintro rfl
  exact h

/-- Whether a character continues a number whose last character so far is `last`. -/
def continuesNumber (last c : Char) : Bool :=
  ((c == '+' || c == '-') && (last == 'e' || last == 'E' || last == 'p' || last == 'P')) ||
    (isWordPart c || c == '.')

/-- Whether a literal is closed. The text begins behind its opening quote. -/
def closes (quote : Char) : Text → Bool
  | [] => false
  | '\\' :: _ :: cs => closes quote cs
  | c :: cs => c == quote || closes quote cs

/-- Whether a lexeme that is not blank runs on into the character `c` right behind
    it. -/
def runsInto (kind : LexemeKind) (text : Text) (c : Char) : Bool :=
  match kind with
  | .word => isWordPart c
  | .number => text.getLast?.any (continuesNumber · c)
  | .string => !closes '"' text.tail && c != '\n'
  | .character => !closes '\'' text.tail && c != '\n'
  | .punctuation =>
    (text == ['/'] && (c == '*' || c == '/')) || (text == ['.'] && c.isDigit) ||
      (text == ['#'] && c == '#')
  | .space | .newline | .comment => false

/-! ## The kinds of first characters -/

theorem extent_slash (cs : Text) :
    extent '/' cs = match cs with
      | '*' :: rest => (.comment, blockCommentLength rest + 1)
      | '/' :: rest => (.comment, (rest.takeWhile (· != '\n')).length + 1)
      | _ => (.punctuation, 0) := by
  unfold extent
  split <;> simp_all +decide

theorem extent_hash (cs : Text) :
    extent '#' cs = (.punctuation, if cs.head? = some '#' then 1 else 0) := by
  cases cs with
  | nil => rfl
  | cons c cs =>
    by_cases hc : c = '#'
    · rw [hc]
      rfl
    · unfold extent
      split <;> simp_all +decide

theorem extent_other {c : Char} (h : c ≠ '\n' ∧ c ≠ '/' ∧ c ≠ '"' ∧ c ≠ '\'' ∧ c ≠ '#')
    (cs : Text) :
    extent c cs =
      if isSpace c then (.space, (cs.takeWhile isSpace).length)
      else if isWordStart c then (.word, (cs.takeWhile isWordPart).length)
      else if c.isDigit || (c == '.' && cs.head?.any Char.isDigit) then
        (.number, numberLength c cs)
      else (.punctuation, 0) := by
  obtain ⟨h₁, h₂, h₃, h₄, h₅⟩ := h
  unfold extent
  split <;> first | contradiction | rfl

/-- The kind of a lexeme that begins with a blank. -/
theorem extent_of_isSpace {c : Char} (h : isSpace c) (cs : Text) :
    extent c cs = (.space, (cs.takeWhile isSpace).length) := by
  have hne : c ≠ '\n' ∧ c ≠ '/' ∧ c ≠ '"' ∧ c ≠ '\'' ∧ c ≠ '#' := by
    refine ⟨?_, ?_, ?_, ?_, ?_⟩ <;> rintro rfl <;> exact absurd h (by decide)
  rw [extent_other hne, if_pos h]

theorem isSpace_of_extent {c : Char} {cs : Text} {n : Nat} (h : extent c cs = (.space, n)) :
    isSpace c := by
  unfold extent at h
  split at h <;> first | cases h | skip
  split at h
  next hspace => exact hspace
  · split at h
    · cases h
    · split at h <;> cases h

theorem eq_of_extent_newline {c : Char} {cs : Text} {n : Nat} (h : extent c cs = (.newline, n)) :
    c = '\n' := by
  unfold extent at h
  split at h <;> first | rfl | cases h | skip
  split at h
  · cases h
  · split at h
    · cases h
    · split at h <;> cases h

theorem eq_of_extent_comment {c : Char} {cs : Text} {n : Nat} (h : extent c cs = (.comment, n)) :
    c = '/' := by
  unfold extent at h
  split at h <;> first | rfl | cases h | skip
  split at h
  · cases h
  · split at h
    · cases h
    · split at h <;> cases h

/-! ## Lexemes that stand alone -/

theorem takeWhile_take_length (p : Char → Bool) (cs : Text) :
    (cs.take (cs.takeWhile p).length).takeWhile p = cs.takeWhile p := by
  rw [← List.prefix_iff_eq_take.1 (List.takeWhile_prefix p), List.takeWhile_idem]

theorem blockCommentLength_take (cs : Text) :
    blockCommentLength cs ≤ cs.length ∧
      blockCommentLength (cs.take (blockCommentLength cs)) = blockCommentLength cs := by
  fun_induction blockCommentLength cs with
  | case1 => simp [blockCommentLength]
  | case2 c cs hend ih =>
    refine ⟨by simpa using ih.1, ?_⟩
    rw [List.take_succ_cons, blockCommentLength, ih.2]
    intro rest hc hrest
    have hprefix := List.take_prefix (blockCommentLength cs) cs
    rw [hrest] at hprefix
    obtain ⟨rest', hcs⟩ := hprefix
    exact hend (rest ++ rest') hc hcs.symm
  | case3 => simp [blockCommentLength]

theorem numberLength_take (last : Char) (cs : Text) :
    numberLength last cs ≤ cs.length ∧
      numberLength last (cs.take (numberLength last cs)) = numberLength last cs := by
  fun_induction numberLength last cs with
  | case1 => simp [numberLength]
  | case2 last c cs hsign ih =>
    refine ⟨by simpa using ih.1, ?_⟩
    rw [List.take_succ_cons, numberLength, if_pos hsign, ih.2]
  | case3 last c cs hsign hpart ih =>
    refine ⟨by simpa using ih.1, ?_⟩
    rw [List.take_succ_cons, numberLength, if_neg hsign, if_pos hpart, ih.2]
  | case4 => simp [numberLength]

theorem quotedLength_take (quote : Char) (cs : Text) :
    quotedLength quote cs ≤ cs.length ∧
      quotedLength quote (cs.take (quotedLength quote cs)) = quotedLength quote cs := by
  fun_induction quotedLength quote cs with
  | case1 => simp [quotedLength]
  | case2 => simp [quotedLength]
  | case3 => simp [quotedLength]
  | case4 c cs hc ih =>
    refine ⟨by simpa using ih.1, ?_⟩
    rw [List.take_succ_cons, List.take_succ_cons, quotedLength, ih.2]
    exact hc
  | case5 c cs hfeed hbreak hescape hquote =>
    refine ⟨by simp, ?_⟩
    rw [List.take_succ_cons, List.take_zero, quotedLength, if_pos hquote]
    · exact hfeed
    · intro tail _ h
      cases h
    · intro head tail _ h
      cases h
  | case6 c cs hfeed hbreak hescape hquote ih =>
    refine ⟨by simpa using ih.1, ?_⟩
    rw [List.take_succ_cons, quotedLength, if_neg hquote, ih.2]
    · exact hfeed
    · intro tail hc h
      cases cs with
      | nil => simp at h
      | cons d cs => exact hescape d cs hc rfl
    · intro head tail hc h
      cases cs with
      | nil => simp at h
      | cons d cs => exact hescape d cs hc rfl

theorem extent_take (c : Char) (cs : Text) :
    (extent c cs).2 ≤ cs.length ∧ extent c (cs.take (extent c cs).2) = extent c cs := by
  have hrun (p : Char → Bool) := (List.takeWhile_prefix p (l := cs)).length_le
  by_cases hfeed : c = '\n'
  · rw [hfeed]
    exact ⟨Nat.zero_le _, rfl⟩
  by_cases hslash : c = '/'
  · rw [hslash, extent_slash]
    split
    next rest =>
      have := blockCommentLength_take rest
      refine ⟨by simpa using this.1, ?_⟩
      rw [List.take_succ_cons, extent_slash]
      exact congrArg (fun n => (LexemeKind.comment, n + 1)) this.2
    next rest =>
      have := (List.takeWhile_prefix (· != '\n') (l := rest)).length_le
      refine ⟨by simpa using this, ?_⟩
      rw [List.take_succ_cons, extent_slash]
      exact congrArg (fun l => (LexemeKind.comment, List.length l + 1))
        (takeWhile_take_length _ rest)
    · exact ⟨Nat.zero_le _, rfl⟩
  by_cases hdouble : c = '"'
  · rw [hdouble]
    have := quotedLength_take '"' cs
    exact ⟨this.1, congrArg (LexemeKind.string, ·) this.2⟩
  by_cases hsingle : c = '\''
  · rw [hsingle]
    have := quotedLength_take '\'' cs
    exact ⟨this.1, congrArg (LexemeKind.character, ·) this.2⟩
  by_cases hhash : c = '#'
  · rw [hhash, extent_hash]
    cases cs with
    | nil => exact ⟨Nat.zero_le _, rfl⟩
    | cons d ds => by_cases hd : d = '#' <;> simp [hd, extent_hash]
  have hother := extent_other ⟨hfeed, hslash, hdouble, hsingle, hhash⟩
  rw [hother cs]
  by_cases hspace : isSpace c
  · rw [if_pos hspace, hother, if_pos hspace, takeWhile_take_length]
    exact ⟨hrun _, rfl⟩
  by_cases hword : isWordStart c
  · rw [if_neg hspace, if_pos hword, hother, if_neg hspace, if_pos hword, takeWhile_take_length]
    exact ⟨hrun _, rfl⟩
  rw [if_neg hspace, if_neg hword]
  by_cases hnumber : (c.isDigit || (c == '.' && cs.head?.any Char.isDigit)) = true
  · have := numberLength_take c cs
    rw [if_pos hnumber, hother, if_neg hspace, if_neg hword, this.2]
    refine ⟨this.1, if_pos ?_⟩
    cases cs with
    | nil => exact hnumber
    | cons d ds =>
      by_cases hd : d.isDigit
      · have hpart : isWordPart d := by simp [isWordPart, Char.isAlphanum, hd]
        simp only [numberLength, hpart, Bool.true_or, if_true]
        split <;> simpa [hd] using hnumber
      · simp only [List.head?_cons, Option.any_some, hd, Bool.and_false, Bool.or_false] at hnumber
        simp [hnumber]
  · rw [if_neg hnumber, hother, if_neg hspace, if_neg hword]
    refine ⟨Nat.zero_le _, if_neg ?_⟩
    simp at hnumber ⊢
    exact hnumber.1

theorem isWhole_of_mem_scanFrom {line : Nat} {cs : Text} :
    ∀ t ∈ scanFrom line cs, IsWhole t.kind t.text := by
  fun_induction scanFrom line cs with
  | case1 => exact List.forall_mem_nil _
  | case2 line c cs kind n h text ih =>
    refine List.forall_mem_cons.2 ⟨?_, ih⟩
    have htake := extent_take c cs
    rw [h] at htake
    show extent c (cs.take n) = (kind, (cs.take n).length)
    rw [htake.2, List.length_take_of_le htake.1]

/-- The lexemes of a text are whole. -/
theorem isWhole_of_mem_scan {cs : Text} : ∀ t ∈ scan cs, IsWhole t.kind t.text :=
  isWhole_of_mem_scanFrom

/-- Digits are one number. -/
theorem isWhole_of_isDigit {cs : Text} (hne : cs ≠ []) (h : ∀ c ∈ cs, c.isDigit) :
    IsWhole .number cs := by
  have hlength (last : Char) {ds : Text} (hds : ∀ d ∈ ds, d.isDigit) :
      numberLength last ds = ds.length := by
    induction ds generalizing last with
    | nil => rfl
    | cons d ds ih =>
      rw [List.forall_mem_cons] at hds
      have hpart : isWordPart d := by simp [isWordPart, Char.isAlphanum, hds.1]
      simp only [numberLength, hpart, Bool.true_or, if_true, ih d hds.2, List.length_cons, ite_self]
  obtain ⟨c, cs, rfl⟩ := List.exists_cons_of_ne_nil hne
  rw [List.forall_mem_cons] at h
  have hc := h.1
  have hne : c ≠ '\n' ∧ c ≠ '/' ∧ c ≠ '"' ∧ c ≠ '\'' ∧ c ≠ '#' := by
    refine ⟨?_, ?_, ?_, ?_, ?_⟩ <;> rintro rfl <;> exact absurd hc (by decide)
  have hspace : isSpace c = false := by
    refine Bool.eq_false_iff.2 fun hspace => ?_
    simp only [isSpace, IdlFrontend.isBlank, Bool.or_eq_true, beq_iff_eq] at hspace
    rcases hspace with (((rfl | rfl) | rfl) | rfl) | rfl <;> exact absurd hc (by decide)
  have hword := isWordStart_of_isDigit hc
  show extent c cs = _
  rw [extent_other hne, hspace, hword, if_neg (by decide), if_neg (by decide), hc, Bool.true_or,
    if_pos rfl, hlength c h.2]

theorem isWhole_ofNat (n : Nat) : IsWhole .number (Text.ofNat n) :=
  isWhole_of_isDigit (Text.ofNat_ne_nil n) Text.isDigit_of_mem_ofNat

/-! ## Lexemes with something behind them -/

/-- Whether what begins a text, if anything does, has the property. -/
theorem takeWhile_append_length_iff {p : Char → Bool} {cs : Text}
    (h : (cs.takeWhile p).length = cs.length) (rest : Text) :
    ((cs ++ rest).takeWhile p).length = cs.length ↔ ∀ d ∈ rest.head?, p d = false := by
  have hall : ∀ c ∈ cs, p c := by
    rw [← List.takeWhile_eq_self_iff]
    exact (List.takeWhile_prefix p).eq_of_length h
  rw [List.takeWhile_append_of_pos hall, List.length_append]
  cases rest with
  | nil => simp
  | cons d rest => cases hd : p d <;> simp [hd]

theorem numberLength_append_iff {last : Char} {cs : Text} (h : numberLength last cs = cs.length)
    (rest : Text) :
    numberLength last (cs ++ rest) = cs.length ↔
      ∀ d ∈ rest.head?, ((last :: cs).getLast?.any (continuesNumber · d)) = false := by
  induction cs generalizing last with
  | nil =>
    cases rest with
    | nil => simp [numberLength]
    | cons d rest =>
      simp only [List.nil_append, numberLength, List.length_nil, List.head?_cons,
        Option.mem_some_iff, forall_eq', List.getLast?_singleton, Option.any_some, continuesNumber]
      generalize (isWordPart d || d == '.') = part
      generalize ((d == '+' || d == '-') &&
        (last == 'e' || last == 'E' || last == 'p' || last == 'P')) = sign
      cases sign <;> cases part <;> simp
  | cons c cs ih =>
    rw [List.getLast?_cons_cons]
    simp only [numberLength, List.length_cons, List.cons_append] at h ⊢
    split at h
    next hsign =>
      rw [if_pos hsign, Nat.add_right_cancel_iff]
      exact ih (Nat.add_right_cancel h)
    next hsign =>
      split at h
      next hpart =>
        rw [if_neg hsign, if_pos hpart, Nat.add_right_cancel_iff]
        exact ih (Nat.add_right_cancel h)
      · cases h

theorem quotedLength_pos (quote : Char) {d : Char} (hd : d ≠ '\n') (rest : Text) :
    0 < quotedLength quote (d :: rest) := by
  rw [quotedLength.eq_def]
  split <;> first | contradiction | omega | skip
  next heq => cases heq; exact absurd rfl hd
  next => split <;> omega

theorem quotedLength_backslash (quote : Char) (rest : Text) :
    quotedLength quote ('\\' :: rest) = 1 ↔ ∀ d ∈ rest.head?, d = '\n' := by
  cases rest with
  | nil => simp [quotedLength]
  | cons d rest =>
    by_cases hd : d = '\n'
    · simp [hd, quotedLength]
    · rw [quotedLength]
      · simp [hd]
      · exact hd

theorem quotedLength_cons {quote c : Char} (hfeed : c ≠ '\n') (hescape : c ≠ '\\') (cs : Text) :
    quotedLength quote (c :: cs) = if c == quote then 1 else quotedLength quote cs + 1 := by
  rw [quotedLength]
  · exact hfeed
  · intro _ h
    exact absurd h hescape
  · intro _ _ h
    exact absurd h hescape

theorem closes_cons {quote c : Char} (hescape : c ≠ '\\') (cs : Text) :
    closes quote (c :: cs) = (c == quote || closes quote cs) := by
  rw [closes]
  intro _ _ h
  exact absurd h hescape

theorem quotedLength_append_iff {quote : Char} (hq : quote ≠ '\\') {cs : Text}
    (h : quotedLength quote cs = cs.length) (rest : Text) :
    quotedLength quote (cs ++ rest) = cs.length ↔
      ∀ d ∈ rest.head?, (!closes quote cs && d != '\n') = false := by
  fun_induction quotedLength quote cs with
  | case1 =>
    cases rest with
    | nil => simp [quotedLength]
    | cons d rest =>
      by_cases hd : d = '\n'
      · simp [hd, quotedLength]
      · have := quotedLength_pos quote hd rest
        simp [closes, hd]
        omega
  | case2 => cases h
  | case3 => simp at h
  | case4 c cs hc ih =>
    rw [List.cons_append, List.cons_append, quotedLength, closes]
    · simp only [List.length_cons, Nat.add_right_cancel_iff] at h ⊢
      exact ih h
    · exact hc
  | case5 c cs hfeed hbreak hescape hquote =>
    have hnil : cs = [] := List.eq_nil_of_length_eq_zero (by simpa using h.symm)
    have hc : c = quote := by simpa using hquote
    rw [hnil, hc, List.cons_append, quotedLength_cons (hc ▸ hfeed) hq, closes_cons hq]
    simp
  | case6 c cs hfeed hbreak hescape hquote ih =>
    by_cases hc : c = '\\'
    · have hnil : cs = [] := by
        cases cs with
        | nil => rfl
        | cons d cs => exact (hescape d cs hc rfl).elim
      have hcloses : closes quote ['\\'] = false := by simp [closes, Ne.symm hq]
      rw [hnil, hc, hcloses]
      simpa using quotedLength_backslash quote rest
    · rw [List.cons_append, quotedLength_cons hfeed hc, if_neg hquote, closes_cons hc]
      simp only [List.length_cons, Nat.add_right_cancel_iff] at h ⊢
      rw [ih h, Bool.eq_false_iff.2 hquote, Bool.false_or]

/-- A lexeme that is not blank is cut behind its last character exactly if it does
    not run on into the character behind it. -/
theorem extent_append_iff {kind : LexemeKind} {c : Char} {cs : Text}
    (h : extent c cs = (kind, cs.length))
    (hkind : kind ≠ .space ∧ kind ≠ .newline ∧ kind ≠ .comment) (rest : Text) :
    extent c (cs ++ rest) = (kind, cs.length) ↔
      ∀ d ∈ rest.head?, runsInto kind (c :: cs) d = false := by
  obtain ⟨hspaceKind, hnewlineKind, hcommentKind⟩ := hkind
  by_cases hfeed : c = '\n'
  · rw [hfeed] at h
    exact absurd (congrArg Prod.fst h).symm hnewlineKind
  by_cases hslash : c = '/'
  · rw [hslash, extent_slash] at h
    split at h
    · exact absurd (congrArg Prod.fst h).symm hcommentKind
    · exact absurd (congrArg Prod.fst h).symm hcommentKind
    · obtain ⟨rfl, hlen⟩ := Prod.mk.inj h
      have hnil : cs = [] := List.eq_nil_of_length_eq_zero hlen.symm
      rw [hslash, hnil, List.nil_append, extent_slash]
      cases rest with
      | nil => simp
      | cons d rest => split <;> simp_all [runsInto]
  by_cases hdouble : c = '"'
  · rw [hdouble] at h ⊢
    obtain ⟨rfl, hlen⟩ := Prod.mk.inj h
    show (LexemeKind.string, quotedLength '"' (cs ++ rest)) = _ ↔ _
    rw [Prod.mk.injEq, quotedLength_append_iff (by decide) hlen]
    simp [runsInto]
  by_cases hsingle : c = '\''
  · rw [hsingle] at h ⊢
    obtain ⟨rfl, hlen⟩ := Prod.mk.inj h
    show (LexemeKind.character, quotedLength '\'' (cs ++ rest)) = _ ↔ _
    rw [Prod.mk.injEq, quotedLength_append_iff (by decide) hlen]
    simp [runsInto]
  by_cases hhash : c = '#'
  · rw [hhash, extent_hash] at h
    rw [hhash, extent_hash]
    obtain ⟨rfl, hlen⟩ := Prod.mk.inj h
    cases cs with
    | nil => cases rest <;> simp [runsInto]
    | cons d ds =>
      by_cases hd : d = '#'
      · have : ds = [] := List.eq_nil_of_length_eq_zero (by simpa [hd] using hlen.symm)
        simp [hd, this, runsInto]
      · simp [hd] at hlen
  have hother := extent_other ⟨hfeed, hslash, hdouble, hsingle, hhash⟩
  rw [hother] at h
  rw [hother]
  by_cases hspace : isSpace c
  · rw [if_pos hspace] at h
    exact absurd (congrArg Prod.fst h).symm hspaceKind
  rw [if_neg hspace] at h ⊢
  by_cases hword : isWordStart c
  · rw [if_pos hword] at h ⊢
    obtain ⟨rfl, hlen⟩ := Prod.mk.inj h
    rw [Prod.mk.injEq, takeWhile_append_length_iff hlen]
    simp [runsInto]
  rw [if_neg hword] at h ⊢
  by_cases hnumber : (c.isDigit || (c == '.' && cs.head?.any Char.isDigit)) = true
  · rw [if_pos hnumber] at h
    obtain ⟨rfl, hlen⟩ := Prod.mk.inj h
    have hstill : (c.isDigit || (c == '.' && (cs ++ rest).head?.any Char.isDigit)) = true := by
      cases cs with
      | nil =>
        have : c.isDigit := by simpa using hnumber
        simp [this]
      | cons d ds => exact hnumber
    rw [if_pos hstill, Prod.mk.injEq, numberLength_append_iff hlen]
    simp [runsInto]
  · rw [if_neg hnumber] at h
    obtain ⟨rfl, hlen⟩ := Prod.mk.inj h
    have hnil : cs = [] := List.eq_nil_of_length_eq_zero hlen.symm
    have hdigit : c.isDigit = false := by
      rw [Bool.or_eq_true, not_or] at hnumber
      exact Bool.eq_false_iff.2 hnumber.1
    rw [hnil, List.nil_append, hdigit]
    cases rest with
    | nil => simp
    | cons d rest =>
      by_cases hpoint : c = '.'
      · cases hd : d.isDigit <;> simp [hpoint, hd, runsInto]
      · simp [hpoint, runsInto, hslash, hhash]

/-! ## Scanning -/

theorem scanFrom_cons (line : Nat) (c : Char) (cs : Text) :
    scanFrom line (c :: cs) =
      ⟨(extent c cs).1, c :: cs.take (extent c cs).2, line⟩ ::
        scanFrom (line + (c :: cs.take (extent c cs).2).count '\n') (cs.drop (extent c cs).2) := by
  rw [scanFrom]

/-- A lexeme that does not run on is the first of the text that it begins. -/
theorem scanFrom_append {kind : LexemeKind} {text : Text} (h : IsWhole kind text)
    (hkind : kind ≠ .space ∧ kind ≠ .newline ∧ kind ≠ .comment) {rest : Text}
    (hrest : ∀ d ∈ rest.head?, runsInto kind text d = false) (line : Nat) :
    scanFrom line (text ++ rest) =
      ⟨kind, text, line⟩ :: scanFrom (line + text.count '\n') rest := by
  cases text with
  | nil => exact h.elim
  | cons c cs =>
    rw [List.cons_append, scanFrom_cons, (extent_append_iff h hkind rest).2 hrest]
    simp

end IdlFrontend.Lexeme
