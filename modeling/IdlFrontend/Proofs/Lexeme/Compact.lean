import IdlFrontend.Proofs.Lexeme.Whole
import IdlFrontend.Proofs.Lexer.Locality

/-!
# Text without space between

A text is compact if it consists of characters that are neither blank nor part of
comments, and of literals that are closed on their line. A compact text is cut into
lexemes that are not blank, whatever stands behind it, as long as that begins with a
blank, a line break or a comment.

Results:

* `extent_of_isPlain`: the lexeme that begins with a plain character.
* `Compact.exists_scanFrom`: the lexemes of a compact text.
-/

namespace IdlFrontend

namespace Lexeme

variable {x : Text}

/-! ## Lexemes at a plain character -/

/-- A character that a word or a number goes on with. -/
def isLinking (c : Char) : Bool := isWordPart c || c ∈ ['.', '+', '-']

theorem numberLength_append (hx : Ends x) (last : Char) (w : Text) :
    numberLength last (w ++ x) = numberLength last w := by
  induction w generalizing last with
  | nil => exact hx.elim rfl (by simp [boundary, numberLength, isWordPart])
  | cons c w ih => rw [List.cons_append, numberLength, numberLength, ih]

theorem numberLength_le (last : Char) (w : Text) : numberLength last w ≤ w.length := by
  induction w generalizing last with
  | nil => exact Nat.le_refl _
  | cons c w ih =>
    have := ih c
    rw [numberLength, List.length_cons]
    split
    · omega
    · split <;> omega

theorem isLinking_of_mem_number {last : Char} {w : Text} :
    ∀ c ∈ w.take (numberLength last w), isLinking c := by
  induction w generalizing last with
  | nil => simp
  | cons c w ih =>
    rw [numberLength]
    split
    next hsign =>
      have hc : isLinking c := by
        simp only [Bool.and_eq_true, Bool.or_eq_true, beq_iff_eq] at hsign
        rcases hsign.1 with rfl | rfl <;> rfl
      exact List.forall_mem_cons.2 ⟨hc, ih⟩
    · split
      next hpart =>
        have hc : isLinking c := by
          rw [Bool.or_eq_true, beq_iff_eq] at hpart
          rcases hpart with hpart | rfl
          · rw [isLinking, hpart]
            rfl
          · rfl
        exact List.forall_mem_cons.2 ⟨hc, ih⟩
      · exact List.forall_mem_nil _

theorem head?_drop_numberLength {last : Char} {w : Text} :
    ∀ c ∈ (w.drop (numberLength last w)).head?, isWordPart c = false := by
  induction w generalizing last with
  | nil => exact fun _ h => by cases h
  | cons c w ih =>
    rw [numberLength]
    split
    · exact ih
    · split
      · exact ih
      next hpart =>
        rintro d ⟨⟩
        rw [Bool.or_eq_true, not_or] at hpart
        simpa using hpart.1

theorem head?_drop_takeWhile {p : Char → Bool} {w : Text} :
    ∀ c ∈ (w.drop (w.takeWhile p).length).head?, p c = false := by
  induction w with
  | nil => exact fun _ h => by cases h
  | cons c w ih =>
    rw [List.takeWhile_cons]
    cases hc : p c with
    | true => exact ih
    | false =>
      rintro d ⟨⟩
      exact hc

/-- What is known about the lexeme of the kind that takes `n` characters behind `c`. -/
structure Opening (c : Char) (w : Text) (kind : LexemeKind) (n : Nat) : Prop where
  kind_mem : kind ∈ [.word, .number, .punctuation]
  le : n ≤ w.length
  isLinking : ∀ d ∈ w.take n, isLinking d
  word : kind = .word → isWordStart c ∧ n = (w.takeWhile isWordPart).length
  /-- The next lexeme begins no word in the middle of one. -/
  next : (n = 0 ∧ isWordPart c = false) ∨ ∀ d ∈ (w.drop n).head?, isWordPart d = false

theorem isWordPart_eq (c : Char) : isWordPart c = (isWordStart c || c.isDigit) := by
  simp only [isWordPart, isWordStart, Char.isAlphanum]
  cases c.isAlpha <;> cases c.isDigit <;> simp

theorem extent_of_isPlain {c : Char} (hc : isPlain c) {w : Text}
    (hcomment : opensComment (c :: w ++ x) = false) (hx : Ends x) :
    ∃ kind n, extent c (w ++ x) = (kind, n) ∧ Opening c w kind n := by
  have hpunct (hpart : isWordPart c = false) : Opening c w .punctuation 0 :=
    ⟨by decide, Nat.zero_le _, fun _ h => (List.not_mem_nil h).elim, fun h => (by cases h),
      Or.inl ⟨rfl, hpart⟩⟩
  by_cases hslash : c = '/'
  · subst hslash
    refine ⟨.punctuation, 0, ?_, hpunct rfl⟩
    rw [extent_slash]
    rw [List.cons_append] at hcomment
    split
    next heq =>
      rw [heq] at hcomment
      cases hcomment
    next heq =>
      rw [heq] at hcomment
      cases hcomment
    · rfl
  · have hspace : isSpace c = false := by
      rw [isSpace, isBlank_of_isPlain hc, Bool.false_or, beq_eq_false_iff_ne]
      exact ne_of_isPlain hc rfl
    rw [extent_other ⟨ne_of_isPlain hc rfl, hslash, ne_of_isPlain hc rfl, ne_of_isPlain hc rfl,
      ne_of_isPlain hc rfl⟩, hspace]
    by_cases hword : isWordStart c
    · have hrun : ((w ++ x).takeWhile isWordPart).length = (w.takeWhile isWordPart).length :=
        Pattern.runLength_append (hx.head?_eq_false (by decide)) w
      refine ⟨.word, (w.takeWhile isWordPart).length, ?_, by decide,
        (List.takeWhile_prefix _).length_le, fun d hd => ?_, fun _ => ⟨hword, rfl⟩,
        Or.inr head?_drop_takeWhile⟩
      · rw [if_neg Bool.false_ne_true, if_pos hword, hrun]
      · have hpart := Pattern.forall_mem_take_of_le_runLength (p := isWordPart) (Nat.le_refl _) d hd
        rw [Lexeme.isLinking, hpart]
        rfl
    · rw [if_neg Bool.false_ne_true, if_neg hword]
      split
      · exact ⟨.number, numberLength c w, by rw [numberLength_append hx], by decide,
          numberLength_le c w, isLinking_of_mem_number, fun h => (by cases h),
          Or.inr head?_drop_numberLength⟩
      next hnumber =>
        refine ⟨.punctuation, 0, rfl, hpunct ?_⟩
        rw [Bool.or_eq_true, not_or] at hnumber
        rw [isWordPart_eq, Bool.eq_false_iff.2 hword, Bool.eq_false_iff.2 hnumber.1]
        rfl

/-! ## Literals -/

theorem quotedLength_of_closed {quote : Char} {w : Text}
    (hw : ∀ c ∈ w, isLineEnd c = false) {n : Nat} (h : Pattern.quotedLength? quote w = some n)
    (rest : Text) :
    quotedLength quote (w ++ rest) = n := by
  fun_induction Pattern.quotedLength? quote w generalizing n with
  | case1 | case2 => cases h
  | case3 d w ih =>
    obtain ⟨k, hk, rfl⟩ := Option.map_eq_some_iff.1 h
    rw [List.forall_mem_cons, List.forall_mem_cons] at hw
    have hd : d ≠ '\n' := by
      rintro rfl
      exact absurd hw.2.1 (by decide)
    rw [List.cons_append, List.cons_append, quotedLength.eq_4 _ _ _ hd, ih hw.2.2 hk]
  | case4 c w hlast hescape hquote | case5 c w hlast hescape hquote ih =>
    have hc := Pattern.ne_backslash hlast hescape
    rw [List.forall_mem_cons] at hw
    have hfeed : c ≠ '\n' := by
      rintro rfl
      exact absurd hw.1 (by decide)
    rw [List.cons_append, quotedLength_cons hfeed hc]
    first
    | cases h
      rw [if_pos hquote]
    | obtain ⟨k, hk, rfl⟩ := Option.map_eq_some_iff.1 h
      rw [if_neg hquote, ih hw.2 hk]

/-! ## Compact text -/

/-- Text without space between, in front of `x`: plain characters that open no
    comment, and closed literals. `P` holds of every word that does not begin behind a
    letter or digit; `inWord` says whether the text itself stands behind one. -/
inductive Compact (P : Text → Prop) (x : Text) : (inWord : Bool) → Text → Prop
  | nil {inWord : Bool} : Compact P x inWord []
  | plain {inWord : Bool} {c : Char} {w : Text} : isPlain c → opensComment (c :: w ++ x) = false →
    (inWord = false → isWordStart c → P (c :: w.takeWhile isWordPart)) →
    Compact P x (isWordPart c) w → Compact P x inWord (c :: w)
  | quoted {inWord : Bool} {quote : Char} {v w : Text} : quote ∈ ['\'', '"'] →
    (∀ c ∈ v, isLineEnd c = false) → Pattern.quotedLength? quote v = some v.length →
    Compact P x false w → Compact P x inWord (quote :: (v ++ w))

variable {P : Text → Prop} {inWord : Bool} {w : Text}

/-- What is left behind linking characters is compact. -/
theorem Compact.drop (h : Compact P x inWord w) {n : Nat} (hn : n ≤ w.length)
    (hlinking : ∀ d ∈ w.take n, isLinking d) :
    ∃ inWord', Compact P x inWord' (w.drop n) ∧ (n = 0 → inWord' = inWord) := by
  induction n generalizing inWord w with
  | zero => exact ⟨inWord, h, fun _ => rfl⟩
  | succ n ih =>
    cases h with
    | nil => cases hn
    | plain _ _ _ hrest =>
      rw [List.take_succ_cons, List.forall_mem_cons] at hlinking
      obtain ⟨inWord', hdrop, -⟩ := ih hrest (Nat.le_of_succ_le_succ hn) hlinking.2
      exact ⟨inWord', hdrop, fun h => by cases h⟩
    | @quoted _ quote _ _ hquote =>
      rw [List.take_succ_cons, List.forall_mem_cons] at hlinking
      have hnot : isLinking quote = false := eq_false_of_mem (by decide) hquote
      rw [hnot] at hlinking
      cases hlinking.1

/-- A lexeme of a compact text on the given line. -/
structure Solid (P : Text → Prop) (line : Nat) (u : Lexeme) : Prop where
  line_eq : u.line = line
  not_isBlank : u.isBlank = false
  not_hash : u.isPunct '#' = false
  word : u.kind = .word → P u.text

theorem not_isBlank_of_kind {u : Lexeme}
    (h : u.kind ∈ [.word, .number, .punctuation] ++ [.string, .character]) : u.isBlank = false := by
  simp only [List.cons_append, List.nil_append, List.mem_cons, List.not_mem_nil, or_false] at h
  rcases h with h | h | h | h | h <;> rw [isBlank, h] <;> rfl

theorem extent_of_quote {quote : Char} (h : quote ∈ ['\'', '"']) :
    ∃ kind, kind ∈ [.string, .character] ∧
      ∀ cs, extent quote cs = (kind, quotedLength quote cs) := by
  simp only [List.mem_cons, List.not_mem_nil, or_false] at h
  rcases h with rfl | rfl
  · exact ⟨.character, by decide, fun cs => rfl⟩
  · exact ⟨.string, by decide, fun cs => rfl⟩

theorem count_newline_eq_zero {cs : Text} (h : ∀ c ∈ cs, isLineEnd c = false) :
    cs.count '\n' = 0 := by
  refine List.count_eq_zero.2 fun hmem => ?_
  exact absurd (h '\n' hmem) (by decide)

theorem isLineEnd_of_isLinking {c : Char} (h : isLinking c) : isLineEnd c = false := by
  refine Bool.eq_false_iff.2 fun hend => ?_
  simp only [isLineEnd, Bool.or_eq_true, beq_iff_eq] at hend
  rcases hend with rfl | rfl <;> exact absurd h (by decide)

/-- A compact text is cut into lexemes that are not blank, and what stands behind it
    is cut by itself. -/
theorem Compact.exists_scanFrom (hx : Ends x) (h : Compact P x inWord w)
    (hstart : inWord → ∀ c ∈ w.head?, isWordPart c = false) (line : Nat) :
    ∃ us, scanFrom line (w ++ x) = us ++ scanFrom line x ∧ us.flatMap Lexeme.text = w ∧
      ∀ u ∈ us, Solid P line u := by
  induction hlen : w.length using Nat.strongRecOn generalizing w inWord with
  | ind length ih =>
    cases h with
    | nil => exact ⟨[], rfl, rfl, List.forall_mem_nil _⟩
    | @plain _ c w hc hcomment hword hrest =>
      obtain ⟨kind, n, hextent, hopening⟩ := extent_of_isPlain hc hcomment hx
      obtain ⟨inWord', hdrop, hzero⟩ := hrest.drop hopening.le hopening.isLinking
      have hnext : inWord' → ∀ d ∈ (w.drop n).head?, isWordPart d = false := by
        intro hin
        rcases hopening.next with ⟨hn, hpart⟩ | hnext
        · rw [hzero hn, hpart] at hin
          cases hin
        · exact hnext
      have hlt : (w.drop n).length < length := by
        rw [← hlen, List.length_drop, List.length_cons]
        omega
      obtain ⟨us, hscan, htext, hsolid⟩ := ih _ hlt hdrop hnext rfl
      have hcount : (c :: w.take n).count '\n' = 0 := by
        refine count_newline_eq_zero (List.forall_mem_cons.2 ⟨isLineEnd_of_isPlain hc, ?_⟩)
        exact fun d hd => isLineEnd_of_isLinking (hopening.isLinking d hd)
      refine ⟨⟨kind, c :: w.take n, line⟩ :: us, ?_, ?_, List.forall_mem_cons.2
        ⟨⟨rfl, ?_, ?_, ?_⟩, hsolid⟩⟩
      · rw [List.cons_append, scanFrom_cons, hextent, List.take_append_of_le_length hopening.le,
          List.drop_append_of_le_length hopening.le, hcount, Nat.add_zero, hscan, List.cons_append]
      · rw [List.flatMap_cons, htext, List.cons_append, List.take_append_drop]
      · exact not_isBlank_of_kind (List.mem_append_left _ hopening.kind_mem)
      · have hhash : c ≠ '#' := ne_of_isPlain hc rfl
        simp [isPunct, hhash]
      · intro hkind
        obtain ⟨hstartWord, hn⟩ := hopening.word hkind
        have hin : inWord = false := by
          refine Bool.eq_false_iff.2 fun hin => ?_
          have := hstart hin c rfl
          rw [isWordPart_eq, hstartWord] at this
          cases this
        have htake : w.take n = w.takeWhile isWordPart := by
          rw [hn, ← List.prefix_iff_eq_take.1 (List.takeWhile_prefix isWordPart)]
        show P (c :: w.take n)
        rw [htake]
        exact hword hin hstartWord
    | @quoted _ quote v w hquote hv hclosed hrest =>
      obtain ⟨kind, hkind, hextent⟩ := extent_of_quote hquote
      have hlt : w.length < length := by
        rw [← hlen, List.length_cons, List.length_append]
        omega
      obtain ⟨us, hscan, htext, hsolid⟩ := ih _ hlt hrest (fun h => by cases h) rfl
      have hcount : (quote :: v).count '\n' = 0 := by
        refine count_newline_eq_zero (List.forall_mem_cons.2 ⟨?_, hv⟩)
        exact eq_false_of_mem (by decide) hquote
      have hpunct : kind ≠ .punctuation ∧ kind ≠ .word := by
        simp only [List.mem_cons, List.not_mem_nil, or_false] at hkind
        rcases hkind with rfl | rfl <;> decide
      refine ⟨⟨kind, quote :: v, line⟩ :: us, ?_, ?_, List.forall_mem_cons.2
        ⟨⟨rfl, ?_, ?_, ?_⟩, hsolid⟩⟩
      · rw [List.cons_append, scanFrom_cons, hextent, List.append_assoc,
          quotedLength_of_closed hv hclosed, List.take_left, List.drop_left, hcount, Nat.add_zero,
          hscan, List.cons_append]
      · rw [List.flatMap_cons, htext]
        rfl
      · exact not_isBlank_of_kind (List.mem_append_right _ hkind)
      · simp [isPunct, hpunct.1]
      · exact fun h => absurd h hpunct.2

end Lexeme

end IdlFrontend
