import IdlFrontend.Token.Rule

/-!
# Line feeds inside a match

Most patterns match characters of one line, some of them with the line break at its
end. Only quoted literals, the raw text of native types, property lists and code
fragments, and block comments go on behind a line break.

Results:

* `length?_le_inline`: a pattern of one line matches no character of a line break.
* `eq_nil_of_take_eq`: a line feed in a match is the last character of it, unless the
  pattern spans lines.
-/

namespace IdlFrontend.Pattern

/-- A character that belongs to no line break. -/
def isInline (c : Char) : Bool := !isLineEnd c

/-- Whether a match may go on behind a line break. -/
def spansLines : Pattern → Bool
  | quoted _ | propertyArgs | nativeType | fragmentBody | blockComment => true
  | mark c cs => !(c :: cs).all isInline
  | _ => false

/-! ## Runs -/

theorem runLength_cons (p : Char → Bool) (c : Char) (cs : Text) :
    runLength p (c :: cs) = if p c then runLength p cs + 1 else 0 := by
  unfold runLength
  rw [List.takeWhile_cons]
  split <;> simp

theorem runLength_mono {p q : Char → Bool} (h : ∀ c, p c → q c) (cs : Text) :
    runLength p cs ≤ runLength q cs := by
  induction cs with
  | nil => exact Nat.le_refl _
  | cons c cs ih =>
    rw [runLength_cons, runLength_cons]
    by_cases hc : p c
    · rw [if_pos hc, if_pos (h c hc)]
      omega
    · rw [if_neg hc]
      exact Nat.zero_le _

theorem le_runLength_cons {p : Char → Bool} {c : Char} (hc : p c) {cs : Text} {n : Nat}
    (h : n ≤ runLength p cs) : n + 1 ≤ runLength p (c :: cs) := by
  rw [runLength_cons, if_pos hc]
  omega

theorem add_le_runLength {p : Char → Bool} {cs : Text} {n k : Nat} (hn : n ≤ runLength p cs)
    (hk : k ≤ runLength p (cs.drop n)) : n + k ≤ runLength p cs := by
  induction cs generalizing n with
  | nil =>
    simp only [runLength, List.takeWhile_nil, List.length_nil, List.drop_nil] at hn hk ⊢
    omega
  | cons c cs ih =>
    cases n with
    | zero => simpa using hk
    | succ n =>
      rw [runLength_cons] at hn ⊢
      by_cases hc : p c
      · rw [if_pos hc] at hn ⊢
        have := ih (Nat.le_of_succ_le_succ hn) hk
        omega
      · rw [if_neg hc] at hn
        omega

theorem forall_mem_take_of_le_runLength {p : Char → Bool} {cs : Text} {n : Nat}
    (h : n ≤ runLength p cs) : ∀ c ∈ cs.take n, p c := by
  intro c hc
  have hstart : cs.take n <+: cs.takeWhile p := by
    rw [List.prefix_iff_eq_take.1 (List.takeWhile_prefix p)]
    exact List.take_prefix_take_left h
  exact List.all_eq_true.1 List.all_takeWhile c (hstart.mem hc)

/-! ## Patterns of one line -/

/-- A class without the two characters of line breaks. -/
theorem isInline_of_mem {p : Char → Bool} (hfeed : p '\n' = false) (hreturn : p '\r' = false)
    (c : Char) (h : p c) : isInline c := by
  rw [isInline, Bool.not_eq_true', Bool.eq_false_iff]
  intro hend
  simp only [isLineEnd, Bool.or_eq_true, beq_iff_eq] at hend
  rcases hend with rfl | rfl
  · rw [hfeed] at h
    cases h
  · rw [hreturn] at h
    cases h

theorem isInline_of_isDigit (c : Char) (h : c.isDigit) : isInline c :=
  isInline_of_mem (p := Char.isDigit) rfl rfl c h

theorem isInline_of_isWordPart (c : Char) (h : isWordPart c) : isInline c :=
  isInline_of_mem (p := isWordPart) rfl rfl c h

theorem isWordPart_of_isDigit {c : Char} (h : c.isDigit) : isWordPart c := by
  simp [isWordPart, Char.isAlphanum, h]

theorem isWordPart_of_isHexDigit {c : Char} (h : isHexDigit c) : isWordPart c := by
  simp only [isHexDigit, Bool.or_eq_true, Bool.and_eq_true, decide_eq_true_eq] at h
  rcases h with (h | ⟨hlo, hhi⟩) | ⟨hlo, hhi⟩
  · exact isWordPart_of_isDigit h
  all_goals
    rw [Char.le_def, UInt32.le_iff_toNat_le] at hlo hhi
    rw [Char.toNat_val, Char.toNat_val] at hlo hhi
    simp only [Char.reduceToNat] at hlo hhi
    have hletter : c.isAlpha := isAlpha_iff_toNat.2 (by omega)
    simp [isWordPart, Char.isAlphanum, hletter]

theorem isWordPart_of_isWordStart {c : Char} (h : isWordStart c) : isWordPart c := by
  simp only [isWordStart, isWordPart, Char.isAlphanum, Bool.or_eq_true] at h ⊢
  rcases h with h | h
  · exact Or.inl (Or.inl h)
  · exact Or.inr h

/-! ## Numbers

The characters of a number are word characters, points and minus signs. -/

section Numbers

variable {p : Char → Bool} (hpart : ∀ c, isWordPart c → p c)

include hpart

theorem runLength_digits_le (cs : Text) : runLength Char.isDigit cs ≤ runLength p cs :=
  runLength_mono (fun c hc => hpart c (isWordPart_of_isDigit hc)) cs

theorem integerLength_le_runLength (cs : Text) : integerLength cs ≤ runLength p cs := by
  cases cs with
  | nil => exact Nat.le_refl _
  | cons c cs =>
    simp only [integerLength]
    split
    next hzero =>
      rw [beq_iff_eq] at hzero
      exact le_runLength_cons (hpart c (by rw [hzero]; rfl)) (Nat.zero_le _)
    · split
      next hdigit =>
        exact le_runLength_cons (hpart c (isWordPart_of_isDigit hdigit))
          (runLength_digits_le hpart cs)
      · exact Nat.zero_le _

theorem fractionLength_le_runLength (hpoint : p '.') (cs : Text) :
    fractionLength cs ≤ runLength p cs := by
  unfold fractionLength
  split
  next rest =>
    have hrun := runLength_digits_le hpart rest
    split
    · exact Nat.zero_le _
    next n hn =>
      rw [hn] at hrun
      exact le_runLength_cons hpoint hrun
  · exact Nat.zero_le _

theorem exponentLength_le_runLength (hminus : p '-') (cs : Text) :
    exponentLength cs ≤ runLength p cs := by
  cases cs with
  | nil => exact Nat.le_refl _
  | cons e cs =>
    simp only [exponentLength]
    split
    next he =>
      have hletter : p e := by
        simp only [Bool.or_eq_true, beq_iff_eq] at he
        rcases he with rfl | rfl <;> exact hpart _ rfl
      split
      · exact Nat.zero_le _
      next n hn =>
        have hrun := runLength_digits_le hpart (cs.drop (if cs.head? == some '-' then 1 else 0))
        rw [hn] at hrun
        have hsign : (if cs.head? == some '-' then 1 else 0) ≤ runLength p cs := by
          split
          next hhead =>
            cases cs with
            | nil => simp at hhead
            | cons c cs =>
              have hc : c = '-' := by simpa using hhead
              exact le_runLength_cons (by rw [hc]; exact hminus) (Nat.zero_le _)
          · exact Nat.zero_le _
        have := le_runLength_cons hletter (add_le_runLength hsign hrun)
        omega
    · exact Nat.zero_le _

theorem suffixLength_le_runLength (cs : Text) : suffixLength cs ≤ runLength p cs := by
  cases cs with
  | nil => exact Nat.le_refl _
  | cons c cs =>
    simp only [suffixLength]
    split
    next hc =>
      simp only [Bool.or_eq_true, beq_iff_eq] at hc
      rcases hc with rfl | rfl <;> exact le_runLength_cons (hpart _ rfl) (Nat.zero_le _)
    · exact Nat.zero_le _

theorem decimalLength?_le_runLength (hpoint : p '.') (hminus : p '-') {cs : Text} {n : Nat}
    (h : decimalLength? cs = some n) : n ≤ runLength p cs := by
  simp only [decimalLength?] at h
  split at h
  · cases h
  · cases h
    have hwhole := integerLength_le_runLength hpart cs
    have hmantissa := add_le_runLength hwhole (fractionLength_le_runLength hpart hpoint _)
    have hscaled := add_le_runLength hmantissa (exponentLength_le_runLength hpart hminus _)
    exact add_le_runLength hscaled (suffixLength_le_runLength hpart _)

theorem octalLength?_le_runLength {cs : Text} {n : Nat} (h : octalLength? cs = some n) :
    n ≤ runLength p cs := by
  unfold octalLength? at h
  split at h
  next rest =>
    obtain ⟨k, hk, rfl⟩ := Option.map_eq_some_iff.1 h
    obtain ⟨rfl, -⟩ := nonzero_eq_some.1 hk
    exact le_runLength_cons (hpart _ rfl) (runLength_digits_le hpart rest)
  · cases h

theorem hexadecimalLength?_le_runLength {cs : Text} {n : Nat} (h : hexadecimalLength? cs = some n) :
    n ≤ runLength p cs := by
  unfold hexadecimalLength? at h
  split at h
  next x rest =>
    split at h
    next hx =>
      obtain ⟨k, hk, rfl⟩ := Option.map_eq_some_iff.1 h
      obtain ⟨rfl, -⟩ := nonzero_eq_some.1 hk
      have hletter : p x := by
        simp only [Bool.or_eq_true, beq_iff_eq] at hx
        rcases hx with rfl | rfl <;> exact hpart _ rfl
      have hdigits := runLength_mono (fun c hc => hpart c (isWordPart_of_isHexDigit hc)) rest
      exact le_runLength_cons (hpart _ rfl) (le_runLength_cons hletter hdigits)
    · cases h
  · cases h

theorem wordLength?_le_runLength {cs : Text} {n : Nat} (h : wordLength? cs = some n) :
    n ≤ runLength p cs := by
  cases cs with
  | nil => cases h
  | cons c cs =>
    simp only [wordLength?] at h
    split at h
    next hc =>
      cases h
      exact le_runLength_cons (hpart c (isWordPart_of_isWordStart hc)) (runLength_mono hpart cs)
    · cases h

end Numbers

/-! ## Patterns of one line -/

/-- A pattern of one line matches no character of a line break. -/
theorem length?_le_inline {lineStart : Bool} {cs : Text} {p : Pattern} {n : Nat}
    (hspans : p.spansLines = false) (hline : p ∉ [pragma, lineMarker, lineBreak])
    (h : p.length? lineStart cs = some n) : n ≤ runLength isInline cs := by
  cases p with
  | mark c rest =>
    simp only [length?] at h
    split at h
    next hpre =>
      cases h
      obtain ⟨tail, rfl⟩ := List.isPrefixOf_iff_prefix.1 hpre
      have hall : ∀ d ∈ c :: rest, isInline d :=
        List.all_eq_true.1 (Bool.not_inj (y := true) hspans)
      rw [runLength, List.takeWhile_append_of_pos hall, List.length_append, List.length_cons]
      omega
    · cases h
  | blanks =>
    obtain ⟨rfl, -⟩ := nonzero_eq_some.1 h
    exact runLength_mono (isInline_of_mem (p := isBlank) rfl rfl) cs
  | word => exact wordLength?_le_runLength isInline_of_isWordPart h
  | octal => exact octalLength?_le_runLength isInline_of_isWordPart h
  | hexadecimal => exact hexadecimalLength?_le_runLength isInline_of_isWordPart h
  | decimal => exact decimalLength?_le_runLength isInline_of_isWordPart rfl rfl h
  | lineComment =>
    simp only [length?, lineCommentLength?] at h
    split at h
    next rest =>
      cases h
      exact le_runLength_cons rfl (le_runLength_cons rfl (Nat.le_refl _))
    · cases h
  | quoted | propertyArgs | nativeType | fragmentBody | blockComment => cases hspans
  | pragma | lineMarker | lineBreak => exact absurd hline (by simp)

/-! ## Line feeds -/

theorem eq_nil_of_take_lineBreakLength {cs xs ys : Text}
    (h : cs.take (lineBreakLength cs) = xs ++ '\n' :: ys) : ys = [] := by
  unfold lineBreakLength at h
  split at h
  · cases xs with
    | nil => cases h
    | cons x xs =>
      have hlen := congrArg List.length h
      simp only [List.take_succ_cons, List.length_cons, List.length_append,
        List.length_take] at hlen
      exact List.eq_nil_of_length_eq_zero (by omega)
  · have hlen := congrArg List.length h
    split at hlen <;> simp only [List.take_succ_cons, List.take_zero, List.length_cons,
      List.length_append, List.length_nil] at hlen
    · exact List.eq_nil_of_length_eq_zero (by omega)
    · omega
  · simp at h

theorem eq_nil_of_take_lineLength {cs xs ys : Text}
    (h : cs.take (lineLength cs) = xs ++ '\n' :: ys) : ys = [] := by
  rw [lineLength, List.take_add] at h
  have hrun : '\n' ∉ cs.take (runLength isInline cs) := fun hmem =>
    absurd (forall_mem_take_of_le_runLength (Nat.le_refl _) _ hmem) (by decide)
  rcases List.append_eq_append_iff.1 h with ⟨zs, hxs, hbreak⟩ | ⟨zs, hline, hbreak⟩
  · exact eq_nil_of_take_lineBreakLength hbreak
  · cases zs with
    | nil =>
      rw [List.nil_append] at hbreak
      exact eq_nil_of_take_lineBreakLength (hbreak.symm.trans (List.nil_append _).symm)
    | cons z zs =>
      obtain ⟨rfl, -⟩ := List.cons.inj hbreak
      refine absurd ?_ hrun
      show '\n' ∈ cs.take (runLength (fun c => !isLineEnd c) cs)
      rw [hline]
      simp

/-- A line feed in a match is the last character of it, unless the pattern spans
    lines. -/
theorem eq_nil_of_take_eq {lineStart : Bool} {cs xs ys : Text} {p : Pattern} {n : Nat}
    (hspans : p.spansLines = false) (h : p.length? lineStart cs = some n)
    (htake : cs.take n = xs ++ '\n' :: ys) : ys = [] := by
  by_cases hline : p ∈ [pragma, lineMarker, lineBreak]
  · simp only [List.mem_cons, List.not_mem_nil, or_false] at hline
    rcases hline with rfl | rfl | rfl
    · simp only [length?] at h
      split at h
      · obtain ⟨_, _, rfl⟩ := Option.map_eq_some_iff.1 h
        exact eq_nil_of_take_lineLength htake
      · cases h
    · simp only [length?, lineMarkerLength?] at h
      split at h
      · cases hbody : afterLineWord? cs with
        | none => simp [hbody] at h
        | some body =>
          simp only [hbody, Option.bind_eq_bind, Option.bind_some] at h
          split at h
          · cases h
            exact eq_nil_of_take_lineLength htake
          · cases h
      · cases h
    · obtain ⟨rfl, -⟩ := nonzero_eq_some.1 h
      exact eq_nil_of_take_lineBreakLength htake
  · have hfeed : '\n' ∈ cs.take n := by
      rw [htake]
      simp
    have := forall_mem_take_of_le_runLength (length?_le_inline hspans hline h) _ hfeed
    exact absurd this (by decide)

end IdlFrontend.Pattern
