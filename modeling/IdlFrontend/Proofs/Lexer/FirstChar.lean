import IdlFrontend.Token.Rule

/-!
# The first character of a match

Results:

* `canBegin_of_length?`: the first character of a text tells most patterns apart.
* `lineStart_of_length?`: pragmas and markers begin a line.
-/

namespace IdlFrontend.Pattern

theorem head?_of_afterNumberSign? {cs body : Text} (h : afterNumberSign? cs = some body) :
    (cs.dropWhile isBlank).head? = some '#' := by
  unfold afterNumberSign? at h
  split at h
  next heq => rw [heq, List.head?_cons]
  · cases h

/-- Pragmas and markers are lines of their own, and a number sign comes first. -/
theorem lineStart_of_length? {lineStart : Bool} {cs : Text} {p : Pattern} {n : Nat}
    (hp : p = pragma ∨ p = lineMarker) (h : p.length? lineStart cs = some n) :
    lineStart = true ∧ (cs.dropWhile isBlank).head? = some '#' := by
  rcases hp with rfl | rfl
  · simp only [length?] at h
    split at h
    next hstart =>
      refine ⟨hstart, ?_⟩
      obtain ⟨body, hbody, -⟩ := Option.map_eq_some_iff.1 h
      simp only [afterPragma?, Option.bind_eq_bind, Option.bind_eq_some_iff] at hbody
      obtain ⟨rest, hrest, -⟩ := hbody
      exact head?_of_afterNumberSign? hrest
    · cases h
  · simp only [length?] at h
    split at h
    next hstart =>
      refine ⟨hstart, ?_⟩
      simp only [lineMarkerLength?, afterLineWord?, Option.bind_eq_bind,
        Option.bind_eq_some_iff] at h
      obtain ⟨body, ⟨rest, hrest, -⟩, -⟩ := h
      exact head?_of_afterNumberSign? hrest
    · cases h

/-- A line whose first character behind the blanks is a number sign begins with a blank
    or with the sign. -/
theorem exists_head_of_sign {cs : Text} (h : (cs.dropWhile isBlank).head? = some '#') :
    ∃ c ∈ cs.head?, isBlank c ∨ c = '#' := by
  cases cs with
  | nil => cases h
  | cons c cs =>
    refine ⟨c, rfl, ?_⟩
    by_cases hc : isBlank c
    · exact Or.inl hc
    · rw [List.dropWhile_cons_of_neg hc] at h
      exact Or.inr (Option.some.inj h)

theorem lineBreakLength_of_not_isLineEnd {c : Char} (h : isLineEnd c = false) (cs : Text) :
    lineBreakLength (c :: cs) = 0 := by
  unfold lineBreakLength
  split
  next heq =>
    obtain ⟨rfl, -⟩ := List.cons.inj heq
    cases h
  next heq =>
    obtain ⟨rfl, -⟩ := List.cons.inj heq
    rw [h]
    rfl
  next heq => cases heq

/-- Whether a pattern can match a text that begins with the given character. -/
def canBegin (c : Char) : Pattern → Bool
  | mark d _ => d == c
  | blanks => isBlank c
  | word => isWordStart c
  | octal | hexadecimal => c == '0'
  | decimal => c.isDigit || c == '.'
  | quoted quote => quote == c
  | propertyArgs => c == '('
  | nativeType | fragmentBody => true
  | pragma | lineMarker => isBlank c || c == '#'
  | lineBreak => isLineEnd c
  | lineComment | blockComment => c == '/'

theorem canBegin_of_decimalLength? {c : Char} {cs : Text} {n : Nat}
    (h : decimalLength? (c :: cs) = some n) : c.isDigit ∨ c = '.' := by
  refine Decidable.byContradiction fun hc => ?_
  rw [not_or] at hc
  have hzero : c ≠ '0' := by
    rintro rfl
    exact hc.1 rfl
  have hwhole : integerLength (c :: cs) = 0 := by simp [integerLength, hzero, hc.1]
  have hfraction : fractionLength (c :: cs) = 0 := by
    rw [fractionLength]
    exact fun rest h => hc.2 (List.cons.inj h).1
  simp [decimalLength?, hwhole, hfraction] at h

theorem canBegin_of_length? {lineStart : Bool} {c : Char} {cs : Text} {p : Pattern} {n : Nat}
    (h : p.length? lineStart (c :: cs) = some n) : p.canBegin c := by
  cases p with
  | mark d ds =>
    simp only [length?] at h
    split at h
    next hpre =>
      rw [List.isPrefixOf_cons_cons, Bool.and_eq_true] at hpre
      exact hpre.1
    · cases h
  | blanks =>
    refine Decidable.byContradiction fun hc => ?_
    have hblank : ¬isBlank c := hc
    have hzero : runLength isBlank (c :: cs) = 0 := by
      rw [runLength, List.takeWhile_cons_of_neg hblank]
      rfl
    rw [length?, hzero] at h
    cases h
  | word =>
    simp only [length?, wordLength?] at h
    split at h
    next hc => exact hc
    · cases h
  | octal =>
    simp only [length?] at h
    unfold octalLength? at h
    split at h
    next heq =>
      cases heq
      rfl
    · cases h
  | hexadecimal =>
    simp only [length?] at h
    unfold hexadecimalLength? at h
    split at h
    next heq =>
      cases heq
      rfl
    · cases h
  | decimal =>
    rw [canBegin, Bool.or_eq_true, beq_iff_eq]
    exact canBegin_of_decimalLength? h
  | quoted quote =>
    simp only [length?] at h
    split at h
    next hc => rw [canBegin, beq_iff_eq, beq_iff_eq.1 hc]
    · cases h
  | propertyArgs =>
    simp only [length?] at h
    unfold propertyArgsLength? at h
    split at h
    next heq =>
      cases heq
      rfl
    · cases h
  | nativeType | fragmentBody => rfl
  | pragma | lineMarker =>
    obtain ⟨d, hd, hsign⟩ := exists_head_of_sign (lineStart_of_length? (by simp) h).2
    cases hd
    simpa [canBegin] using hsign
  | lineBreak =>
    refine Decidable.byContradiction fun hc => ?_
    rw [length?, lineBreakLength_of_not_isLineEnd (Bool.eq_false_iff.2 hc)] at h
    cases h
  | lineComment =>
    simp only [length?] at h
    unfold lineCommentLength? at h
    split at h
    next heq =>
      cases heq
      rfl
    · cases h
  | blockComment =>
    simp only [length?] at h
    unfold blockCommentLength? at h
    split at h
    next heq =>
      cases heq
      rfl
    · cases h

theorem length?_of_not_canBegin {c : Char} {p : Pattern} (h : p.canBegin c = false)
    (lineStart : Bool) (cs : Text) : p.length? lineStart (c :: cs) = none := by
  refine Option.eq_none_iff_forall_ne_some.2 fun n hn => ?_
  rw [canBegin_of_length? hn] at h
  cases h

end IdlFrontend.Pattern
