import IdlFrontend.Text.LineBreak
import IdlFrontend.Text.Numeral

/-!
# Patterns of tokens

What the lexer looks for. A pattern says how many characters at the start of a
text it matches, if it matches there at all.

Results:

* `Pattern.length?_le`: a match does not extend beyond the text.
* `Pattern.length?_pos`: only the body of a code fragment can be empty.
-/

namespace IdlFrontend

/-- What the lexer looks for at one place. -/
inductive Pattern where
  /-- The given character followed by the given ones. -/
  | mark (c : Char) (cs : Text)
  | blanks
  | word
  | octal
  | hexadecimal
  | decimal
  | quoted (quote : Char)
  | propertyArgs
  | nativeType
  | fragmentBody
  | pragma
  | lineMarker
  | lineBreak
  | lineComment
  | blockComment
deriving DecidableEq, Repr

namespace Pattern

/-- The number of characters at the start of a text that satisfy `p`. Model of `skip_while`. -/
def runLength (p : Char → Bool) (cs : Text) : Nat := (cs.takeWhile p).length

/-- The length, unless it is zero. -/
def nonzero (n : Nat) : Option Nat := if n = 0 then none else some n

/-- The number of characters before the first `a` that is followed by `b`. -/
def lengthBefore? (a b : Char) : Text → Option Nat
  | [] => none
  | c :: cs => if c == a && cs.head? == some b then some 0 else (lengthBefore? a b cs).map (· + 1)

/-! ## Numbers -/

/-- A zero, or digits that do not begin with one. -/
def integerLength : Text → Nat
  | [] => 0
  | c :: cs => if c == '0' then 1 else if c.isDigit then runLength Char.isDigit cs + 1 else 0

/-- A point with at least one digit behind it. -/
def fractionLength : Text → Nat
  | '.' :: cs => match runLength Char.isDigit cs with
    | 0 => 0
    | n + 1 => n + 2
  | _ => 0

/-- An exponent letter with at least one digit behind it or behind a minus sign. -/
def exponentLength : Text → Nat
  | e :: cs =>
    if e == 'e' || e == 'E' then
      let sign := if cs.head? == some '-' then 1 else 0
      match runLength Char.isDigit (cs.drop sign) with
      | 0 => 0
      | n + 1 => n + 2 + sign
    else 0
  | [] => 0

/-- The letter that makes a number fixed-point. -/
def suffixLength : Text → Nat
  | c :: _ => if c == 'd' || c == 'D' then 1 else 0
  | [] => 0

/-- An integer part, a fraction or both, then an exponent and a suffix that may be missing. Model
    of `scan_decimal`. -/
def decimalLength? (cs : Text) : Option Nat :=
  let whole := integerLength cs
  let mantissa := whole + fractionLength (cs.drop whole)
  let scaled := mantissa + exponentLength (cs.drop mantissa)
  if mantissa = 0 then none else some (scaled + suffixLength (cs.drop scaled))

/-- A zero and at least one digit. Model of `scan_octal`. -/
def octalLength? : Text → Option Nat
  | '0' :: cs => (nonzero (runLength Char.isDigit cs)).map (· + 1)
  | _ => none

/-- A zero, an `x` of either case and at least one hexadecimal digit. Model of `scan_hex`. -/
def hexadecimalLength? : Text → Option Nat
  | '0' :: x :: cs =>
    if x == 'x' || x == 'X' then (nonzero (runLength isHexDigit cs)).map (· + 2) else none
  | _ => none

/-! ## Words and raw text -/

def wordLength? : Text → Option Nat
  | c :: cs => if isWordStart c then some (runLength isWordPart cs + 1) else none
  | [] => none

/-- The number of characters up to the closing quote, which must be there. A backslash takes the
    next character with it; a line break ends nothing. Model of `scan_quoted`. -/
def quotedLength? (quote : Char) : Text → Option Nat
  | [] => none
  | ['\\'] => none
  | '\\' :: _ :: cs => (quotedLength? quote cs).map (· + 2)
  | c :: cs => if c == quote then some 1 else (quotedLength? quote cs).map (· + 1)

/-- Text in parentheses, up to the first closing one. Model of `scan_prop_value`. -/
def propertyArgsLength? : Text → Option Nat
  | '(' :: cs =>
    let n := runLength (· != ')') cs
    if n < cs.length then some (n + 2) else none
  | _ => none

/-- A comment up to its end mark, which must be there. Model of `scan_block_comment`. -/
def blockCommentLength? : Text → Option Nat
  | '/' :: '*' :: cs => (lengthBefore? '*' '/' cs).map (· + 4)
  | _ => none

/-! ## Lines -/

/-- The number of characters of the line break that a text begins with. Model of `newline_len`. -/
def lineBreakLength : Text → Nat
  | '\r' :: '\n' :: _ => 2
  | c :: _ => if isLineEnd c then 1 else 0
  | [] => 0

/-- The number of characters up to the end of the line, its line break included. -/
def lineLength (cs : Text) : Nat :=
  let n := runLength (fun c => !isLineEnd c) cs
  n + lineBreakLength (cs.drop n)

/-- A comment up to the end of its line, the line break not included. Model of
    `scan_line_comment`. -/
def lineCommentLength? : Text → Option Nat
  | '/' :: '/' :: cs => some (runLength (fun c => !isLineEnd c) cs + 2)
  | _ => none

/-- What stands behind the number sign that a line begins with. Blanks before and after the sign
    are skipped. Model of `directive_start`. -/
def afterNumberSign? (cs : Text) : Option Text :=
  match cs.dropWhile isBlank with
  | '#' :: rest => some (rest.dropWhile isBlank)
  | _ => none

/-- What stands behind the word `pragma` in a pragma line. -/
def afterPragma? (cs : Text) : Option Text := do
  let body ← afterNumberSign? cs
  if "pragma".toList.isPrefixOf body then some (body.drop 6) else none

/-- What a line marker has behind its number sign and the word `line`, which may
    be missing. -/
def afterLineWord? (cs : Text) : Option Text := do
  let body ← afterNumberSign? cs
  return if "line".toList.isPrefixOf body then (body.drop 4).dropWhile isBlank else body

/-- The whole of a line marker. It must end in a line break. Model of `scan_line_marker`. -/
def lineMarkerLength? (cs : Text) : Option Nat := do
  let body ← afterLineWord? cs
  let beforeBreak := runLength (fun c => !isLineEnd c) cs
  if body.head?.any Char.isDigit && beforeBreak < cs.length then some (lineLength cs) else none

/-- How many characters of the text the pattern matches. `lineStart` says whether the text is at
    the start of a line. Model of `match_len`. -/
def length? (lineStart : Bool) (cs : Text) : Pattern → Option Nat
  | mark c rest => if (c :: rest).isPrefixOf cs then some (rest.length + 1) else none
  | blanks => nonzero (runLength isBlank cs)
  | word => wordLength? cs
  | octal => octalLength? cs
  | hexadecimal => hexadecimalLength? cs
  | decimal => decimalLength? cs
  | quoted quote =>
    match cs with
    | c :: rest => if c == quote then (quotedLength? quote rest).map (· + 1) else none
    | [] => none
  | propertyArgs => propertyArgsLength? cs
  | nativeType => nonzero (runLength (fun c => c != ')' && c != ';') cs)
  | fragmentBody => lengthBefore? '%' '}' cs
  | pragma => if lineStart then (afterPragma? cs).map fun _ => lineLength cs else none
  | lineMarker => if lineStart then lineMarkerLength? cs else none
  | lineBreak => nonzero (lineBreakLength cs)
  | lineComment => lineCommentLength? cs
  | blockComment => blockCommentLength? cs

/-! ## Bounds -/

theorem runLength_le (p : Char → Bool) (cs : Text) : runLength p cs ≤ cs.length :=
  (List.takeWhile_prefix p).length_le

theorem nonzero_eq_some {n k : Nat} : nonzero n = some k ↔ n = k ∧ 0 < k := by
  unfold nonzero
  split <;> simp <;> omega

theorem integerLength_le (cs : Text) : integerLength cs ≤ cs.length := by
  cases cs with
  | nil => simp [integerLength]
  | cons c cs =>
    have := runLength_le Char.isDigit cs
    simp only [integerLength, List.length_cons]
    split
    · omega
    · split <;> omega

theorem fractionLength_le (cs : Text) : fractionLength cs ≤ cs.length := by
  unfold fractionLength
  split
  next rest =>
    have := runLength_le Char.isDigit rest
    simp only [List.length_cons]
    split <;> omega
  · exact Nat.zero_le _

theorem exponentLength_le (cs : Text) : exponentLength cs ≤ cs.length := by
  cases cs with
  | nil => simp [exponentLength]
  | cons e cs =>
    simp only [exponentLength, List.length_cons]
    split
    · cases cs with
      | nil => simp [runLength]
      | cons c cs =>
        by_cases hc : c = '-'
        · have := runLength_le Char.isDigit cs
          simp only [hc, List.head?_cons, beq_self_eq_true, if_true, List.drop_one,
            List.tail_cons, List.length_cons]
          split <;> omega
        · have := runLength_le Char.isDigit (c :: cs)
          simp only [List.head?_cons, Option.some_beq_some, beq_iff_eq, hc, if_false,
            List.drop_zero, List.length_cons] at this ⊢
          split <;> omega
    · exact Nat.zero_le _

theorem suffixLength_le (cs : Text) : suffixLength cs ≤ cs.length := by
  cases cs with
  | nil => simp [suffixLength]
  | cons c cs =>
    simp only [suffixLength, List.length_cons]
    split <;> omega

theorem decimalLength?_bounds {cs : Text} {n : Nat} (h : decimalLength? cs = some n) :
    0 < n ∧ n ≤ cs.length := by
  have hwhole := integerLength_le cs
  have hmantissa := fractionLength_le (cs.drop (integerLength cs))
  generalize hm : integerLength cs + fractionLength (cs.drop (integerLength cs)) = m at hmantissa
  have hscaled := exponentLength_le (cs.drop m)
  generalize hs : m + exponentLength (cs.drop m) = k at hscaled
  have hsuffix := suffixLength_le (cs.drop k)
  simp only [decimalLength?, hm, hs] at h
  simp only [List.length_drop] at hmantissa hscaled hsuffix
  split at h
  · cases h
  · cases h
    omega

theorem octalLength?_bounds {cs : Text} {n : Nat} (h : octalLength? cs = some n) :
    0 < n ∧ n ≤ cs.length := by
  unfold octalLength? at h
  split at h
  next rest =>
    obtain ⟨k, hk, rfl⟩ := Option.map_eq_some_iff.1 h
    have := nonzero_eq_some.1 hk
    have := runLength_le Char.isDigit rest
    simp only [List.length_cons]
    omega
  · cases h

theorem hexadecimalLength?_bounds {cs : Text} {n : Nat} (h : hexadecimalLength? cs = some n) :
    0 < n ∧ n ≤ cs.length := by
  unfold hexadecimalLength? at h
  split at h
  next x rest =>
    split at h
    · obtain ⟨k, hk, rfl⟩ := Option.map_eq_some_iff.1 h
      have := nonzero_eq_some.1 hk
      have := runLength_le isHexDigit rest
      simp only [List.length_cons]
      omega
    · cases h
  · cases h

theorem wordLength?_bounds {cs : Text} {n : Nat} (h : wordLength? cs = some n) :
    0 < n ∧ n ≤ cs.length := by
  cases cs with
  | nil => cases h
  | cons c cs =>
    have := runLength_le isWordPart cs
    simp only [wordLength?] at h
    split at h
    · cases h
      simp only [List.length_cons]
      omega
    · cases h

theorem quotedLength?_le {quote : Char} {cs : Text} {n : Nat}
    (h : quotedLength? quote cs = some n) : n ≤ cs.length := by
  fun_induction quotedLength? quote cs generalizing n with
  | case1 => cases h
  | case2 => cases h
  | case3 _ cs ih =>
    obtain ⟨k, hk, rfl⟩ := Option.map_eq_some_iff.1 h
    have := ih hk
    simp only [List.length_cons]
    omega
  | case4 => cases h; simp
  | case5 c cs _ _ _ ih =>
    obtain ⟨k, hk, rfl⟩ := Option.map_eq_some_iff.1 h
    have := ih hk
    simp only [List.length_cons]
    omega

theorem propertyArgsLength?_bounds {cs : Text} {n : Nat} (h : propertyArgsLength? cs = some n) :
    0 < n ∧ n ≤ cs.length := by
  unfold propertyArgsLength? at h
  split at h
  next rest =>
    dsimp only at h
    split at h
    · cases h
      simp only [List.length_cons]
      omega
    · cases h
  · cases h

theorem lengthBefore?_lt {a b : Char} {cs : Text} {n : Nat} (h : lengthBefore? a b cs = some n) :
    n + 1 < cs.length := by
  induction cs generalizing n with
  | nil => cases h
  | cons c cs ih =>
    simp only [lengthBefore?, Bool.and_eq_true, beq_iff_eq] at h
    split at h
    next hc =>
      cases h
      cases cs with
      | nil => simp at hc
      | cons d cs => simp
    · obtain ⟨k, hk, rfl⟩ := Option.map_eq_some_iff.1 h
      have := ih hk
      simp only [List.length_cons]
      omega

theorem blockCommentLength?_bounds {cs : Text} {n : Nat} (h : blockCommentLength? cs = some n) :
    0 < n ∧ n ≤ cs.length := by
  unfold blockCommentLength? at h
  split at h
  next rest =>
    obtain ⟨k, hk, rfl⟩ := Option.map_eq_some_iff.1 h
    have := lengthBefore?_lt hk
    simp only [List.length_cons]
    omega
  · cases h

theorem lineBreakLength_le (cs : Text) : lineBreakLength cs ≤ cs.length := by
  unfold lineBreakLength
  split
  · simp
  · split <;> simp
  · simp

theorem lineLength_le (cs : Text) : lineLength cs ≤ cs.length := by
  have h₁ := runLength_le (fun c => !isLineEnd c) cs
  have h₂ := lineBreakLength_le (cs.drop (runLength (fun c => !isLineEnd c) cs))
  simp only [List.length_drop] at h₂
  simp only [lineLength]
  omega

theorem lineLength_pos {cs : Text} (h : cs ≠ []) : 0 < lineLength cs := by
  cases cs with
  | nil => contradiction
  | cons c cs =>
    simp only [lineLength, runLength]
    by_cases hc : isLineEnd c
    · simp only [hc, Bool.not_true, List.takeWhile_cons, Bool.false_eq_true, if_false,
        List.length_nil, List.drop_zero, Nat.zero_add]
      unfold lineBreakLength
      split
      · omega
      next heq =>
        cases heq
        simp [hc]
      next heq => cases heq
    · simp only [hc, Bool.not_false, List.takeWhile_cons, if_true, List.length_cons]
      omega

theorem afterNumberSign?_nil : afterNumberSign? [] = none := rfl

theorem lineCommentLength?_bounds {cs : Text} {n : Nat} (h : lineCommentLength? cs = some n) :
    0 < n ∧ n ≤ cs.length := by
  unfold lineCommentLength? at h
  split at h
  next rest =>
    have := runLength_le (fun c => !isLineEnd c) rest
    cases h
    simp only [List.length_cons]
    omega
  · cases h

theorem lineMarkerLength?_bounds {cs : Text} {n : Nat} (h : lineMarkerLength? cs = some n) :
    0 < n ∧ n ≤ cs.length := by
  unfold lineMarkerLength? at h
  cases hb : afterLineWord? cs with
  | none => simp [hb] at h
  | some body =>
    simp only [hb, Option.bind_eq_bind, Option.bind_some] at h
    split at h
    next hc =>
      cases h
      simp only [Bool.and_eq_true, decide_eq_true_eq] at hc
      exact ⟨lineLength_pos (List.ne_nil_of_length_pos (by omega)), lineLength_le cs⟩
    · cases h

theorem length?_bounds {lineStart : Bool} {cs : Text} {p : Pattern} {n : Nat}
    (h : p.length? lineStart cs = some n) :
    n ≤ cs.length ∧ (0 < n ∨ p = fragmentBody) := by
  cases p with
  | mark c rest =>
    simp only [length?] at h
    split at h
    next hpre =>
      cases h
      have := (List.isPrefixOf_iff_prefix.1 hpre).length_le
      simp only [List.length_cons] at this
      omega
    · cases h
  | blanks =>
    have := nonzero_eq_some.1 h
    have := runLength_le isBlank cs
    omega
  | word => have := wordLength?_bounds h; omega
  | octal => have := octalLength?_bounds h; omega
  | hexadecimal => have := hexadecimalLength?_bounds h; omega
  | decimal => have := decimalLength?_bounds h; omega
  | quoted quote =>
    simp only [length?] at h
    split at h
    · split at h
      · obtain ⟨k, hk, rfl⟩ := Option.map_eq_some_iff.1 h
        have := quotedLength?_le hk
        simp only [List.length_cons]
        omega
      · cases h
    · cases h
  | propertyArgs => have := propertyArgsLength?_bounds h; omega
  | nativeType =>
    have := nonzero_eq_some.1 h
    have := runLength_le (fun c => c != ')' && c != ';') cs
    omega
  | fragmentBody => have := lengthBefore?_lt h; exact ⟨by omega, Or.inr rfl⟩
  | pragma =>
    simp only [length?] at h
    split at h
    · obtain ⟨body, hbody, rfl⟩ := Option.map_eq_some_iff.1 h
      refine ⟨lineLength_le cs, Or.inl (lineLength_pos ?_)⟩
      rintro rfl
      simp [afterPragma?, afterNumberSign?_nil] at hbody
    · cases h
  | lineMarker =>
    simp only [length?] at h
    split at h
    · have := lineMarkerLength?_bounds h; omega
    · cases h
  | lineBreak =>
    have := nonzero_eq_some.1 h
    have := lineBreakLength_le cs
    omega
  | lineComment => have := lineCommentLength?_bounds h; omega
  | blockComment => have := blockCommentLength?_bounds h; omega

theorem length?_le {lineStart : Bool} {cs : Text} {p : Pattern} {n : Nat}
    (h : p.length? lineStart cs = some n) : n ≤ cs.length := (length?_bounds h).1

theorem length?_pos {lineStart : Bool} {cs : Text} {p : Pattern} {n : Nat}
    (h : p.length? lineStart cs = some n) (hp : p ≠ fragmentBody) : 0 < n :=
  (length?_bounds h).2.resolve_right hp

end Pattern

end IdlFrontend
