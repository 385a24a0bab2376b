/-!
# Text and character classes

Every reader of this library works on `Text`, a list of Unicode scalar values.
This module holds the character classes that the language itself uses, all of
them ASCII, and the list operations that several readers share.

Results:

* `trimEnd_append_suffix`: trimming the end of a text removes a suffix of it.
* `splitAtFirst_eq`: cutting a text at a separator loses nothing but the
  separator.
-/

namespace IdlFrontend

/-- Text as a sequence of Unicode scalar values. -/
abbrev Text := List Char

instance : LawfulBEq Text := inferInstanceAs (LawfulBEq (List Char))

/-! ## Character classes -/

/-- A letter or an underscore: the first character of a word. -/
def isWordStart (c : Char) : Bool := c.isAlpha || c == '_'

/-- A letter, a digit or an underscore. -/
def isWordPart (c : Char) : Bool := c.isAlphanum || c == '_'

/-- A hexadecimal digit of either case. -/
def isHexDigit (c : Char) : Bool :=
  c.isDigit || ('a' ≤ c && c ≤ 'f') || ('A' ≤ c && c ≤ 'F')

/-- A blank inside a line: a space, a tab, a vertical tab or a form feed. -/
def isBlank (c : Char) : Bool := c == ' ' || c == '\t' || c == '\x0b' || c == '\x0c'

/-- One of the two characters that line breaks are made of. -/
def isLineEnd (c : Char) : Bool := c == '\n' || c == '\r'

theorem isAlpha_iff_toNat {c : Char} :
    c.isAlpha ↔ (65 ≤ c.toNat ∧ c.toNat ≤ 90) ∨ (97 ≤ c.toNat ∧ c.toNat ≤ 122) := by
  delta Char.isAlpha Char.isUpper Char.isLower
  simp [UInt32.le_iff_toNat_le]

theorem isWordStart_of_isDigit {c : Char} (h : c.isDigit) : isWordStart c = false := by
  obtain ⟨hlo, hhi⟩ := Char.isDigit_iff_toNat.1 h
  simp only [Char.reduceToNat] at hlo hhi
  rw [isWordStart, Bool.or_eq_false_iff, ← Bool.not_eq_true, isAlpha_iff_toNat,
    beq_eq_false_iff_ne]
  refine ⟨by omega, ?_⟩
  rintro rfl
  exact absurd hhi (by decide)

/-! ## Cutting and trimming -/

namespace Text

/-- The text without the characters at its end that satisfy `p`. -/
def trimEnd (p : Char → Bool) (cs : Text) : Text := (cs.reverse.dropWhile p).reverse

/-- The text without the characters at either end that satisfy `p`. -/
def trim (p : Char → Bool) (cs : Text) : Text := trimEnd p (cs.dropWhile p)

/-- The parts before and after the first character that satisfies `p`, if there
    is one. -/
def splitAtFirst (p : Char → Bool) (cs : Text) : Option (Text × Text) :=
  match cs.dropWhile (fun c => !p c) with
  | [] => none
  | _ :: after => some (cs.takeWhile (fun c => !p c), after)

/-- The texts one after the other, with `separator` between neighbours. -/
def join (separator : Text) (parts : List Text) : Text := List.intercalate separator parts

/-- The decimal digits of a number. -/
def ofNat (n : Nat) : Text := Nat.toDigits 10 n

theorem trimEnd_append_suffix (p : Char → Bool) (cs : Text) :
    trimEnd p cs ++ (cs.reverse.takeWhile p).reverse = cs := by
  rw [trimEnd, ← List.reverse_append, List.takeWhile_append_dropWhile, List.reverse_reverse]

theorem splitAtFirst_eq {p : Char → Bool} {cs before after : Text}
    (h : splitAtFirst p cs = some (before, after)) :
    ∃ c, cs = before ++ c :: after ∧ p c ∧ ∀ x ∈ before, p x = false := by
  unfold splitAtFirst at h
  split at h
  · cases h
  next c rest heq =>
    cases h
    refine ⟨c, ?_, ?_, fun x hx => ?_⟩
    · rw [← heq, List.takeWhile_append_dropWhile]
    · have hne : cs.dropWhile (fun c => !p c) ≠ [] := by rw [heq]; exact List.cons_ne_nil _ _
      have := List.head_dropWhile_not (fun c => !p c) hne
      simpa [heq] using this
    · have := List.all_takeWhile (p := fun c => !p c) (l := cs)
      simpa using List.all_eq_true.1 this x hx

end Text

end IdlFrontend
