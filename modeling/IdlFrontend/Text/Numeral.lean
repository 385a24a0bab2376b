import IdlFrontend.Text.Basic

/-!
# Numerals

Reading digits in a base up to sixteen. The words of the language are 64 bits
wide: a line number has to fit the unsigned range, a number in a condition the
signed one.

Results:

* `ofDigits?_ofNat`: the decimal digits of a number read back as that number.
-/

namespace IdlFrontend

/-- The number of unsigned words. -/
def unsignedLimit : Nat := 18446744073709551616

/-- The number of signed words that are not negative. -/
def signedLimit : Nat := 9223372036854775808

/-- The value of a digit of either case, and 16 for a character that is none. -/
def digitValue (c : Char) : Nat :=
  if c.isDigit then c.toNat - '0'.toNat
  else if 'a' ≤ c ∧ c ≤ 'f' then c.toNat - 'a'.toNat + 10
  else if 'A' ≤ c ∧ c ≤ 'F' then c.toNat - 'A'.toNat + 10
  else 16

namespace Text

/-- The number that digits denote, read on from the number `n` that the digits
    before them denote. -/
def readDigits (base : Nat) : Nat → Text → Option Nat
  | n, [] => some n
  | n, c :: cs =>
    if digitValue c < base then readDigits base (n * base + digitValue c) cs else none

/-- The number that a non-empty text of digits denotes. -/
def ofDigits? (base : Nat) (cs : Text) : Option Nat :=
  if cs.isEmpty then none else readDigits base 0 cs

/-- The line number that a text of decimal digits denotes, if it fits 64 bits. -/
def lineNumber? (cs : Text) : Option Nat := (ofDigits? 10 cs).filter (· < unsignedLimit)

theorem readDigits_append (base n : Nat) (cs ds : Text) :
    readDigits base n (cs ++ ds) = (readDigits base n cs).bind fun m => readDigits base m ds := by
  induction cs generalizing n with
  | nil => rfl
  | cons c cs ih =>
    simp only [List.cons_append, readDigits]
    split
    · exact ih _
    · rfl

theorem digitValue_digitChar {d : Nat} (h : d < 10) : digitValue (Nat.digitChar d) = d := by
  match d, h with
  | 0, _ | 1, _ | 2, _ | 3, _ | 4, _ | 5, _ | 6, _ | 7, _ | 8, _ | 9, _ => decide

theorem ofNat_ne_nil (n : Nat) : ofNat n ≠ [] := Nat.toDigits_ne_nil

theorem isDigit_of_mem_ofNat {n : Nat} : ∀ c ∈ ofNat n, c.isDigit :=
  fun _ hc => Nat.isDigit_of_mem_toDigits (by omega) (by omega) hc

theorem ofDigits?_ofNat (n : Nat) : ofDigits? 10 (ofNat n) = some n := by
  have hread : readDigits 10 0 (ofNat n) = some n := by
    induction n using Nat.strongRecOn with
    | ind n ih =>
      by_cases hn : n < 10
      · rw [ofNat, Nat.toDigits_of_lt_base hn]
        simp [readDigits, digitValue_digitChar hn, hn]
      · rw [ofNat, Nat.toDigits_of_base_le (by omega) (by omega), readDigits_append]
        have hlt : n / 10 < n := by omega
        have := ih (n / 10) hlt
        rw [ofNat] at this
        have hmod : n % 10 < 10 := by omega
        simp [this, readDigits, digitValue_digitChar hmod, hmod]
        omega
  simp [ofDigits?, ofNat_ne_nil, hread]

end Text

end IdlFrontend
