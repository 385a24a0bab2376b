import IdlFrontend.Condition.Reading
import Mathlib.Algebra.Group.Nat.Defs

/-!
# Number literals

A number literal is a decimal, octal or hexadecimal numeral, with any number of the letters `u` and
`l` behind it. Its value has to fit a signed word.

Results:

* `ofDigits?_eq_some_iff`: digits have their positional value.
* `readNumber_numeral`: a numeral is read as its value, whatever suffix it has, if that fits.
* `readNumber_eq_ok_iff`: what is read as a number is a literal with its value.
* `literal_ofNat`: every number that fits has a literal.
-/

namespace IdlFrontend

namespace Text

/-- The value of digits in a base, each worth `base` times as much as the one behind it. -/
def positional (base : Nat) (ds : Text) : Nat := ds.foldl (fun n d => n * base + digitValue d) 0

theorem readDigits_eq_some_iff {base n m : Nat} {ds : Text} :
    readDigits base n ds = some m ↔
      (∀ d ∈ ds, digitValue d < base) ∧ ds.foldl (fun n d => n * base + digitValue d) n = m := by
  induction ds generalizing n with
  | nil => simp [readDigits]
  | cons d ds ih =>
    rw [readDigits, List.forall_mem_cons, List.foldl_cons]
    split
    next hd => rw [ih, and_iff_right hd]
    next hd => simp [hd]

/-- Digits have their positional value. -/
theorem ofDigits?_eq_some_iff {base m : Nat} {ds : Text} :
    ofDigits? base ds = some m ↔
      ds ≠ [] ∧ (∀ d ∈ ds, digitValue d < base) ∧ positional base ds = m := by
  unfold ofDigits?
  split
  next hempty => simp [List.isEmpty_iff.1 hempty]
  next hempty =>
    rw [readDigits_eq_some_iff, and_iff_right (mt List.isEmpty_iff.2 hempty), positional]

end Text

namespace Condition

/-- The numerals and their values. -/
inductive Numeral : Text → Nat → Prop
  | decimal {ds : Text} : ds ≠ [] → (∀ d ∈ ds, digitValue d < 10) →
      (∀ octal, ds = '0' :: octal → octal = []) → Numeral ds (Text.positional 10 ds)
  | octal {ds : Text} : ds ≠ [] → (∀ d ∈ ds, digitValue d < 8) →
      Numeral ('0' :: ds) (Text.positional 8 ds)
  | hexadecimal {x : Char} {ds : Text} : x = 'x' ∨ x = 'X' → ds ≠ [] →
      (∀ d ∈ ds, digitValue d < 16) → Numeral ('0' :: x :: ds) (Text.positional 16 ds)

/-- A letter that may stand behind a numeral. -/
def isSuffixLetter (c : Char) : Bool := c == 'u' || c == 'U' || c == 'l' || c == 'L'

/-- The number literals and their values. -/
def Literal (text : Text) (n : Nat) : Prop :=
  ∃ digits suffix, text = digits ++ suffix ∧ Numeral digits n ∧ (∀ c ∈ suffix, isSuffixLetter c) ∧
    n < 2 ^ 63

variable {text digits suffix : Text} {n : Nat}

theorem isAlphanum_of_digitValue {c : Char} (h : digitValue c < 16) : c.isAlphanum := by
  by_cases hdigit : c.isDigit
  · simp [Char.isAlphanum, hdigit]
  · have hletter : ('a' ≤ c ∧ c ≤ 'f') ∨ ('A' ≤ c ∧ c ≤ 'F') := by
      rw [digitValue, if_neg hdigit] at h
      split at h
      · left
        assumption
      · split at h
        · right
          assumption
        · exact absurd h (Nat.lt_irrefl 16)
    simp only [Char.le_def, UInt32.le_iff_toNat_le, Char.toNat_val, Char.reduceToNat] at hletter
    have halpha : c.isAlpha := isAlpha_iff_toNat.2 (by omega)
    simp [Char.isAlphanum, halpha]

theorem isDigit_of_digitValue {c : Char} (h : digitValue c < 10) : c.isDigit := by
  unfold digitValue at h
  split at h
  · assumption
  · split at h
    · omega
    · split at h <;> omega

theorem isSuffixLetter_of_digitValue {c : Char} (h : digitValue c < 16) :
    isSuffixLetter c = false := by
  refine Bool.eq_false_iff.2 fun hletter => ?_
  simp only [isSuffixLetter, Bool.or_eq_true, beq_iff_eq] at hletter
  rcases hletter with ((rfl | rfl) | rfl) | rfl <;> exact absurd h (by decide)

theorem isAlphanum_of_isSuffixLetter {c : Char} (h : isSuffixLetter c) : c.isAlphanum := by
  simp only [isSuffixLetter, Bool.or_eq_true, beq_iff_eq] at h
  rcases h with ((rfl | rfl) | rfl) | rfl <;> decide

/-! ## Numerals -/

/-- The value of a numeral. -/
def numeralValue? : Text → Option Nat
  | '0' :: 'x' :: hex => Text.ofDigits? 16 hex
  | '0' :: 'X' :: hex => Text.ofDigits? 16 hex
  | '0' :: d :: octal => Text.ofDigits? 8 (d :: octal)
  | decimal => Text.ofDigits? 10 decimal

/-- The base of a numeral is read off its first characters. -/
theorem numeral_iff : Numeral digits n ↔ numeralValue? digits = some n := by
  constructor
  · intro h
    cases h with
    | hexadecimal hx hne hds =>
      rcases hx with rfl | rfl
      · exact Text.ofDigits?_eq_some_iff.2 ⟨hne, hds, rfl⟩
      · exact Text.ofDigits?_eq_some_iff.2 ⟨hne, hds, rfl⟩
    | @octal ds hne hds =>
      obtain ⟨d, ds, rfl⟩ := List.exists_cons_of_ne_nil hne
      have hread := Text.ofDigits?_eq_some_iff.2 ⟨hne, hds, rfl⟩
      rw [List.forall_mem_cons] at hds
      unfold numeralValue?
      split
      next heq =>
        cases heq
        exact absurd hds.1 (by decide)
      next heq =>
        cases heq
        exact absurd hds.1 (by decide)
      next heq =>
        cases heq
        exact hread
      next _ _ hnot => exact absurd rfl (hnot _ _)
    | decimal hne hds hzero =>
      have hread := Text.ofDigits?_eq_some_iff.2 ⟨hne, hds, rfl⟩
      unfold numeralValue?
      split
      · cases hzero _ rfl
      · cases hzero _ rfl
      · cases hzero _ rfl
      · exact hread
  · intro h
    unfold numeralValue? at h
    split at h
    · obtain ⟨hne, hds, rfl⟩ := Text.ofDigits?_eq_some_iff.1 h
      exact .hexadecimal (.inl rfl) hne hds
    · obtain ⟨hne, hds, rfl⟩ := Text.ofDigits?_eq_some_iff.1 h
      exact .hexadecimal (.inr rfl) hne hds
    · obtain ⟨hne, hds, rfl⟩ := Text.ofDigits?_eq_some_iff.1 h
      exact .octal hne hds
    next hnot =>
      obtain ⟨hne, hds, rfl⟩ := Text.ofDigits?_eq_some_iff.1 h
      refine .decimal hne hds fun octal heq => ?_
      cases octal with
      | nil => rfl
      | cons d octal => exact absurd heq (hnot d octal)

/-- A numeral begins with a decimal digit and goes on with letters and digits. -/
theorem Numeral.exists_cons (h : Numeral digits n) : ∃ d ds, digits = d :: ds ∧ d.isDigit ∧
    (∀ c ∈ ds, c.isAlphanum) ∧ ∀ c ∈ digits.getLast?, isSuffixLetter c = false := by
  have hlast (ds : Text) {base : Nat} (hbase : base ≤ 16) (hds : ∀ d ∈ ds, digitValue d < base) :
      ∀ c ∈ ds.getLast?, isSuffixLetter c = false := fun c hc =>
    isSuffixLetter_of_digitValue (Nat.lt_of_lt_of_le (hds c (List.mem_of_getLast? hc)) hbase)
  have halphanum {ds : Text} {base : Nat} (hbase : base ≤ 16) (hds : ∀ d ∈ ds,
      digitValue d < base) :
      ∀ c ∈ ds, c.isAlphanum := fun c hc =>
    isAlphanum_of_digitValue (Nat.lt_of_lt_of_le (hds c hc) hbase)
  cases h with
  | @decimal ds hne hds _ =>
    obtain ⟨d, ds, rfl⟩ := List.exists_cons_of_ne_nil hne
    refine ⟨d, ds, rfl, isDigit_of_digitValue (hds d List.mem_cons_self), ?_, ?_⟩
    · exact fun c hc => halphanum (by decide) hds c (List.mem_cons_of_mem _ hc)
    · exact hlast _ (by decide) hds
  | @octal ds hne hds =>
    refine ⟨'0', ds, rfl, by decide, halphanum (by decide) hds, ?_⟩
    rw [List.getLast?_cons_of_ne_nil hne]
    exact hlast ds (by decide) hds
  | @hexadecimal x ds hx hne hds =>
    refine ⟨'0', x :: ds, rfl, by decide, ?_, ?_⟩
    · refine List.forall_mem_cons.2 ⟨?_, halphanum (Nat.le_refl 16) hds⟩
      rcases hx with rfl | rfl <;> decide
    · rw [List.getLast?_cons_of_ne_nil (List.cons_ne_nil _ _), List.getLast?_cons_of_ne_nil hne]
      exact hlast ds (Nat.le_refl 16) hds

/-! ## Literals -/

/-- A literal begins with a decimal digit and goes on with letters and digits. -/
theorem Literal.exists_cons (h : Literal text n) :
    ∃ c cs, text = c :: cs ∧ c.isDigit ∧ ∀ d ∈ cs, d.isAlphanum := by
  obtain ⟨digits, suffix, rfl, hnumeral, hsuffix, -⟩ := h
  obtain ⟨d, ds, rfl, hd, hds, -⟩ := hnumeral.exists_cons
  exact ⟨d, ds ++ suffix, rfl, hd, List.forall_mem_append.2
    ⟨hds, fun c hc => isAlphanum_of_isSuffixLetter (hsuffix c hc)⟩⟩

theorem trimEnd_suffix (hdigits : ∀ c ∈ digits.getLast?, isSuffixLetter c = false)
    (hsuffix : ∀ c ∈ suffix, isSuffixLetter c) :
    Text.trimEnd isSuffixLetter (digits ++ suffix) = digits := by
  rw [Text.trimEnd, List.reverse_append,
    List.dropWhile_append_of_pos fun c hc => hsuffix c (List.mem_reverse.1 hc)]
  rcases List.eq_nil_or_concat digits with rfl | ⟨ds, d, rfl⟩
  · rfl
  · have hd : ¬isSuffixLetter d := by simpa using hdigits d (by simp)
    rw [List.concat_eq_append, List.reverse_concat, List.dropWhile_cons_of_neg hd,
      ← List.reverse_concat, List.reverse_reverse]

theorem readNumber_eq (text : Text) :
    readNumber text = match numeralValue? (Text.trimEnd isSuffixLetter text) with
      | some n => if n < signedLimit then .ok (Int64.ofNat n) else .error (.invalidNumber text)
      | none => .error (.invalidNumber text) := by
  unfold readNumber numeralValue?
  rfl

/-- A numeral with letters behind it is read as its value, or refused if no word holds that. -/
theorem readNumber_numeral (hdigits : Numeral digits n) (hsuffix : ∀ c ∈ suffix, isSuffixLetter c) :
    readNumber (digits ++ suffix) =
      if n < signedLimit then .ok (Int64.ofNat n) else .error
        (.invalidNumber (digits ++ suffix)) := by
  obtain ⟨-, -, -, -, -, hlast⟩ := hdigits.exists_cons
  rw [readNumber_eq, trimEnd_suffix hlast hsuffix, numeral_iff.1 hdigits]

/-- What is read as a number is a literal with its value. -/
theorem readNumber_eq_ok_iff {v : Int64} :
    readNumber text = .ok v ↔ ∃ n, Literal text n ∧ v = Int64.ofNat n := by
  constructor
  · intro h
    rw [readNumber_eq] at h
    split at h
    next n hn =>
      split at h
      next hlimit =>
        cases h
        refine ⟨n, ⟨_, _, (Text.trimEnd_append_suffix isSuffixLetter text).symm, numeral_iff.2 hn,
          fun c hc => ?_, hlimit⟩, rfl⟩
        exact List.all_eq_true.1 List.all_takeWhile c (List.mem_reverse.1 hc)
      · cases h
    · cases h
  · rintro ⟨n, ⟨digits, suffix, rfl, hnumeral, hsuffix, hlimit⟩, rfl⟩
    rw [readNumber_numeral hnumeral hsuffix]
    exact if_pos hlimit

/-! ## Writing numbers -/

theorem head?_ofNat {n : Nat} (hn : n ≠ 0) : (Text.ofNat n).head? ≠ some '0' := by
  induction n using Nat.strongRecOn with
  | ind n ih =>
    by_cases hlt : n < 10
    · have hdigit : ∀ d < 10, d ≠ 0 → Nat.digitChar d ≠ '0' := by decide
      rw [Text.ofNat, Nat.toDigits_of_lt_base hlt]
      exact fun hhead => hdigit n hlt hn (Option.some.inj hhead)
    · rw [Text.ofNat, Nat.toDigits_of_base_le (by omega) (by omega)]
      have hfront := ih (n / 10) (by omega) (by omega)
      obtain ⟨d, ds, hds⟩ :=
        List.exists_cons_of_ne_nil (Nat.toDigits_ne_nil (n := n / 10) (b := 10))
      rw [Text.ofNat, hds] at hfront
      rwa [hds]

/-- Every number that fits a word has a literal: its decimal digits. -/
theorem literal_ofNat {n : Nat} (h : n < 2 ^ 63) : Literal (Text.ofNat n) n := by
  refine ⟨Text.ofNat n, [], (List.append_nil _).symm, ?_, List.forall_mem_nil _, h⟩
  obtain ⟨hne, hds, hvalue⟩ := Text.ofDigits?_eq_some_iff.1 (Text.ofDigits?_ofNat n)
  have hnumeral : Numeral (Text.ofNat n) (Text.positional 10 (Text.ofNat n)) := by
    refine .decimal hne hds fun octal heq => ?_
    by_cases hn : n = 0
    · rw [hn] at heq
      exact (List.cons.inj heq).2.symm
    · exact absurd (by rw [heq]; rfl) (head?_ofNat hn)
  rwa [hvalue] at hnumeral

end Condition

end IdlFrontend
