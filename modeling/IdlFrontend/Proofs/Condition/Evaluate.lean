import Mathlib.Data.List.TakeWhile
import IdlFrontend.Proofs.Condition.Layout
import IdlFrontend.Proofs.Condition.Value

/-!
# Evaluating conditions

What is evaluated is a text in which the tokens of a phrase are laid out, and the result is the
outcome of the condition that the phrase expresses.

Results:

* `read_eq_ok_iff`: the sentences are the texts that are read, each as its condition.
* `evaluate_grammar`: the rendered conditions, the sentences, and the texts that have a value or
  fail only in evaluation.
* `evaluate_literal`: a number literal has its value, or is refused because no word holds that.
-/

namespace IdlFrontend.Condition

variable {cs : Text} {e : Expr}

/-- The tokens of a phrase for a whole condition are laid out in the text. -/
def Sentence (cs : Text) (e : Expr) : Prop := ∃ ts, Laid ts cs ∧ Phrase 0 ts e

/-- What is read is a sentence, and a reason for refusing a text is none of evaluation. -/
theorem read_spec (cs : Text) :
    match read cs with
    | .ok e => Sentence cs e
    | .error f => ¬f.IsFault := by
  have hscans := scan_spec cs
  unfold read
  cases hscan : scan cs with
  | error f => rwa [hscan] at hscans
  | ok ts =>
    have hcovers := yields_expr (ts.length + 1) ts
    rw [hscan] at hscans
    simp only [bind, Except.bind]
    cases hread : expr (ts.length + 1) ts with
    | error f => rwa [hread] at hcovers
    | ok r =>
      rw [hread] at hcovers
      obtain ⟨us, hts, hphrase⟩ := hcovers
      obtain ⟨e, rest⟩ := r
      cases rest with
      | nil => exact ⟨ts, hscans, by rwa [hts, List.append_nil]⟩
      | cons t rest => exact id

/-- The sentences are the texts that are read, each as its condition. -/
theorem read_eq_ok_iff : read cs = .ok e ↔ Sentence cs e := by
  constructor
  · intro h
    have hspec := read_spec cs
    rwa [h] at hspec
  · rintro ⟨ts, hlaid, hphrase⟩
    rw [read, scan_of_laid hlaid hphrase.wellOrdered.chain]
    simp only [bind, Except.bind, expr_eq_ok_iff.2 hphrase]
    rfl

theorem Sentence.evaluate_eq (h : Sentence cs e) : (evaluate cs).map Int64.toInt = e.outcome := by
  rw [← e.eval_eq_outcome, evaluate, read_eq_ok_iff.2 h]
  rfl

/-- A text that has a value or fails only in evaluation is a sentence. -/
theorem exists_sentence (h : ∀ f, evaluate cs = .error f → f.IsFault) : ∃ e, Sentence cs e := by
  have hspec := read_spec cs
  cases hread : read cs with
  | ok e => exact ⟨e, read_eq_ok_iff.1 hread⟩
  | error f =>
    rw [hread] at hspec
    refine absurd (h f ?_) hspec
    rw [evaluate, hread]
    rfl

/-- A condition is rendered as a phrase of its own, with no more parentheses than any other
    phrase for it has, and can be laid out as text unless it holds a negative number. Evaluating
    a text in which it is laid out, or in which any other phrase for it is, gives its outcome.
    No other text has a value or fails in evaluation. -/
theorem evaluate_grammar :
    (∀ e : Expr, Phrase 0 (e.tokens 0) e ∧
      (∀ ts, Phrase 0 ts e → (e.tokens 0).length ≤ ts.length) ∧
      ((∀ t ∈ e.tokens 0, t.IsWritable) → ∃ cs, Laid (e.tokens 0) cs) ∧
      ∀ cs, Laid (e.tokens 0) cs → (evaluate cs).map Int64.toInt = e.outcome) ∧
    (∀ cs e, Sentence cs e → (evaluate cs).map Int64.toInt = e.outcome) ∧
    ∀ cs, (∀ f, evaluate cs = .error f → f.IsFault) → ∃ e, Sentence cs e := by
  refine ⟨fun e => ?_, fun cs e => Sentence.evaluate_eq, fun cs => exists_sentence⟩
  have hphrase := e.phrase_tokens (Nat.zero_le 12)
  exact ⟨hphrase, fun ts hts => hts.length_tokens_le, exists_laid,
    fun cs hlaid => Sentence.evaluate_eq ⟨_, hlaid, hphrase⟩⟩

/-- The division fails, before the shift could. -/
theorem evaluate_quotient_shifted :
    Laid ((Expr.binary .shl (.binary .div (.number 1) (.number 0)) (.number 64)).tokens 0)
        "1/0<<64".toList ∧
      (evaluate "1/0<<64".toList).map Int64.toInt = .error .divisionByZero ∧
      ∃ e, Sentence "1/0<<64".toList e := by
  have hone : Spelled ['1'] (.number 1) := .number (literal_ofNat (n := 1) (by decide))
  have hzero : Spelled ['0'] (.number 0) := .number (literal_ofNat (n := 0) (by decide))
  have hcount : Spelled ['6', '4'] (.number 64) := .number (literal_ofNat (n := 64) (by decide))
  have hshift := (Laid.append (.nil (List.forall_mem_nil _)) hcount).append (.mark .shiftLeft)
  have hlaid : Laid [.number 1, .mark .slash, .number 0, .mark .shiftLeft, .number 64]
      "1/0<<64".toList := ((hshift.append hzero).append (.mark .slash)).append hone
  obtain ⟨hrendered, -, hsentence⟩ := evaluate_grammar
  have hvalue := (hrendered (.binary .shl (.binary .div (.number 1) (.number 0))
    (.number 64))).2.2.2 _ hlaid
  refine ⟨hlaid, hvalue, hsentence _ fun f hf => ?_⟩
  rw [hf] at hvalue
  cases hvalue
  trivial

/-! ## Number literals -/

/-- A text of letters and digits that begins with a digit is a number or nothing. -/
theorem evaluate_of_isAlphanum {c : Char} (hc : c.isDigit) (hcs : ∀ d ∈ cs, d.isAlphanum) :
    evaluate (c :: cs) = readNumber (c :: cs) := by
  have hwhite : ¬isWhiteSpace c := fun hwhite => by
    have hpart := Pattern.isWordPart_of_isDigit hc
    rw [isWordPart_of_isWhiteSpace hwhite] at hpart
    cases hpart
  have hscan : scan (c :: cs) = (readNumber (c :: cs)).map fun v => [.number v] := by
    rw [scan, if_neg hwhite, if_pos hc, List.takeWhile_eq_self_iff.2 hcs,
      List.dropWhile_eq_nil_iff.2 hcs, scan]
    cases readNumber (c :: cs) <;> rfl
  rw [evaluate, read, hscan]
  cases readNumber (c :: cs) <;> rfl

/-- **A number literal denotes its value or is rejected.** A decimal numeral without a zero in
    front, an octal or a hexadecimal one, with any number of the letters `u` and `l` of either
    case behind it, is evaluated to its value if that is below 2^63, and is an invalid number
    otherwise. -/
theorem evaluate_literal {digits suffix : Text} {n : Nat} (hdigits : Numeral digits n)
    (hsuffix : ∀ c ∈ suffix, isSuffixLetter c) :
    (evaluate (digits ++ suffix)).map Int64.toInt =
      if n < 2 ^ 63 then .ok (n : Int) else .error (.invalidNumber (digits ++ suffix)) := by
  have hread : evaluate (digits ++ suffix) = readNumber (digits ++ suffix) := by
    obtain ⟨d, ds, rfl, hd, hds, -⟩ := hdigits.exists_cons
    refine evaluate_of_isAlphanum hd (List.forall_mem_append.2 ⟨hds, fun c hc => ?_⟩)
    exact isAlphanum_of_isSuffixLetter (hsuffix c hc)
  have hlimit : signedLimit = 2 ^ 63 := rfl
  rw [hread, readNumber_numeral hdigits hsuffix, hlimit]
  by_cases hn : n < 2 ^ 63
  · rw [if_pos hn, if_pos hn, Except.map, Int64.toInt_ofNat_of_lt hn]
  · rw [if_neg hn, if_neg hn, Except.map]

/-- The greatest number that a word holds, written with a zero too many and letters behind it, and
    the next one. -/
theorem evaluate_literal_limit :
    (evaluate "0X07fffFFFFffffFFFFuL".toList).map Int64.toInt = .ok 9223372036854775807 ∧
      (evaluate "001000000000000000000000l".toList).map Int64.toInt =
        .error (.invalidNumber "001000000000000000000000l".toList) := by
  have hgreatest : Numeral "0X07fffFFFFffffFFFF".toList 9223372036854775807 :=
    numeral_iff.2 (by decide)
  have hnext : Numeral "001000000000000000000000".toList 9223372036854775808 :=
    numeral_iff.2 (by decide)
  have hunsignedLong : ∀ c ∈ "uL".toList, isSuffixLetter c := List.all_eq_true.1 (by decide)
  have hlong : ∀ c ∈ "l".toList, isSuffixLetter c := List.all_eq_true.1 (by decide)
  exact ⟨evaluate_literal hgreatest hunsignedLong, evaluate_literal hnext hlong⟩

end IdlFrontend.Condition
