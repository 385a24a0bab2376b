import IdlFrontend.Proofs.Layout.Steps
import IdlFrontend.Proofs.Lexer.Run
import IdlFrontend.Proofs.Lexer.TokenText

/-!
# Number literals

A number literal has one of three forms. It is octal, hexadecimal, or decimal with a fraction,
an exponent and a suffix that may be missing. The lexer tries the three forms separately, and
for a decimal number it reads one part after the other without looking ahead. Nothing is lost by
that: a part that could have been read shorter is followed by a character that no later part
begins with.

Results:

* `Numeral.exists_of_length?`, `Numeral.exists_length?`: the patterns of numbers match numerals
  only, and as much as the longest numeral of their form.
* `Numeral.text_injective`: a text is a numeral in one way at most.
* `Lexer.next_of_numeral`: where a numeral begins, the lexer reads the longest one.
-/

namespace IdlFrontend

/-- An exponent letter, a minus sign that may be missing, and digits. -/
structure Exponent where
  letter : Char
  isNegative : Bool
  digits : Text
deriving DecidableEq, Repr

/-- The forms of numbers, by their parts. -/
inductive Numeral where
  | octal (digits : Text)
  | hexadecimal (letter : Char) (digits : Text)
  | decimal (whole : Text) (fraction : Option Text) (exponent : Option Exponent)
      (suffix : Option Char)
deriving DecidableEq, Repr

/-- At least one digit, and nothing else. -/
def IsDigits (cs : Text) : Prop := cs ≠ [] ∧ ∀ c ∈ cs, c.isDigit

instance (cs : Text) : Decidable (IsDigits cs) := @instDecidableAnd _ _ _ (List.decidableBAll _ cs)

/-- Digits that may be missing. The first of several ones is no zero. -/
def IsWholePart (cs : Text) : Prop := (∀ c ∈ cs, c.isDigit) ∧ (cs.head? = some '0' → cs = ['0'])

instance (cs : Text) : Decidable (IsWholePart cs) :=
  @instDecidableAnd _ _ (List.decidableBAll _ cs) _

namespace Exponent

/-- The sign, if there is one. -/
def sign (e : Exponent) : Text := if e.isNegative then ['-'] else []

def text (e : Exponent) : Text := e.letter :: (e.sign ++ e.digits)

def IsProper (e : Exponent) : Prop := (e.letter = 'e' ∨ e.letter = 'E') ∧ IsDigits e.digits

instance (e : Exponent) : Decidable e.IsProper := inferInstanceAs (Decidable (_ ∧ _))

end Exponent

namespace Numeral

/-- A fraction with its point. -/
def fractionText (fraction : Option Text) : Text := fraction.elim [] ('.' :: ·)

def exponentText (exponent : Option Exponent) : Text := exponent.elim [] Exponent.text

def text : Numeral → Text
  | octal digits => '0' :: digits
  | hexadecimal letter digits => '0' :: letter :: digits
  | decimal whole fraction exponent suffix =>
    whole ++ fractionText fraction ++ exponentText exponent ++ suffix.toList

/-- The parts are spelled as their form asks for. -/
def IsProper : Numeral → Prop
  | octal digits => IsDigits digits
  | hexadecimal letter digits =>
    (letter = 'x' ∨ letter = 'X') ∧ digits ≠ [] ∧ ∀ c ∈ digits, isHexDigit c
  | decimal whole fraction exponent suffix =>
    IsWholePart whole ∧ (whole = [] → fraction.isSome) ∧ (∀ digits ∈ fraction, IsDigits digits) ∧
      (∀ e ∈ exponent, e.IsProper) ∧ ∀ c ∈ suffix, c = 'd' ∨ c = 'D'

-- Their characters are gone through one by one, and not those of the whole alphabet.
instance : (v : Numeral) → Decidable v.IsProper
  | octal digits => inferInstanceAs (Decidable (IsDigits digits))
  | hexadecimal _ digits =>
    have : Decidable (∀ c ∈ digits, isHexDigit c) := List.decidableBAll _ digits
    inferInstanceAs (Decidable (_ ∧ _ ∧ _))
  | decimal _ _ _ suffix =>
    have : Decidable (∀ c ∈ suffix, c = 'd' ∨ c = 'D') := Option.decidableForallMem suffix
    inferInstanceAs (Decidable (_ ∧ _ ∧ _ ∧ _ ∧ _))

/-- A suffix makes a decimal number fixed-point, a fraction or an exponent makes it
    floating-point. -/
def kind : Numeral → TokenKind
  | octal _ | hexadecimal _ _ => .integer
  | decimal _ fraction exponent suffix =>
    if suffix.isSome then .fixedPoint
    else if fraction.isSome || exponent.isSome then .floating
    else .integer

/-- The rule for numbers of the form. -/
def rule : Numeral → Rule
  | octal _ => ⟨.octal, .token .integer, .stay⟩
  | hexadecimal _ _ => ⟨.hexadecimal, .token .integer, .stay⟩
  | decimal _ _ _ _ => ⟨.decimal, .number, .stay⟩

/-- The text begins with the numeral, and with no other one that reaches as far. -/
structure IsLongest (v : Numeral) (cs : Text) : Prop where
  isProper : v.IsProper
  isPrefix : v.text <+: cs
  longest : ∀ u : Numeral, u.IsProper → u.text <+: cs → u = v ∨ u.text.length < v.text.length

end Numeral

namespace Pattern

/-! ## Parts of numbers -/

/-- A scanner reads all of `u` whatever stands behind it. It stops there unless it goes on with the
    next character. -/
structure Munches (scan : Text → Nat) (goesOn : Char → Bool) (u : Text) : Prop where
  le : ∀ x, u.length ≤ scan (u ++ x)
  eq : ∀ x : Text, (∀ c ∈ x.head?, goesOn c = false) → scan (u ++ x) = u.length

/-- What two scanners read one after the other. -/
def andThen (scan scan' : Text → Nat) (cs : Text) : Nat := scan cs + scan' (cs.drop (scan cs))

/-- The second part begins where the first one stops. So it does no harm that the first scanner
    reads as much as it can. -/
theorem Munches.append {scan scan' : Text → Nat} {goesOn goesOn' : Char → Bool} {u v : Text}
    (h : Munches scan goesOn u) (h' : Munches scan' goesOn' v)
    (hv : ∀ c ∈ v.head?, goesOn c = false) :
    Munches (andThen scan scan') (fun c => goesOn c || goesOn' c) (u ++ v) := by
  have hsecond (x : Text) (hscan : scan (u ++ (v ++ x)) = u.length) :
      andThen scan scan' (u ++ v ++ x) = u.length + scan' (v ++ x) := by
    rw [andThen, List.append_assoc, hscan, List.drop_left]
  cases v with
  | nil =>
    constructor
    · intro x
      have hle := h.le x
      rw [List.append_nil, andThen]
      omega
    · intro x hx
      have hfirst : scan (u ++ ([] ++ x)) = u.length :=
        h.eq x fun c hc => (Bool.or_eq_false_iff.1 (hx c hc)).1
      rw [hsecond x hfirst, h'.eq x fun c hc => (Bool.or_eq_false_iff.1 (hx c hc)).2,
        List.append_nil, List.length_nil, Nat.add_zero]
  | cons c v =>
    have hfirst (x : Text) : scan (u ++ (c :: v ++ x)) = u.length := h.eq _ hv
    constructor
    · intro x
      have hle := h'.le x
      rw [hsecond x (hfirst x), List.length_append]
      omega
    · intro x hx
      rw [hsecond x (hfirst x), h'.eq x fun c hc => (Bool.or_eq_false_iff.1 (hx c hc)).2,
        List.length_append]

/-- Where the first part ends does not depend on what follows. -/
theorem Munches.append_inj {scan : Text → Nat} {goesOn : Char → Bool} {u v x y : Text}
    (hu : Munches scan goesOn u) (hv : Munches scan goesOn v) (hx : ∀ c ∈ x.head?, goesOn c = false)
    (hy : ∀ c ∈ y.head?, goesOn c = false) (h : u ++ x = v ++ y) : u = v ∧ x = y := by
  refine List.append_inj h ?_
  rw [← hu.eq x hx, ← hv.eq y hy, h]

theorem munches_runLength {p : Char → Bool} {u : Text} (hu : ∀ c ∈ u, p c) :
    Munches (runLength p) p u := by
  have happend (x : Text) : runLength p (u ++ x) = u.length + runLength p x := by
    rw [runLength, List.takeWhile_append_of_pos hu, List.length_append, runLength]
  refine ⟨fun x => ?_, fun x hx => ?_⟩
  · rw [happend]
    omega
  · rw [happend, show runLength p x = 0 from runLength_append hx [], Nat.add_zero]

/-- At least one character of a run. -/
theorem runLength_pos {p : Char → Bool} {u : Text} (hne : u ≠ []) (hu : ∀ c ∈ u, p c) (x : Text) :
    0 < runLength p (u ++ x) := by
  have hle := (munches_runLength hu).le x
  have hlen := List.length_pos_iff.2 hne
  omega

theorem munches_integer {u : Text} (hu : IsWholePart u) : Munches integerLength Char.isDigit u := by
  cases u with
  | nil =>
    refine ⟨fun x => Nat.zero_le _, fun x hx => ?_⟩
    cases x with
    | nil => rfl
    | cons c x =>
      have hc : c.isDigit = false := hx c rfl
      have hzero : c ≠ '0' := by
        rintro rfl
        cases hc
      simp [integerLength, hzero, hc]
  | cons c u =>
    obtain ⟨hc, hdigits⟩ := List.forall_mem_cons.1 hu.1
    by_cases hzero : c = '0'
    · subst hzero
      have hnil : '0' :: u = ['0'] := hu.2 rfl
      rw [hnil]
      exact ⟨fun x => Nat.le_refl 1, fun x _ => rfl⟩
    · have hlength (x : Text) : integerLength (c :: u ++ x) =
          runLength Char.isDigit (u ++ x) + 1 := by
        simp [integerLength, hzero, hc]
      have hrun := munches_runLength hdigits
      refine ⟨fun x => ?_, fun x hx => ?_⟩
      · rw [hlength]
        exact Nat.succ_le_succ (hrun.le x)
      · rw [hlength, hrun.eq x hx]
        rfl

/-- The characters that a fraction goes on with, or begins with. -/
def inFraction (c : Char) : Bool := c.isDigit || c == '.'

theorem munches_fraction {fraction : Option Text} (hf : ∀ digits ∈ fraction, IsDigits digits) :
    Munches fractionLength inFraction (Numeral.fractionText fraction) := by
  cases fraction with
  | none =>
    refine ⟨fun x => Nat.zero_le _, fun x hx => ?_⟩
    refine fractionLength.eq_2 x fun cs heq => ?_
    subst heq
    cases hx '.' rfl
  | some digits =>
    obtain ⟨hne, hdigits⟩ := hf digits rfl
    have hlength (x : Text) :
        fractionLength ('.' :: digits ++ x) = runLength Char.isDigit (digits ++ x) + 1 := by
      have hpos := runLength_pos hne hdigits x
      rw [List.cons_append, fractionLength]
      split <;> omega
    have hrun := munches_runLength hdigits
    refine ⟨fun x => ?_, fun x hx => ?_⟩
    · show digits.length + 1 ≤ fractionLength ('.' :: digits ++ x)
      rw [hlength]
      exact Nat.succ_le_succ (hrun.le x)
    · show fractionLength ('.' :: digits ++ x) = digits.length + 1
      rw [hlength, hrun.eq x fun c hc => (Bool.or_eq_false_iff.1 (hx c hc)).1]

/-- The characters that an exponent goes on with, or begins with. -/
def inExponent (c : Char) : Bool := c.isDigit || (c == 'e' || c == 'E')

theorem exponentLength_cons {e : Char} (he : e = 'e' ∨ e = 'E') {sign cs : Text}
    (hsign : sign = [] ∧ cs.head? ≠ some '-' ∨ sign = ['-'])
    (hpos : 0 < runLength Char.isDigit cs) :
    exponentLength (e :: (sign ++ cs)) = 1 + sign.length + runLength Char.isDigit cs := by
  have hletter : (e == 'e' || e == 'E') = true := by simpa using he
  obtain ⟨n, hn⟩ : ∃ n, runLength Char.isDigit cs = n + 1 :=
    ⟨_, (Nat.succ_pred_eq_of_pos hpos).symm⟩
  rw [exponentLength, if_pos hletter]
  rcases hsign with ⟨rfl, hhead⟩ | rfl
  · have hminus : (cs.head? == some '-') = false := beq_eq_false_iff_ne.2 hhead
    rw [List.nil_append, hminus]
    simp only [Bool.false_eq_true, if_false, List.drop_zero, hn, List.length_nil]
    omega
  · simp only [List.singleton_append, List.head?_cons, beq_self_eq_true, if_true, List.drop_one,
      List.tail_cons, hn, List.length_singleton]
    omega

theorem munches_exponent {exponent : Option Exponent} (hexponent : ∀ e ∈ exponent, e.IsProper) :
    Munches exponentLength inExponent (Numeral.exponentText exponent) := by
  cases exponent with
  | none =>
    refine ⟨fun x => Nat.zero_le _, fun x hx => ?_⟩
    cases x with
    | nil => rfl
    | cons c x =>
      have hc := (Bool.or_eq_false_iff.1 (hx c rfl)).2
      show exponentLength (c :: x) = 0
      rw [exponentLength, hc]
      rfl
  | some e =>
    obtain ⟨hletter, hne, hdigits⟩ := hexponent e rfl
    have hhead (x : Text) : (e.digits ++ x).head? ≠ some '-' := by
      obtain ⟨c, cs, hcs⟩ := List.exists_cons_of_ne_nil hne
      rw [hcs] at hdigits ⊢
      rintro heq
      obtain rfl : c = '-' := Option.some.inj heq
      cases hdigits '-' List.mem_cons_self
    have hlength (x : Text) : exponentLength (e.text ++ x) =
        1 + e.sign.length + runLength Char.isDigit (e.digits ++ x) := by
      show exponentLength (e.letter :: (e.sign ++ e.digits ++ x)) = _
      rw [List.append_assoc]
      refine exponentLength_cons hletter ?_ (runLength_pos hne hdigits x)
      unfold Exponent.sign
      split
      · exact .inr rfl
      · exact .inl ⟨rfl, hhead x⟩
    have htext : e.text.length = 1 + e.sign.length + e.digits.length := by
      simp [Exponent.text]
      omega
    have hrun := munches_runLength hdigits
    refine ⟨fun x => ?_, fun x hx => ?_⟩
    · have hle := hrun.le x
      show e.text.length ≤ exponentLength (e.text ++ x)
      rw [hlength, htext]
      omega
    · show exponentLength (e.text ++ x) = e.text.length
      rw [hlength, htext, hrun.eq x fun c hc => (Bool.or_eq_false_iff.1 (hx c hc)).1]

/-- The letters of fixed-point numbers. -/
def isSuffix (c : Char) : Bool := c == 'd' || c == 'D'

theorem munches_suffix {suffix : Option Char} (hs : ∀ c ∈ suffix, c = 'd' ∨ c = 'D') :
    Munches suffixLength isSuffix suffix.toList := by
  cases suffix with
  | none =>
    refine ⟨fun x => Nat.zero_le _, fun x hx => ?_⟩
    cases x with
    | nil => rfl
    | cons c x =>
      have hc : (c == 'd' || c == 'D') = false := hx c rfl
      show suffixLength (c :: x) = 0
      rw [suffixLength, hc]
      rfl
  | some c =>
    have hc : (c == 'd' || c == 'D') = true := by simpa using hs c rfl
    have hlength (x : Text) : suffixLength ([c] ++ x) = 1 := by
      rw [List.singleton_append, suffixLength, if_pos hc]
    exact ⟨fun x => Nat.le_of_eq (hlength x).symm, fun x _ => hlength x⟩

/-! ## What the scanners read -/

theorem isWholePart_take (cs : Text) : IsWholePart (cs.take (integerLength cs)) := by
  cases cs with
  | nil => exact ⟨List.forall_mem_nil _, fun h => by cases h⟩
  | cons c cs =>
    rw [integerLength]
    split
    next hzero =>
      obtain rfl : c = '0' := beq_iff_eq.1 hzero
      exact ⟨List.forall_mem_singleton.2 rfl, fun _ => rfl⟩
    next hzero =>
      split
      next hdigit =>
        refine ⟨List.forall_mem_cons.2 ⟨hdigit, forall_mem_take_of_le_runLength (Nat.le_refl _)⟩,
          fun h => ?_⟩
        obtain rfl : c = '0' := Option.some.inj h
        exact absurd rfl hzero
      · exact ⟨List.forall_mem_nil _, fun h => by cases h⟩

theorem isDigits_take {cs : Text} (h : 0 < runLength Char.isDigit cs) :
    IsDigits (cs.take (runLength Char.isDigit cs)) :=
  ⟨take_runLength_ne_nil h, forall_mem_take_of_le_runLength (Nat.le_refl _)⟩

theorem exists_fraction (cs : Text) : ∃ fraction : Option Text,
    (∀ digits ∈ fraction, IsDigits digits) ∧
      cs.take (fractionLength cs) = Numeral.fractionText fraction := by
  have hnone : ∀ digits ∈ (none : Option Text), IsDigits digits := fun _ h => by cases h
  unfold fractionLength
  split
  next rest =>
    split
    · exact ⟨none, hnone, rfl⟩
    next n hn =>
      have hdigits : IsDigits (rest.take (runLength Char.isDigit rest)) := isDigits_take (by omega)
      rw [hn] at hdigits
      refine ⟨some (rest.take (n + 1)), fun digits hd => ?_, rfl⟩
      cases hd
      exact hdigits
  · exact ⟨none, hnone, rfl⟩

theorem exists_exponent (cs : Text) : ∃ exponent : Option Exponent,
    (∀ e ∈ exponent, e.IsProper) ∧ cs.take (exponentLength cs) = Numeral.exponentText exponent := by
  have hnone : ∀ e ∈ (none : Option Exponent), e.IsProper := fun _ h => by cases h
  cases cs with
  | nil => exact ⟨none, hnone, rfl⟩
  | cons c cs =>
    rw [exponentLength]
    split
    next hletter =>
      dsimp only
      split
      · exact ⟨none, hnone, rfl⟩
      next n hn =>
        have hdigits :
            IsDigits ((cs.drop (if cs.head? == some '-' then 1 else 0)).take (n + 1)) := by
          rw [← Nat.succ_eq_add_one, ← hn]
          exact isDigits_take (by omega)
        refine ⟨some ⟨c, cs.head? == some '-',
          (cs.drop (if cs.head? == some '-' then 1 else 0)).take (n + 1)⟩, fun e he => ?_, ?_⟩
        · cases he
          exact ⟨by simpa using hletter, hdigits⟩
        · show _ = c :: (Exponent.sign _ ++ _)
          have hsplit : n + 2 + (if cs.head? == some '-' then 1 else 0) =
              ((if cs.head? == some '-' then 1 else 0) + (n + 1)) + 1 := by omega
          rw [hsplit, List.take_succ_cons, List.take_add, Exponent.sign]
          split
          next hminus =>
            obtain ⟨cs, rfl⟩ := List.head?_eq_some_iff.1 (beq_iff_eq.1 hminus)
            rfl
          · rfl
    · exact ⟨none, hnone, rfl⟩

theorem exists_suffix (cs : Text) : ∃ suffix : Option Char,
    (∀ c ∈ suffix, c = 'd' ∨ c = 'D') ∧ cs.take (suffixLength cs) = suffix.toList := by
  have hnone : ∀ c ∈ (none : Option Char), c = 'd' ∨ c = 'D' := fun _ h => by cases h
  cases cs with
  | nil => exact ⟨none, hnone, rfl⟩
  | cons c cs =>
    rw [suffixLength]
    split
    next hc =>
      refine ⟨some c, fun d hd => ?_, rfl⟩
      cases hd
      simpa using hc
    · exact ⟨none, hnone, rfl⟩

/-- The scanner of decimal numbers reads their parts one after the other. -/
theorem decimalLength?_eq (cs : Text) : decimalLength? cs =
    if andThen integerLength fractionLength cs = 0 then none
    else some (andThen (andThen (andThen integerLength fractionLength) exponentLength)
      suffixLength cs) :=
  rfl

theorem take_andThen (scan scan' : Text → Nat) (cs : Text) :
    cs.take (andThen scan scan' cs) =
      cs.take (scan cs) ++ (cs.drop (scan cs)).take (scan' (cs.drop (scan cs))) := by
  rw [andThen, List.take_add]

end Pattern

namespace Numeral

open Pattern

variable {whole : Text} {fraction : Option Text} {exponent : Option Exponent} {suffix : Option Char}

/-! ## Numerals and their parts -/

/-- The characters that the parts behind the whole one begin with. -/
def separators : Text := ['.', 'e', 'E', 'd', 'D']

theorem mem_head_exponent (h : ∀ e ∈ exponent, e.IsProper) :
    ∀ c ∈ (exponentText exponent).head?, c = 'e' ∨ c = 'E' := by
  cases exponent with
  | none => intro c hc; cases hc
  | some e =>
    intro c hc
    obtain rfl : e.letter = c := Option.some.inj hc
    exact (h e rfl).1

theorem mem_head_suffix (h : ∀ c ∈ suffix, c = 'd' ∨ c = 'D') :
    ∀ c ∈ suffix.toList.head?, c = 'd' ∨ c = 'D' := by
  cases suffix with
  | none => intro c hc; cases hc
  | some d => exact fun c hc => h c hc

theorem fraction_stops (fraction : Option Text) :
    ∀ c ∈ (fractionText fraction).head?, c.isDigit = false := by
  cases fraction with
  | none => intro c hc; cases hc
  | some digits => intro c hc; cases hc; rfl

theorem exponent_stops (h : ∀ e ∈ exponent, e.IsProper) :
    ∀ c ∈ (exponentText exponent).head?, (c.isDigit || inFraction c) = false := by
  intro c hc
  rcases mem_head_exponent h c hc with rfl | rfl <;> rfl

theorem suffix_stops (h : ∀ c ∈ suffix, c = 'd' ∨ c = 'D') :
    ∀ c ∈ suffix.toList.head?, (c.isDigit || inFraction c || inExponent c) = false := by
  intro c hc
  rcases mem_head_suffix h c hc with rfl | rfl <;> rfl

/-- What the scanners read of the parts of a decimal numeral, up to each of them. -/
structure Munched (whole : Text) (fraction : Option Text) (exponent : Option Exponent)
    (suffix : Option Char) : Prop where
  integer : Munches integerLength Char.isDigit whole
  mantissa : Munches (andThen integerLength fractionLength) (fun c => c.isDigit || inFraction c)
    (whole ++ fractionText fraction)
  scaled : Munches (andThen (andThen integerLength fractionLength) exponentLength)
    (fun c => c.isDigit || inFraction c || inExponent c)
    (whole ++ fractionText fraction ++ exponentText exponent)
  all : Munches (andThen (andThen (andThen integerLength fractionLength) exponentLength)
    suffixLength) (fun c => c.isDigit || inFraction c || inExponent c || isSuffix c)
    (decimal whole fraction exponent suffix).text

theorem munched (h : (decimal whole fraction exponent suffix).IsProper) :
    Munched whole fraction exponent suffix := by
  obtain ⟨hwhole, -, hfraction, hexponent, hsuffix⟩ := h
  have h₁ := munches_integer hwhole
  have h₂ := h₁.append (munches_fraction hfraction) (fraction_stops fraction)
  have h₃ := h₂.append (munches_exponent hexponent) (exponent_stops hexponent)
  have h₄ := h₃.append (munches_suffix hsuffix) (suffix_stops hsuffix)
  exact ⟨h₁, h₂, h₃, h₄⟩

/-- Behind its whole part a decimal numeral goes on with a separator. -/
theorem mem_separators (h : (decimal whole fraction exponent suffix).IsProper) :
    ∀ c ∈ (fractionText fraction ++ exponentText exponent ++ suffix.toList).head?,
      c ∈ separators := by
  obtain ⟨-, -, -, hexponent, hsuffix⟩ := h
  intro c hc
  cases fraction with
  | some digits =>
    obtain rfl : '.' = c := Option.some.inj hc
    decide
  | none =>
    cases exponent with
    | some e =>
      rcases mem_head_exponent hexponent c hc with rfl | rfl <;> decide
    | none =>
      rcases mem_head_suffix hsuffix c hc with rfl | rfl <;> decide

theorem fractionText_injective {fraction' : Option Text}
    (h : fractionText fraction = fractionText fraction') : fraction = fraction' := by
  cases fraction <;> cases fraction' <;> cases h <;> rfl

theorem exponentText_injective {exponent' : Option Exponent} (he : ∀ e ∈ exponent, e.IsProper)
    (he' : ∀ e ∈ exponent', e.IsProper) (h : exponentText exponent = exponentText exponent') :
    exponent = exponent' := by
  have hminus {cs : Text} (hcs : IsDigits ('-' :: cs)) : False := by
    cases hcs.2 '-' List.mem_cons_self
  cases exponent with
  | none => cases exponent' <;> cases h; rfl
  | some e =>
    cases exponent' with
    | none => cases h
    | some e' =>
      obtain ⟨letter, isNegative, digits⟩ := e
      obtain ⟨letter', isNegative', digits'⟩ := e'
      obtain ⟨rfl, htail⟩ := List.cons.inj h
      have hdigits : IsDigits digits := (he _ rfl).2
      have hdigits' : IsDigits digits' := (he' _ rfl).2
      cases isNegative with
      | true =>
        cases isNegative' with
        | true =>
          obtain rfl : digits = digits' := (List.cons.inj htail).2
          rfl
        | false =>
          obtain rfl : '-' :: digits = digits' := htail
          exact (hminus hdigits').elim
      | false =>
        cases isNegative' with
        | true =>
          obtain rfl : digits = '-' :: digits' := htail
          exact (hminus hdigits).elim
        | false =>
          obtain rfl : digits = digits' := htail
          rfl

/-- The parts of a decimal numeral are what the scanners read. -/
theorem decimal_injective {whole' : Text} {fraction' : Option Text} {exponent' : Option Exponent}
    {suffix' : Option Char} (h : (decimal whole fraction exponent suffix).IsProper)
    (h' : (decimal whole' fraction' exponent' suffix').IsProper)
    (htext : (decimal whole fraction exponent suffix).text =
      (decimal whole' fraction' exponent' suffix').text) :
    decimal whole fraction exponent suffix = decimal whole' fraction' exponent' suffix' := by
  have hu := munched h
  have hv := munched h'
  obtain ⟨-, -, -, he, hs⟩ := h
  obtain ⟨-, -, -, he', hs'⟩ := h'
  obtain ⟨hscaled, hsuffix⟩ :=
    hu.scaled.append_inj hv.scaled (suffix_stops hs) (suffix_stops hs') htext
  obtain ⟨hmantissa, hexponent⟩ :=
    hu.mantissa.append_inj hv.mantissa (exponent_stops he) (exponent_stops he') hscaled
  obtain ⟨rfl, hfraction⟩ :=
    hu.integer.append_inj hv.integer (fraction_stops _) (fraction_stops _) hmantissa
  obtain rfl := fractionText_injective hfraction
  obtain rfl := exponentText_injective he he' hexponent
  obtain rfl : suffix = suffix' := by
    cases suffix <;> cases suffix' <;> cases hsuffix <;> rfl
  rfl

/-- A decimal numeral that begins with a zero goes on with a separator. -/
theorem mem_separators_of_zero (h : (decimal whole fraction exponent suffix).IsProper) {c : Char}
    {cs : Text} (htext : (decimal whole fraction exponent suffix).text = '0' :: c :: cs) :
    c ∈ separators := by
  have hnext := mem_separators h
  have hassoc : whole ++ (fractionText fraction ++ exponentText exponent ++ suffix.toList) =
      '0' :: c :: cs := by
    rw [← htext, text, List.append_assoc, List.append_assoc, List.append_assoc]
  cases whole with
  | nil =>
    obtain ⟨digits, rfl⟩ := Option.isSome_iff_exists.1 (h.2.1 rfl)
    cases hassoc
  | cons d ds =>
    obtain rfl : d = '0' := (List.cons.inj hassoc).1
    obtain rfl : ds = [] := (List.cons.inj (h.1.2 rfl)).2
    have htail : fractionText fraction ++ exponentText exponent ++ suffix.toList = c :: cs :=
      (List.cons.inj hassoc).2
    rw [htail] at hnext
    exact hnext c rfl

theorem not_mem_separators_of_isDigit {c : Char} (hc : c.isDigit) : c ∉ separators := by
  intro hmem
  simp only [separators, List.mem_cons, List.not_mem_nil, or_false] at hmem
  rcases hmem with rfl | rfl | rfl | rfl | rfl <;> cases hc

/-- A text is a numeral in one way at most. -/
theorem text_injective {u v : Numeral} (hu : u.IsProper) (hv : v.IsProper) (h : u.text = v.text) :
    u = v := by
  have hoctal {digits : Text} {v : Numeral} (hdigits : IsDigits digits) (hv : v.IsProper)
      (h : '0' :: digits = v.text) : v = octal digits := by
    obtain ⟨c, cs, rfl⟩ := List.exists_cons_of_ne_nil hdigits.1
    have hc := hdigits.2 c List.mem_cons_self
    cases v with
    | octal => cases h; rfl
    | hexadecimal letter =>
      cases h
      rcases hv.1 with rfl | rfl <;> cases hc
    | decimal => exact absurd (mem_separators_of_zero hv h.symm) (not_mem_separators_of_isDigit hc)
  have hhexadecimal {letter : Char} {digits : Text} {v : Numeral}
      (hletter : letter = 'x' ∨ letter = 'X') (hv : v.IsProper)
      (h : '0' :: letter :: digits = v.text) :
      v = hexadecimal letter digits := by
    cases v with
    | octal =>
      cases h
      have hdigit := hv.2 letter List.mem_cons_self
      rcases hletter with rfl | rfl <;> cases hdigit
    | hexadecimal => cases h; rfl
    | decimal =>
      have hmem := mem_separators_of_zero hv h.symm
      rcases hletter with rfl | rfl <;> exact absurd hmem (by decide)
  cases u with
  | octal => exact (hoctal hu hv h).symm
  | hexadecimal => exact (hhexadecimal hu.1 hv h).symm
  | decimal =>
    cases v with
    | octal => exact hoctal hv hu h.symm
    | hexadecimal => exact hhexadecimal hv.1 hu h.symm
    | decimal => exact decimal_injective hu hv h

/-! ## Numerals and patterns -/

/-- What the pattern of a form matches is a numeral of that form. -/
theorem exists_of_length? {p : Pattern} (hp : p ∈ [Pattern.octal, .hexadecimal, .decimal])
    {lineStart : Bool} {cs : Text} {n : Nat} (h : p.length? lineStart cs = some n) :
    ∃ v : Numeral, v.IsProper ∧ v.rule.pattern = p ∧ v.text = cs.take n := by
  simp only [List.mem_cons, List.not_mem_nil, or_false] at hp
  rcases hp with rfl | rfl | rfl
  · simp only [length?] at h
    unfold octalLength? at h
    split at h
    next rest =>
      obtain ⟨k, hk, rfl⟩ := Option.map_eq_some_iff.1 h
      obtain ⟨rfl, hpos⟩ := nonzero_eq_some.1 hk
      exact ⟨octal _, isDigits_take hpos, rfl, rfl⟩
    · cases h
  · simp only [length?] at h
    unfold hexadecimalLength? at h
    split at h
    next letter rest =>
      split at h
      next hletter =>
        obtain ⟨k, hk, rfl⟩ := Option.map_eq_some_iff.1 h
        obtain ⟨rfl, hpos⟩ := nonzero_eq_some.1 hk
        refine ⟨hexadecimal letter _, ⟨by simpa using hletter, take_runLength_ne_nil hpos,
          ?_⟩, rfl, rfl⟩
        exact forall_mem_take_of_le_runLength (Nat.le_refl _)
      · cases h
    · cases h
  · simp only [length?, decimalLength?_eq] at h
    split at h
    · cases h
    next hmantissa =>
      cases h
      have hwhole := isWholePart_take cs
      obtain ⟨fraction, hfraction, htext₂⟩ := exists_fraction (cs.drop (integerLength cs))
      obtain ⟨exponent, hexponent, htext₃⟩ :=
        exists_exponent (cs.drop (andThen integerLength fractionLength cs))
      obtain ⟨suffix, hsuffix, htext₄⟩ :=
        exists_suffix (cs.drop (andThen (andThen integerLength fractionLength) exponentLength cs))
      refine ⟨decimal (cs.take (integerLength cs)) fraction exponent suffix,
        ⟨hwhole, fun hnil => ?_, hfraction, hexponent, hsuffix⟩, rfl, ?_⟩
      · -- A number without digits in front has a fraction.
        cases fraction with
        | some digits => rfl
        | none =>
          refine absurd ?_ hmantissa
          have hlen : (cs.take (andThen integerLength fractionLength cs)).length = 0 := by
            rw [take_andThen, hnil, htext₂]
            rfl
          have hwhole := integerLength_le cs
          have hfraction := fractionLength_le (cs.drop (integerLength cs))
          rw [List.length_drop] at hfraction
          rw [List.length_take, andThen] at hlen
          rw [andThen]
          omega
      · rw [take_andThen, take_andThen, take_andThen, htext₂, htext₃, htext₄]
        rfl

/-- A pattern matches at least as much as any numeral of its form. -/
theorem exists_length? {v : Numeral} (hv : v.IsProper) {cs : Text} (hcs : v.text <+: cs)
    (lineStart : Bool) :
    ∃ n, v.rule.pattern.length? lineStart cs = some n ∧ v.text.length ≤ n := by
  obtain ⟨x, rfl⟩ := hcs
  cases v with
  | octal digits =>
    have hpos := runLength_pos hv.1 hv.2 x
    refine ⟨runLength Char.isDigit (digits ++ x) + 1, ?_,
      Nat.succ_le_succ ((munches_runLength hv.2).le x)⟩
    show (nonzero (runLength Char.isDigit (digits ++ x))).map (· + 1) = _
    rw [nonzero_eq_some.2 ⟨rfl, hpos⟩]
    rfl
  | hexadecimal letter digits =>
    obtain ⟨hletter, hne, hdigits⟩ := hv
    have hpos := runLength_pos hne hdigits x
    refine ⟨runLength isHexDigit (digits ++ x) + 2, ?_,
      Nat.add_le_add_right ((munches_runLength hdigits).le x) 2⟩
    have hx : (letter == 'x' || letter == 'X') = true := by simpa using hletter
    show (if _ then (nonzero (runLength isHexDigit (digits ++ x))).map (· + 2) else none) = _
    rw [if_pos hx, nonzero_eq_some.2 ⟨rfl, hpos⟩]
    rfl
  | decimal whole fraction exponent suffix =>
    have hmunched := munched hv
    refine ⟨_, ?_, hmunched.all.le x⟩
    show decimalLength? _ = _
    rw [decimalLength?_eq, if_neg]
    have hle := hmunched.mantissa.le (exponentText exponent ++ (suffix.toList ++ x))
    have hpos : 0 < (whole ++ fractionText fraction).length := by
      cases whole with
      | nil =>
        obtain ⟨digits, rfl⟩ := Option.isSome_iff_exists.1 (hv.2.1 rfl)
        exact Nat.succ_pos _
      | cons => exact Nat.succ_pos _
    rw [text, List.append_assoc, List.append_assoc (whole ++ fractionText fraction)]
    omega

/-- The rules of the three forms. -/
def rules : List Rule :=
  [⟨.octal, .token .integer, .stay⟩, ⟨.hexadecimal, .token .integer, .stay⟩,
    ⟨.decimal, .number, .stay⟩]

theorem rule_mem_rules (v : Numeral) : v.rule ∈ rules := by
  cases v <;> simp [rule, rules]

theorem rule_mem {mode : Mode} (hmode : mode ∈ [Mode.ordinary, .properties]) (v : Numeral) :
    v.rule ∈ Rule.inMode mode := by
  have hall : ∀ mode ∈ [Mode.ordinary, .properties], ∀ r ∈ rules, r ∈ Rule.inMode mode := by decide
  exact hall mode hmode v.rule v.rule_mem_rules

/-- No other rule has the same pattern. -/
theorem eq_rule {mode : Mode} (hmode : mode ∈ [Mode.ordinary, .properties]) {v : Numeral} {r : Rule}
    (hr : r ∈ Rule.inMode mode) (hp : v.rule.pattern = r.pattern) : r = v.rule := by
  have hall : ∀ mode ∈ [Mode.ordinary, .properties], ∀ r ∈ Rule.inMode mode, ∀ s ∈ rules,
      s.pattern = r.pattern → r = s := by decide
  exact hall mode hmode r hr v.rule v.rule_mem_rules hp

/-! ## Kinds -/

theorem exists_last_of_isDigits (u : Text) {digits : Text} (h : IsDigits digits) :
    ∃ c, (u ++ digits).getLast? = some c ∧ c.isDigit := by
  obtain ⟨hne, hdigits⟩ := h
  refine ⟨digits.getLast hne, ?_, hdigits _ (List.getLast_mem hne)⟩
  rw [List.getLast?_append, List.getLast?_eq_some_getLast hne]
  rfl

/-- Without a suffix, a decimal numeral ends in a digit. -/
theorem exists_last (h : (decimal whole fraction exponent none).IsProper) :
    ∃ c, (decimal whole fraction exponent none).text.getLast? = some c ∧ c.isDigit := by
  obtain ⟨hwhole, hmissing, hfraction, hexponent, -⟩ := h
  rw [text, Option.toList_none, List.append_nil]
  cases exponent with
  | some e =>
    have hlast :=
      exists_last_of_isDigits (whole ++ fractionText fraction ++ e.letter :: e.sign)
        (hexponent e rfl).2
    rwa [List.append_assoc] at hlast
  | none =>
    rw [exponentText, Option.elim_none, List.append_nil]
    cases fraction with
    | some digits =>
      have hlast := exists_last_of_isDigits (whole ++ ['.']) (hfraction digits rfl)
      rwa [List.append_assoc] at hlast
    | none =>
      have hne : whole ≠ [] := fun hnil => by cases hmissing hnil
      rw [fractionText, Option.elim_none, List.append_nil]
      exact exists_last_of_isDigits [] ⟨hne, hwhole.1⟩

/-- The kind of a decimal numeral can be told from its characters. -/
theorem decimalKind_text (h : (decimal whole fraction exponent suffix).IsProper) :
    decimalKind (decimal whole fraction exponent suffix).text =
      (decimal whole fraction exponent suffix).kind := by
  cases suffix with
  | some c =>
    have hc : (c == 'd' || c == 'D') = true := by simpa using h.2.2.2.2 c rfl
    rw [decimalKind, text, Option.toList_some, List.getLast?_concat, Option.any_some, if_pos hc]
    rfl
  | none =>
    obtain ⟨c, hlast, hc⟩ := exists_last h
    have hsuffix : (c == 'd' || c == 'D') = false := by
      refine Bool.eq_false_iff.2 fun hd => ?_
      rcases (by simpa using hd : c = 'd' ∨ c = 'D') with rfl | rfl <;> cases hc
    rw [decimalKind, hlast, Option.any_some, if_neg (by rw [hsuffix]; decide)]
    have hwhole : whole.any (fun c => c == '.' || c == 'e' || c == 'E') = false := by
      refine List.any_eq_false.2 fun d hd hpoint => ?_
      have hdigit := h.1.1 d hd
      have hletter : d = '.' ∨ d = 'e' ∨ d = 'E' := by simpa [or_assoc] using hpoint
      rcases hletter with rfl | rfl | rfl <;> cases hdigit
    have hfraction : (fractionText fraction).any (fun c => c == '.' || c == 'e' || c == 'E') =
        fraction.isSome := by
      cases fraction <;> rfl
    have hexponent : (exponentText exponent).any (fun c => c == '.' || c == 'e' || c == 'E') =
        exponent.isSome := by
      cases exponent with
      | none => rfl
      | some e =>
        obtain ⟨letter, isNegative, digits⟩ := e
        have hletter : letter = 'e' ∨ letter = 'E' := (h.2.2.2.1 _ rfl).1
        rcases hletter with rfl | rfl <;> rfl
    rw [text, Option.toList_none, List.append_nil, List.any_append, List.any_append, hwhole,
      hfraction, hexponent, Bool.false_or]
    rfl

theorem kind?_text {v : Numeral} (hv : v.IsProper) (d : Dialect) :
    v.rule.meaning.kind? d v.text = some v.kind := by
  cases v with
  | octal | hexadecimal => rfl
  | decimal => exact congrArg some (decimalKind_text hv)

theorem kind_ne_native (v : Numeral) : v.kind ≠ .keyword .native := by
  cases v with
  | octal | hexadecimal => rintro ⟨⟩
  | decimal =>
    rw [kind]
    split
    · rintro ⟨⟩
    · split <;> rintro ⟨⟩

theorem change_rule (v : Numeral) : v.rule.change = .stay := by
  cases v <;> rfl

end Numeral

/-! ## Where numerals begin -/

namespace Pattern

/-- A pattern that is no raw text, and no mark or quote that could stand in a word. -/
def avoidsWords : Pattern → Bool
  | mark c _ | quoted c => !isWordPart c
  | nativeType | fragmentBody => false
  | _ => true

/-- Only words and numbers begin like the rest of a word. -/
theorem mem_of_canBegin {p : Pattern} (hp : p.avoidsWords) {c : Char} (hc : isWordPart c)
    (h : p.canBegin c) :
    p ∈ [word, octal, hexadecimal, decimal] := by
  have hplain : isPlain c := by rw [isPlain, hc, Bool.true_or]
  cases p with
  | word | octal | hexadecimal | decimal => simp
  | mark e _ | quoted e =>
    have he : (!isWordPart e) = true := hp
    obtain rfl : e = c := beq_iff_eq.1 h
    rw [hc] at he
    cases he
  | propertyArgs | lineComment | blockComment =>
    rw [beq_iff_eq.1 h] at hc
    cases hc
  | blanks =>
    rw [canBegin, isBlank_of_isPlain hplain] at h
    cases h
  | lineBreak =>
    rw [canBegin, isLineEnd_of_isPlain hplain] at h
    cases h
  | pragma | lineMarker =>
    rw [canBegin, isBlank_of_isPlain hplain, Bool.false_or, beq_iff_eq] at h
    rw [h] at hc
    cases hc
  | nativeType | fragmentBody => cases hp

/-- Only the patterns of numbers begin with a digit. -/
theorem mem_of_canBegin_digit {p : Pattern} (hp : p.avoidsWords) {c : Char} (hc : c.isDigit)
    (h : p.canBegin c) : p ∈ [octal, hexadecimal, decimal] := by
  refine (List.mem_cons.1 (mem_of_canBegin hp (isWordPart_of_isDigit hc) h)).resolve_left ?_
  rintro rfl
  rw [canBegin, isWordStart_of_isDigit hc] at h
  cases h

/-- Only the pattern of words begins with a letter or an underscore. -/
theorem eq_word_of_canBegin {p : Pattern} (hp : p.avoidsWords) {c : Char} (hc : isWordStart c)
    (h : p.canBegin c) : p = word := by
  refine (List.mem_cons.1 (mem_of_canBegin hp (isWordPart_of_isWordStart hc) h)).resolve_right
    fun hmem => ?_
  have hdigit : c.isDigit ∨ c = '.' := by
    simp only [List.mem_cons, List.not_mem_nil, or_false] at hmem
    rcases hmem with rfl | rfl | rfl
    · exact .inl (beq_iff_eq.1 h ▸ rfl)
    · exact .inl (beq_iff_eq.1 h ▸ rfl)
    · rwa [canBegin, Bool.or_eq_true, beq_iff_eq] at h
  rcases hdigit with hdigit | rfl
  · rw [isWordStart_of_isDigit hdigit] at hc
    cases hc
  · cases hc

end Pattern

namespace Lexer


/-- The first character of a number is a digit, or a point with a digit behind it. -/
def BeginsNumeral (cs : Text) : Prop :=
  ∃ c rest, cs = c :: rest ∧ (c.isDigit ∨ c = '.' ∧ ∃ d ∈ rest.head?, d.isDigit)

/-- The rules of numbers are the only ones for such a text, for three points are no number. -/
theorem pattern_of_beginsNumeral {cs : Text} (hcs : BeginsNumeral cs) {mode : Mode}
    (hmode : mode ∈ [Mode.ordinary, .properties]) {r : Rule} (hr : r ∈ Rule.inMode mode)
    {lineStart : Bool} {n : Nat} (h : r.length? lineStart cs = some n) :
    r.pattern ∈ [Pattern.octal, .hexadecimal, .decimal] := by
  have havoids : ∀ mode ∈ [Mode.ordinary, .properties], ∀ r ∈ Rule.inMode mode,
      r.pattern.avoidsWords := by
    decide
  have hpoint : ∀ mode ∈ [Mode.ordinary, .properties], ∀ r ∈ Rule.inMode mode,
      r.pattern.canBegin '.' →
      r.pattern = .decimal ∨ r.pattern = .mark '.' ['.', '.'] := by
    decide
  obtain ⟨c, rest, rfl, hc | ⟨rfl, d, hd, hdd⟩⟩ := hcs
  · exact Pattern.mem_of_canBegin_digit (havoids mode hmode r hr) hc (Pattern.canBegin_of_length? h)
  · rcases hpoint mode hmode r hr (Pattern.canBegin_of_length? h) with hp | hp
    · rw [hp]
      decide
    · obtain ⟨tail, rfl⟩ := List.head?_eq_some_iff.1 hd
      have hne : d ≠ '.' := by
        rintro rfl
        cases hdd
      rw [Rule.length?, hp] at h
      simp [Pattern.length?, hne.symm] at h

theorem exists_isPrefix_of_beginsNumeral {cs : Text} (hcs : BeginsNumeral cs) :
    ∃ v : Numeral, v.IsProper ∧ v.rule.pattern = .decimal ∧ v.text <+: cs := by
  obtain ⟨c, rest, rfl, hc | ⟨rfl, d, hd, hdd⟩⟩ := hcs
  · refine ⟨.decimal [c] none none none, ⟨⟨List.forall_mem_singleton.2 hc, fun h => ?_⟩, ?_⟩, rfl,
      rest, rfl⟩
    · obtain rfl : c = '0' := Option.some.inj h
      rfl
    · simp
  · obtain ⟨tail, rfl⟩ := List.head?_eq_some_iff.1 hd
    refine ⟨.decimal [] (some [d]) none none, ⟨⟨List.forall_mem_nil _, fun h => by cases h⟩, ?_⟩,
      rfl, tail, rfl⟩
    simp [IsDigits, hdd]

/-- What the lexer reads as a token, and the lexer behind it. -/
theorem read_eq_of_kind? {l : Lexer} {n : Nat} {r : Rule} {kind : TokenKind}
    (hkind : r.meaning.kind? l.dialect (l.rest.take n) = some kind)
    (hnative : kind ≠ .keyword .native) :
    l.read n r = ⟨l.rest.take n, r, some ⟨kind, l.rest.take n, l.line⟩,
      (l.skip n).change r.change⟩ := by
  have hnote : r.meaning ∉ [.pragma, .lineMarker] := by
    intro hm
    simp only [List.mem_cons, List.not_mem_nil, or_false] at hm
    rcases hm with hm | hm <;> rw [hm] at hkind <;> cases hkind
  unfold read
  dsimp only
  rw [hkind, note_eq_self hnote, if_neg fun heq => hnative (Option.some.inj heq)]
  rfl

/-- Where a number begins, the rule of the longest numeral matches it and nothing more. -/
theorem exists_step?_of_numeral {l : Lexer} (hmode : l.mode ∈ [Mode.ordinary, .properties])
    (hrest : BeginsNumeral l.rest) :
    ∃ v : Numeral, v.IsLongest l.rest ∧ l.step? = some (l.read v.text.length v.rule) := by
  obtain ⟨w, hw, -, hwrest⟩ := exists_isPrefix_of_beginsNumeral hrest
  obtain ⟨k, hk, -⟩ := Numeral.exists_length? hw hwrest l.atLineStart
  cases hmatch : Rule.longestMatch l.atLineStart l.rest (Rule.inMode l.mode) with
  | none =>
    have hnone := Rule.longestMatch_eq_none_iff.1 hmatch w.rule (Numeral.rule_mem hmode w)
    rw [Rule.length?, hk] at hnone
    cases hnone
  | some best =>
    obtain ⟨n, r⟩ := best
    obtain ⟨hr, hlen⟩ := Rule.longestMatch_mem hmatch
    have hpattern := pattern_of_beginsNumeral hrest hmode hr hlen
    obtain ⟨v, hv, hvr, htext⟩ := Numeral.exists_of_length? hpattern hlen
    obtain rfl := Numeral.eq_rule hmode hr hvr
    have hn : v.text.length = n := by
      have hle := Pattern.length?_le hlen
      rw [htext, List.length_take]
      omega
    refine ⟨v, ⟨hv, htext ▸ List.take_prefix n l.rest, fun u hu hucs => ?_⟩, ?_⟩
    · obtain ⟨k, hk, hle⟩ := Numeral.exists_length? hu hucs l.atLineStart
      have hkn := Rule.length_le_of_longestMatch hmatch (Numeral.rule_mem hmode u) hk
      rcases Nat.lt_or_eq_of_le (Nat.le_trans hle hkn) with hlt | heq
      · exact .inr (by omega)
      · refine .inl (Numeral.text_injective hu hv ?_)
        rw [htext, List.prefix_iff_eq_take.1 hucs, heq]
    · rw [hn]
      exact step?_eq_some_iff.2 ⟨n, v.rule, hmatch, rfl⟩

/-- Where a number begins, in a property list or outside of one, the lexer reads the longest numeral
    as a token of its kind. -/
theorem next_of_numeral {l : Lexer} (hmode : l.mode ∈ [Mode.ordinary, .properties])
    (hrest : BeginsNumeral l.rest) :
    ∃ v : Numeral, v.IsLongest l.rest ∧
      l.next = (.ok (some ⟨v.kind, v.text, l.line⟩), l.skip v.text.length) := by
  obtain ⟨v, hlongest, hstep⟩ := exists_step?_of_numeral hmode hrest
  refine ⟨v, hlongest, ?_⟩
  have hne : l.rest ≠ [] := by
    obtain ⟨c, rest, heq, -⟩ := hrest
    rw [heq]
    exact List.cons_ne_nil c rest
  have htext : l.rest.take v.text.length = v.text :=
    (List.prefix_iff_eq_take.1 hlongest.isPrefix).symm
  have hkind : v.rule.meaning.kind? l.dialect (l.rest.take v.text.length) = some v.kind := by
    rw [htext, Numeral.kind?_text hlongest.isProper]
  rw [next_of_step hne hstep, read_eq_of_kind? hkind v.kind_ne_native, htext, v.change_rule]
  rfl

/-- A half-written exponent is not read with the number. -/
theorem next_of_half_exponent :
    (Numeral.decimal "12".toList none none none).IsLongest "12e-;".toList ∧
    (Lexer.ofText .omg "12e-;".toList).next =
      (.ok (some ⟨.integer, "12".toList, 1⟩), (Lexer.ofText .omg "12e-;".toList).skip 2) := by
  obtain ⟨v, hv, hnext⟩ :=
    next_of_numeral (l := Lexer.ofText .omg "12e-;".toList) (by decide) ⟨'1', _, rfl, .inl rfl⟩
  have hread : (Lexer.ofText .omg "12e-;".toList).next.1 =
      .ok (some ⟨.integer, "12".toList, 1⟩) := by
    decide +kernel
  rw [hnext] at hread
  have htext : v.text = "12".toList := congrArg Token.text (Option.some.inj (Except.ok.inj hread))
  obtain rfl : v = .decimal "12".toList none none none :=
    Numeral.text_injective hv.isProper (by decide) htext
  exact ⟨hv, hnext⟩

end Lexer

end IdlFrontend
