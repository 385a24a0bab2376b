import Mathlib.Data.Int.Bitwise
import Mathlib.Data.Int.ModEq
import IdlFrontend.Proofs.Condition.Evaluate

/-!
# Arithmetic modulo 2^64

A condition of literals, names, signs, sums, products, bitwise operations and shifts to the left
by less than 64 has a value over the integers, where nothing overflows and a negative number has
infinitely many leading ones. The words of an evaluation are its last 64 bits at every step, so
that an overflow on the way does no harm. Division is not of this kind: its result depends on
all bits.

Results:

* `testBit_bits`: the last 64 bits of an integer, negative or not, are its own.
* `BinaryOp.value_wrap`: an operation on integers may as well be carried out on words.
* `Expr.Exact.outcome_eq`: such a condition has the value over the integers, wrapped around.
* `evaluate_modular`: so does a text for it, and quotients and remainders make up what is divided.
-/

namespace IdlFrontend.Condition

/-! ## Operations on integers -/

/-- The operation on integers behind a prefix operator of arithmetic. -/
def UnaryOp.integer? : UnaryOp → Option (Int → Int)
  | .not => none
  | .complement => some Int.lnot
  | .negate => some fun a => -a
  | .plus => some id

/-- The operation on integers behind an infix operator of arithmetic, division and shifts left
    out. -/
def BinaryOp.integer? : BinaryOp → Option (Int → Int → Int)
  | .bitOr => some Int.lor
  | .bitXor => some Int.xor
  | .bitAnd => some Int.land
  | .add => some fun a b => a + b
  | .sub => some fun a b => a - b
  | .mul => some fun a b => a * b
  | _ => none

/-- The condition is one of arithmetic, and has the value `n` over the integers. -/
inductive Expr.Exact : Expr → (n : Int) → Prop
  | number (value : Int64) : Exact (.number value) value.toInt
  | name : Exact .name 0
  | unary {op : UnaryOp} {f : Int → Int} {operand : Expr} {a : Int} :
      op.integer? = some f → Exact operand a → Exact (.unary op operand) (f a)
  | binary {op : BinaryOp} {f : Int → Int → Int} {left right : Expr} {a b : Int} :
      op.integer? = some f → Exact left a → Exact right b → Exact (.binary op left right) (f a b)
  | shift {left : Expr} {a : Int} {count : Int64} : Exact left a →
      0 ≤ count.toInt → count.toInt < 64 →
      Exact (.binary .shl left (.number count)) (a * 2 ^ count.toInt.toNat)

/-! ## Bits -/

/-- The last 64 bits of an integer, negative or not, are its own. -/
theorem testBit_bits (a : Int) (i : Nat) :
    (bits a).testBit i = (decide (i < 64) && a.testBit i) := by
  cases a with
  | ofNat m =>
    have hbits : bits (m : Int) = m % 2 ^ 64 := by
      unfold bits
      omega
    rw [Int.ofNat_eq_natCast, hbits, Nat.testBit_mod_two_pow]
    rfl
  | negSucc m =>
    have hbits : bits (Int.negSucc m) = 2 ^ 64 - (m % 2 ^ 64 + 1) := by
      unfold bits
      omega
    rw [hbits, Nat.testBit_two_pow_sub_succ (Nat.mod_lt m (by decide)), Nat.testBit_mod_two_pow]
    by_cases hi : i < 64 <;> simp [hi, Int.testBit]

theorem bits_lor (a b : Int) : bits (Int.lor a b) = bits a ||| bits b := by
  refine Nat.eq_of_testBit_eq fun i => ?_
  rw [Nat.testBit_or, testBit_bits, testBit_bits, testBit_bits, Int.testBit_lor,
    Bool.and_or_distrib_left]

theorem bits_xor (a b : Int) : bits (Int.xor a b) = bits a ^^^ bits b := by
  refine Nat.eq_of_testBit_eq fun i => ?_
  rw [Nat.testBit_xor, testBit_bits, testBit_bits, testBit_bits, Int.testBit_lxor,
    Bool.and_xor_distrib_left]

theorem bits_land (a b : Int) : bits (Int.land a b) = bits a &&& bits b := by
  refine Nat.eq_of_testBit_eq fun i => ?_
  rw [Nat.testBit_and, testBit_bits, testBit_bits, testBit_bits, Int.testBit_land]
  cases decide (i < 64) <;> rfl

/-- Wrapping around keeps the last 64 bits. -/
theorem bits_wrap (a : Int) : bits (wrap a) = bits a :=
  congrArg Int.toNat Int.bmod_emod

/-- The last 64 bits are all that wrapping around depends on. -/
theorem wrap_bits (a : Int) : wrap (bits a : Nat) = wrap a := by
  have hbits : (bits a : Int) = a % (2 ^ 64 : Nat) := by
    unfold bits
    omega
  rw [hbits]
  exact Int.emod_bmod a _

theorem wrap_toInt (v : Int64) : wrap v.toInt = v.toInt := by
  rw [wrap, ← Int64.toInt_toBitVec, BitVec.toInt_eq_toNat_bmod, Int.bmod_bmod]

theorem lnot_eq (a : Int) : Int.lnot a = -a - 1 := by
  cases a with
  | ofNat m =>
    show Int.negSucc m = -(m : Int) - 1
    omega
  | negSucc m =>
    show (m : Int) = -Int.negSucc m - 1
    omega

/-! ## Operations on words -/

/-- An operation on an integer may as well be carried out on its word. -/
theorem UnaryOp.value_wrap {op : UnaryOp} {f : Int → Int} (h : op.integer? = some f) (a : Int) :
    op.value (wrap a) = wrap (f a) := by
  cases op with
  | not => cases h
  | complement =>
    cases h
    rw [value, lnot_eq, wrap, wrap, wrap, Int.sub_eq_add_neg, ← Int.bmod_add_bmod,
      Int.bmod_neg_bmod, Int.bmod_add_bmod, Int.sub_eq_add_neg]
  | negate =>
    cases h
    exact Int.bmod_neg_bmod
  | plus =>
    cases h
    rfl

/-- An operation on two integers may as well be carried out on their words. -/
theorem BinaryOp.value_wrap {op : BinaryOp} {f : Int → Int → Int} (h : op.integer? = some f)
    (a b : Int) : op.value (wrap a) (wrap b) = wrap (f a b) := by
  cases op <;> cases h
  case bitOr => rw [value, bits_wrap, bits_wrap, ← bits_lor, wrap_bits]
  case bitXor => rw [value, bits_wrap, bits_wrap, ← bits_xor, wrap_bits]
  case bitAnd => rw [value, bits_wrap, bits_wrap, ← bits_land, wrap_bits]
  case add => rw [value, wrap, wrap, wrap, wrap, Int.bmod_add_bmod, Int.add_bmod_bmod]
  case sub => rw [value, wrap, wrap, wrap, wrap, Int.bmod_sub_bmod, Int.sub_bmod_bmod]
  case mul => rw [value, wrap, wrap, wrap, wrap, Int.bmod_mul_bmod, Int.mul_bmod_bmod]

/-- No operation of arithmetic fails. -/
theorem BinaryOp.fault?_of_integer {op : BinaryOp} {f : Int → Int → Int} (h : op.integer? = some f)
    (b : Int) : op.fault? b = none := by
  cases op <;> cases h <;> rfl

/-! ## Conditions -/

namespace Expr

variable {e : Expr} {n : Int}

theorem mem_operations_binary {op : BinaryOp} {left right : Expr} {o : Operation}
    (h : o ∈ (binary op left right).operations) :
    o ∈ left.operations ∨ o ∈ right.operations ∨ o = ⟨op, left.value, right.value⟩ := by
  rcases List.mem_append.1 h with h | h
  · exact .inl h
  · split at h
    · cases h
    · rcases List.mem_append.1 h with h | h
      · exact .inr (.inl h)
      · exact .inr (.inr (List.mem_singleton.1 h))

/-- The value is the one over the integers, wrapped around. -/
theorem Exact.value_eq (h : e.Exact n) : e.value = wrap n := by
  induction h with
  | number v => exact (wrap_toInt v).symm
  | name => rfl
  | unary hop _ ih => rw [value, ih, UnaryOp.value_wrap hop]
  | binary hop _ _ ihl ihr => rw [value, ihl, ihr, BinaryOp.value_wrap hop]
  | shift _ _ _ ih => rw [value, value, ih, BinaryOp.value, wrap, wrap, wrap, Int.bmod_mul_bmod]

/-- None of the operations fails. -/
theorem Exact.fault? (h : e.Exact n) : ∀ o ∈ e.operations, o.fault? = none := by
  induction h with
  | number | name => exact List.forall_mem_nil _
  | unary _ _ ih => exact ih
  | binary hop _ _ ihl ihr =>
    intro o ho
    rcases mem_operations_binary ho with ho | ho | rfl
    · exact ihl o ho
    · exact ihr o ho
    · exact BinaryOp.fault?_of_integer hop _
  | shift _ hpos hlt ih =>
    intro o ho
    rcases mem_operations_binary ho with ho | ho | rfl
    · exact ih o ho
    · cases ho
    · exact if_pos ⟨hpos, Int.le_of_lt_add_one hlt⟩

theorem Exact.outcome_eq (h : e.Exact n) : e.outcome = .ok (wrap n) := by
  have hnone : e.operations.findSome? Operation.fault? = none :=
    List.findSome?_eq_none_iff.2 h.fault?
  rw [outcome, outcomeOf, hnone, h.value_eq]

/-- Dividing by anything but zero gives a quotient and a remainder. -/
theorem eval_quotient {left right : Expr} {a b : Int64} (hleft : left.eval = .ok a)
    (hright : right.eval = .ok b) (hb : b ≠ 0) :
    (binary .div left right).eval = .ok (a / b) ∧ (binary .mod left right).eval = .ok (a % b) := by
  have heval (op : BinaryOp) (hop : ∀ a, ¬op.Decided a) :
      (binary op left right).eval = op.apply a b := by
    rw [eval_binary, hleft, hright]
    exact if_neg (hop _)
  rw [heval .div (by simp [BinaryOp.Decided]), heval .mod (by simp [BinaryOp.Decided])]
  exact ⟨if_neg hb, if_neg hb⟩

end Expr

/-- **Arithmetic is exact modulo 2^64.** A text for a condition of arithmetic is evaluated to the
    value over the integers, wrapped around, however large the values on the way are. A division by
    anything but zero has a quotient and a remainder: those of the integers, of which the quotient
    wraps around, and modulo 2^64 they make up the dividend. -/
theorem evaluate_modular :
    (∀ cs e n, Sentence cs e → e.Exact n → (evaluate cs).map Int64.toInt = .ok (wrap n)) ∧
    ∀ (left right : Expr) (a b : Int64), left.eval = .ok a → right.eval = .ok b → b ≠ 0 →
      ∃ q r : Int64, (Expr.binary .div left right).eval = .ok q ∧
        (Expr.binary .mod left right).eval = .ok r ∧ q.toInt = wrap (a.toInt.tdiv b.toInt) ∧
        r.toInt = a.toInt.tmod b.toInt ∧ a.toInt ≡ q.toInt * b.toInt + r.toInt [ZMOD 2 ^ 64] := by
  refine ⟨fun cs e n hsentence hexact => ?_, fun left right a b hleft hright hb => ?_⟩
  · rw [hsentence.evaluate_eq, hexact.outcome_eq]
  · obtain ⟨hdiv, hmod⟩ := Expr.eval_quotient hleft hright hb
    have hquotient : (a / b).toInt = wrap (a.toInt.tdiv b.toInt) := Int64.toInt_div a b
    have hremainder : (a % b).toInt = a.toInt.tmod b.toInt := Int64.toInt_mod a b
    refine ⟨a / b, a % b, hdiv, hmod, hquotient, hremainder, ?_⟩
    have hwrap : wrap (a.toInt.tdiv b.toInt) ≡ a.toInt.tdiv b.toInt [ZMOD 2 ^ 64] := Int.bmod_emod
    rw [hquotient, hremainder]
    calc a.toInt = a.toInt.tdiv b.toInt * b.toInt + a.toInt.tmod b.toInt :=
          (Int.tdiv_mul_add_tmod _ _).symm
      _ ≡ wrap (a.toInt.tdiv b.toInt) * b.toInt + a.toInt.tmod b.toInt [ZMOD 2 ^ 64] :=
          (hwrap.symm.mul_right _).add_right _

/-- A product that overflows under a mask, and the one quotient that does. -/
theorem evaluate_modular_extreme :
    let most : Expr := .number 9223372036854775807
    let masked : Expr :=
      .binary .bitAnd (.binary .mul most (.number 3)) (.unary .negate (.number 4))
    let least : Expr := .binary .sub (.unary .negate most) (.number 1)
    let minusOne : Expr := .unary .negate (.number 1)
    Sentence "9223372036854775807*3&-4".toList masked ∧
      masked.Exact (Int.land (9223372036854775807 * 3) (-4)) ∧
      (evaluate "9223372036854775807*3&-4".toList).map Int64.toInt = .ok 9223372036854775804 ∧
      least.eval = .ok (-9223372036854775808) ∧ minusOne.eval = .ok (-1) ∧
      ∃ q r : Int64, (Expr.binary .div least minusOne).eval = .ok q ∧
        (Expr.binary .mod least minusOne).eval = .ok r ∧
        (-9223372036854775808 : Int) ≡ q.toInt * (-1) + r.toInt [ZMOD 2 ^ 64] := by
  intro most masked least minusOne
  obtain ⟨hexact, hquotient⟩ := evaluate_modular
  have hsentence : Sentence "9223372036854775807*3&-4".toList masked :=
    read_eq_ok_iff.1 (by decide +kernel)
  have hmasked : masked.Exact (Int.land (9223372036854775807 * 3) (-4)) :=
    .binary rfl (.binary rfl (.number _) (.number _)) (.unary rfl (.number _))
  have hwrap : wrap (Int.land (9223372036854775807 * 3) (-4)) = 9223372036854775804 := by
    decide +kernel
  have hleast : least.eval = .ok (-9223372036854775808) := by decide
  have hminusOne : minusOne.eval = .ok (-1) := by decide
  obtain ⟨q, r, hdiv, hmod, -, -, hdivided⟩ :=
    hquotient least minusOne _ _ hleast hminusOne (by decide)
  exact ⟨hsentence, hmasked, (hexact _ _ _ hsentence hmasked).trans (congrArg _ hwrap), hleast,
    hminusOne, q, r, hdiv, hmod, hdivided⟩

end IdlFrontend.Condition
