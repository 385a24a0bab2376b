import IdlFrontend.Condition.Expr
import Mathlib.Algebra.Group.Int.Defs
import Mathlib.Algebra.Group.Nat.Defs
import Mathlib.Logic.Basic

/-!
# The value of a condition

The value of a condition as a whole number, and the operations that it takes. A value is always that
of a signed 64-bit word in two's complement: where an operation leaves their range, it wraps around.
The operations come in the order in which they are carried out, operands from left to right, and
operands that do not matter are left out.

Results:

* `BinaryOp.apply_eq`: what an infix operator makes of two words.
* `Expr.eval_eq_outcome`: a condition has its value unless an operation fails, and the first one
  that does is the reason.
-/

namespace IdlFrontend.Condition

/-! ## Numbers -/

/-- The signed 64-bit number with the same last 64 bits. -/
def wrap (n : Int) : Int := n.bmod (2 ^ 64)

/-- The last 64 bits of a number. -/
def bits (n : Int) : Nat := (n % 2 ^ 64).toNat

/-- A truth value as a number. -/
def truth (p : Prop) [Decidable p] : Int := if p then 1 else 0

/-- What a prefix operator makes of a number. -/
def UnaryOp.value : UnaryOp → Int → Int
  | .not, a => truth (a = 0)
  | .complement, a => wrap (-a - 1)
  | .negate, a => wrap (-a)
  | .plus, a => a

/-- What an infix operator makes of two numbers. -/
def BinaryOp.value : BinaryOp → Int → Int → Int
  | .or, a, b => truth (a ≠ 0 ∨ b ≠ 0)
  | .and, a, b => truth (a ≠ 0 ∧ b ≠ 0)
  | .bitOr, a, b => wrap (bits a ||| bits b : Nat)
  | .bitXor, a, b => wrap (bits a ^^^ bits b : Nat)
  | .bitAnd, a, b => wrap (bits a &&& bits b : Nat)
  | .eq, a, b => truth (a = b)
  | .ne, a, b => truth (a ≠ b)
  | .lt, a, b => truth (a < b)
  | .gt, a, b => truth (a > b)
  | .le, a, b => truth (a ≤ b)
  | .ge, a, b => truth (a ≥ b)
  | .shl, a, b => wrap (a * 2 ^ b.toNat)
  | .shr, a, b => a / 2 ^ b.toNat
  | .add, a, b => wrap (a + b)
  | .sub, a, b => wrap (a - b)
  | .mul, a, b => wrap (a * b)
  | .div, a, b => wrap (a.tdiv b)
  | .mod, a, b => a.tmod b

/-- Why the operator fails on a second operand. -/
def BinaryOp.fault? : BinaryOp → Int → Option ConditionError
  | .div, b | .mod, b => if b = 0 then some .divisionByZero else none
  | .shl, b | .shr, b => if 0 ≤ b ∧ b ≤ 63 then none else some .shiftCount
  | _, _ => none

/-- The left operand of a logical operator alone decides. -/
def BinaryOp.Decided (op : BinaryOp) (a : Int) : Prop :=
  (op = .or ∧ a ≠ 0) ∨ (op = .and ∧ a = 0)

instance (op : BinaryOp) (a : Int) : Decidable (op.Decided a) := by
  unfold BinaryOp.Decided
  infer_instance

/-! ## Operations -/

/-- An infix operator with the values of its operands. -/
structure Operation where
  op : BinaryOp
  left : Int
  right : Int

/-- Why an operation fails. -/
def Operation.fault? (o : Operation) : Option ConditionError := o.op.fault? o.right

/-- The value, unless one of the operations fails. The first of these gives the reason. -/
def outcomeOf (operations : List Operation) (value : Int) : Except ConditionError Int :=
  match operations.findSome? Operation.fault? with
  | some f => .error f
  | none => .ok value

namespace Expr

/-- The value of a condition. -/
def value : Expr → Int
  | .number value => value.toInt
  | .name => 0
  | .unary op operand => op.value operand.value
  | .binary op left right => op.value left.value right.value
  | .choice condition yes no => if condition.value ≠ 0 then yes.value else no.value

/-- The operations that the value takes, in their order. -/
def operations : Expr → List Operation
  | .number _ | .name => []
  | .unary _ operand => operand.operations
  | .binary op left right =>
    left.operations ++
      if op.Decided left.value then [] else right.operations ++ [⟨op, left.value, right.value⟩]
  | .choice condition yes no =>
    condition.operations ++ if condition.value ≠ 0 then yes.operations else no.operations

/-- The value of a condition, or the reason why it has none. -/
def outcome (e : Expr) : Except ConditionError Int := outcomeOf e.operations e.value

end Expr

/-! ## Words and numbers -/

variable {a b : Int64}

theorem toInt_eq_zero : a.toInt = 0 ↔ a = 0 := Int64.toInt_inj (y := 0)

theorem toInt_ofBool {p : Prop} [Decidable p] {v : Bool} (h : v = true ↔ p) :
    (ofBool v).toInt = truth p := by
  unfold ofBool truth
  by_cases hp : p
  · rw [if_pos (h.2 hp), if_pos hp]
    rfl
  · rw [if_neg (mt h.1 hp), if_neg hp]
    rfl

theorem bits_toInt (a : Int64) : bits a.toInt = a.toBitVec.toNat := by
  have hlt := a.toBitVec.isLt
  rw [bits, ← Int64.toInt_toBitVec, BitVec.toInt_eq_toNat_bmod]
  have hmod : ((a.toBitVec.toNat : Int).bmod (2 ^ 64)) % (2 ^ 64 : Nat) =
      a.toBitVec.toNat % (2 ^ 64 : Nat) := Int.bmod_emod
  omega

theorem toNat_count (h : 0 ≤ b.toInt ∧ b.toInt ≤ 63) :
    (b.toBitVec.smod 64).toNat = b.toInt.toNat := by
  have hsmod : (b.toBitVec.smod 64).toInt = b.toInt := by
    rw [BitVec.toInt_smod, Int64.toInt_toBitVec]
    exact Int.fmod_eq_of_lt h.1 (by show b.toInt < 64; omega)
  have hlt := (b.toBitVec.smod 64).isLt
  rw [BitVec.toInt_eq_toNat_cond] at hsmod
  split at hsmod <;> omega

theorem toInt_shiftLeft (h : 0 ≤ b.toInt ∧ b.toInt ≤ 63) :
    (a <<< b).toInt = wrap (a.toInt * 2 ^ b.toInt.toNat) := by
  have hbits : (bits a.toInt : Int) = a.toInt % (2 ^ 64 : Nat) := by
    unfold bits
    omega
  rw [← Int64.toInt_toBitVec, Int64.toBitVec_shiftLeft, BitVec.shiftLeft_eq', toNat_count h,
    BitVec.toInt_shiftLeft, Nat.shiftLeft_eq, ← bits_toInt, wrap, Int.natCast_mul, hbits,
    Int.emod_mul_bmod]
  simp

theorem toInt_shiftRight (h : 0 ≤ b.toInt ∧ b.toInt ≤ 63) :
    (a >>> b).toInt = a.toInt / 2 ^ b.toInt.toNat := by
  rw [← Int64.toInt_toBitVec, Int64.toBitVec_shiftRight, BitVec.sshiftRight_eq', toNat_count h,
    BitVec.toInt_sshiftRight, Int64.toInt_toBitVec, Int.shiftRight_eq_div_pow]
  simp

theorem toInt_or (a b : Int64) : (a ||| b).toInt = wrap (bits a.toInt ||| bits b.toInt : Nat) := by
  rw [bits_toInt, bits_toInt, ← Int64.toInt_toBitVec, Int64.toBitVec_or, BitVec.toInt_or]
  rfl

theorem toInt_xor (a b : Int64) : (a ^^^ b).toInt = wrap (bits a.toInt ^^^ bits b.toInt : Nat) := by
  rw [bits_toInt, bits_toInt, ← Int64.toInt_toBitVec, Int64.toBitVec_xor, BitVec.toInt_xor]
  rfl

theorem toInt_and (a b : Int64) : (a &&& b).toInt = wrap (bits a.toInt &&& bits b.toInt : Nat) := by
  rw [bits_toInt, bits_toInt, ← Int64.toInt_toBitVec, Int64.toBitVec_and, BitVec.toInt_and]
  rfl

theorem UnaryOp.toInt_apply (op : UnaryOp) (a : Int64) :
    (op.apply a).toInt = op.value a.toInt := by
  cases op with
  | not => exact toInt_ofBool (by simp [toInt_eq_zero])
  | complement => exact Int64.toInt_not a
  | negate => exact Int64.toInt_neg a
  | plus => rfl

/-- A word if the second operand is as the operator demands. -/
theorem map_ite_eq_outcomeOf {op : BinaryOp} {p : Prop} [Decidable p] {v : Int64}
    {f : ConditionError} {x y : Int} (hfault : op.fault? y = if p then none else some f)
    (h : p → v.toInt = op.value x y) :
    (if p then .ok v else .error f : Except ConditionError Int64).map Int64.toInt =
      outcomeOf [⟨op, x, y⟩] (op.value x y) := by
  have hoperation : outcomeOf [⟨op, x, y⟩] (op.value x y) =
      match op.fault? y with
      | some f => .error f
      | none => .ok (op.value x y) := by
    simp only [outcomeOf, List.findSome?_cons, Operation.fault?, List.findSome?_nil]
    cases op.fault? y <;> rfl
  rw [hoperation, hfault]
  by_cases hp : p
  · rw [if_pos hp, if_pos hp, Except.map, h hp]
  · rw [if_neg hp, if_neg hp, Except.map]

/-- What an infix operator makes of two words. -/
theorem BinaryOp.apply_eq (op : BinaryOp) (a b : Int64) :
    (op.apply a b).map Int64.toInt =
      outcomeOf [⟨op, a.toInt, b.toInt⟩] (op.value a.toInt b.toInt) := by
  have hword {v : Int64} (hfault : op.fault? b.toInt = none)
      (h : v.toInt = op.value a.toInt b.toInt) :
      Except.map Int64.toInt (Except.ok v : Except ConditionError Int64) =
        outcomeOf [⟨op, a.toInt, b.toInt⟩] (op.value a.toInt b.toInt) :=
    map_ite_eq_outcomeOf (p := True) (f := .divisionByZero) hfault fun _ => h
  have hcount : (0 ≤ b ∧ b < 64) ↔ (0 ≤ b.toInt ∧ b.toInt ≤ 63) := by
    rw [Int64.le_iff_toInt_le, Int64.lt_iff_toInt_lt]
    show (0 ≤ b.toInt ∧ b.toInt < 64) ↔ _
    omega
  have hdivisor (v : Int64) : (if b = 0 then .error .divisionByZero else .ok v) =
      (if b.toInt ≠ 0 then .ok v else .error .divisionByZero : Except ConditionError Int64) := by
    rw [ite_not, if_congr toInt_eq_zero.symm rfl rfl]
  cases op with
  | or => exact hword rfl (toInt_ofBool (by simp [toInt_eq_zero]))
  | and => exact hword rfl (toInt_ofBool (by simp [toInt_eq_zero]))
  | bitOr => exact hword rfl (toInt_or a b)
  | bitXor => exact hword rfl (toInt_xor a b)
  | bitAnd => exact hword rfl (toInt_and a b)
  | eq => exact hword rfl (toInt_ofBool (by simp [Int64.toInt_inj]))
  | ne => exact hword rfl (toInt_ofBool (by simp [Int64.toInt_inj]))
  | lt | gt => exact hword rfl (toInt_ofBool (by simp [Int64.lt_iff_toInt_lt]))
  | le | ge => exact hword rfl (toInt_ofBool (by simp [Int64.le_iff_toInt_le]))
  | add => exact hword rfl (Int64.toInt_add a b)
  | sub => exact hword rfl (Int64.toInt_sub a b)
  | mul => exact hword rfl (Int64.toInt_mul a b)
  | shl =>
    rw [apply, if_congr hcount rfl rfl]
    exact map_ite_eq_outcomeOf rfl toInt_shiftLeft
  | shr =>
    rw [apply, if_congr hcount rfl rfl]
    exact map_ite_eq_outcomeOf rfl toInt_shiftRight
  | div =>
    rw [apply, hdivisor]
    exact map_ite_eq_outcomeOf (ite_not ..).symm fun _ => Int64.toInt_div a b
  | mod =>
    rw [apply, hdivisor]
    exact map_ite_eq_outcomeOf (ite_not ..).symm fun _ => Int64.toInt_mod a b

/-! ## Evaluation -/

/-- A computation whose value is known, and one behind it. -/
theorem map_bind_eq_outcomeOf {x : Except ConditionError Int64}
    {f : Int64 → Except ConditionError Int64} {operations more : List Operation} {v w : Int}
    (hx : x.map Int64.toInt = outcomeOf operations v)
    (hf : ∀ a, a.toInt = v → (f a).map Int64.toInt = outcomeOf more w) :
    (x >>= f).map Int64.toInt = outcomeOf (operations ++ more) w := by
  unfold outcomeOf at hx ⊢
  rw [List.findSome?_append]
  cases hfault : operations.findSome? Operation.fault? with
  | some g =>
    rw [hfault] at hx
    cases x with
    | error g' => exact hx
    | ok a => cases hx
  | none =>
    rw [hfault] at hx
    cases x with
    | error g => cases hx
    | ok a => exact hf a (Except.ok.inj hx)

theorem BinaryOp.apply_of_decided {op : BinaryOp} {a : Int64} (h : op.Decided a.toInt) (y : Int) :
    (op.apply a 0).map Int64.toInt = .ok (op.value a.toInt y) := by
  rcases h with ⟨rfl, ha⟩ | ⟨rfl, ha⟩
  · exact congrArg _ (toInt_ofBool (by simpa [ha] using mt toInt_eq_zero.2 ha))
  · exact congrArg _ (toInt_ofBool (by simp [ha]))

namespace Expr

/-- The left operand is evaluated first, and then the right one unless the left one decides. -/
theorem eval_binary (op : BinaryOp) (left right : Expr) :
    eval (.binary op left right) = eval left >>= fun a =>
      if op.Decided a.toInt then op.apply a 0 else eval right >>= fun b => op.apply a b := by
  have hundecided (h : ∀ a, ¬op.Decided a)
      (heval : eval (.binary op left right) = do
        let a ← eval left
        op.apply a (← eval right)) : eval (.binary op left right) = eval left >>= fun a =>
          if op.Decided a.toInt then op.apply a 0 else eval right >>= fun b => op.apply a b := by
    rw [heval]
    exact congrArg _ (funext fun a => (if_neg (h _)).symm)
  cases op with
  | and =>
    rw [eval]
    refine congrArg _ (funext fun a => ?_)
    by_cases ha : a = 0
    · rw [if_pos ha, if_pos (.inr ⟨rfl, toInt_eq_zero.2 ha⟩), ha]
      rfl
    · have hne : (a != 0) = true := by simpa using ha
      rw [if_neg ha, if_neg (by simpa [BinaryOp.Decided, toInt_eq_zero] using ha)]
      simp only [BinaryOp.apply, hne, Bool.true_and]
      rfl
  | or =>
    rw [eval]
    refine congrArg _ (funext fun a => ?_)
    by_cases ha : a = 0
    · rw [if_neg (not_not_intro ha), if_neg (by simpa [BinaryOp.Decided, toInt_eq_zero] using ha),
        ha]
      rfl
    · have hne : (a != 0) = true := by simpa using ha
      rw [if_pos ha, if_pos (.inl ⟨rfl, mt toInt_eq_zero.1 ha⟩)]
      simp only [BinaryOp.apply, hne, Bool.true_or]
      rfl
  | _ => exact hundecided (by simp [BinaryOp.Decided]) rfl

/-- A condition has its value unless an operation fails, and the first one that does is the
    reason. -/
theorem eval_eq_outcome (e : Expr) : e.eval.map Int64.toInt = e.outcome := by
  induction e with
  | number value => rfl
  | name => rfl
  | unary op operand ih =>
    have hoperand : (eval (.unary op operand)).map Int64.toInt =
        outcomeOf (operand.operations ++ []) (op.value operand.value) :=
      map_bind_eq_outcomeOf ih fun a ha => by
        rw [← ha, ← op.toInt_apply]
        rfl
    rwa [List.append_nil] at hoperand
  | binary op left right ihl ihr =>
    rw [eval_binary]
    refine map_bind_eq_outcomeOf ihl fun a ha => ?_
    rw [value, ← ha]
    split
    next hdecided => exact BinaryOp.apply_of_decided hdecided right.value
    · exact map_bind_eq_outcomeOf ihr fun b hb => by rw [op.apply_eq, hb]
  | choice condition yes no ihc ihy ihn =>
    rw [eval]
    refine map_bind_eq_outcomeOf ihc fun a ha => ?_
    rw [value, ← ha, if_congr (not_congr toInt_eq_zero) rfl rfl,
      if_congr (not_congr toInt_eq_zero) rfl rfl]
    split
    · exact ihy
    · exact ihn

end Expr

end IdlFrontend.Condition
