import IdlFrontend.Condition.Reading

/-!
# The grammar of conditions

A choice stands on level 0, the infix operators on the levels 1 to 10, of which level 1 is the
loosest. Those of one level group to the left. Level 11 has the prefix operators, and level 12 what
needs no parentheses.

A condition is rendered with parentheses where its level is looser than the place demands, and
nowhere else.

Results:

* `Phrase.loosen`: a condition stands wherever a looser one can.
* `Expr.phrase_tokens`: a rendered condition belongs to the grammar.
* `Phrase.length_tokens_le`: no phrase for the same condition has fewer tokens than it is rendered
  with.
-/

namespace IdlFrontend.Condition

/-! ## Operators -/

/-- The mark that denotes a prefix operator. -/
def UnaryOp.mark : UnaryOp → Mark
  | .not => .bang
  | .complement => .tilde
  | .negate => .minus
  | .plus => .plus

/-- The mark that denotes an infix operator. -/
def BinaryOp.mark : BinaryOp → Mark
  | .or => .orElse
  | .and => .andAlso
  | .bitOr => .bar
  | .bitXor => .caret
  | .bitAnd => .ampersand
  | .eq => .equal
  | .ne => .unequal
  | .lt => .less
  | .gt => .greater
  | .le => .lessEqual
  | .ge => .greaterEqual
  | .shl => .shiftLeft
  | .shr => .shiftRight
  | .add => .plus
  | .sub => .minus
  | .mul => .star
  | .div => .slash
  | .mod => .percent

/-- The level of an infix operator. Operators of higher levels bind tighter. -/
def BinaryOp.level : BinaryOp → Nat
  | .or => 1
  | .and => 2
  | .bitOr => 3
  | .bitXor => 4
  | .bitAnd => 5
  | .eq | .ne => 6
  | .lt | .gt | .le | .ge => 7
  | .shl | .shr => 8
  | .add | .sub => 9
  | .mul | .div | .mod => 10

theorem BinaryOp.level_pos (op : BinaryOp) : 0 < op.level := by cases op <;> decide

theorem BinaryOp.level_lt (op : BinaryOp) : op.level < 11 := by cases op <;> decide

theorem BinaryOp.mark_injective {op op' : BinaryOp} (h : op.mark = op'.mark) : op = op' := by
  cases op <;> cases op' <;> first | rfl | cases h

theorem UnaryOp.ofMark?_eq_some_iff {mark : Mark} {op : UnaryOp} :
    UnaryOp.ofMark? mark = some op ↔ op.mark = mark := by
  constructor
  · intro h
    cases mark <;> cases h <;> rfl
  · rintro rfl
    cases op <;> rfl

/-- The operators of a level, and the tighter levels behind it. -/
theorem BinaryOp.exists_drop_levels {k : Nat} (hk : k < 10) :
    ∃ operators, levels.drop k = operators :: levels.drop (k + 1) ∧
      ∀ mark op, operators.lookup mark = some op ↔ op.mark = mark ∧ op.level = k + 1 := by
  have hiff (operators : List (Mark × BinaryOp))
      (hmem : ∀ p ∈ operators, p.2.mark = p.1 ∧ p.2.level = k + 1)
      (hlookup : ∀ op : BinaryOp, op.level = k + 1 → operators.lookup op.mark = some op)
      (mark : Mark) (op : BinaryOp) :
      operators.lookup mark = some op ↔ op.mark = mark ∧ op.level = k + 1 := by
    constructor
    · intro h
      obtain ⟨front, back, rfl, -⟩ := List.lookup_eq_some_iff.1 h
      exact hmem (mark, op) (by simp)
    · rintro ⟨rfl, hlevel⟩
      exact hlookup op hlevel
  obtain rfl | rfl | rfl | rfl | rfl | rfl | rfl | rfl | rfl | rfl :
      k = 0 ∨ k = 1 ∨ k = 2 ∨ k = 3 ∨ k = 4 ∨ k = 5 ∨ k = 6 ∨ k = 7 ∨ k = 8 ∨ k = 9 := by omega
  all_goals exact ⟨_, rfl, hiff _ (by decide) fun op h => by cases op <;> first | rfl | cases h⟩

/-! ## Phrases -/

/-- The phrases of each level, and the conditions that they express. -/
inductive Phrase : Nat → List Token → Expr → Prop
  | choice {cs ys ns : List Token} {condition yes no : Expr} :
      Phrase 1 cs condition → Phrase 0 ys yes → Phrase 0 ns no →
      Phrase 0 (cs ++ .mark .question :: (ys ++ .mark .colon :: ns)) (.choice condition yes no)
  | binary (op : BinaryOp) {ls rs : List Token} {left right : Expr} :
      Phrase op.level ls left → Phrase (op.level + 1) rs right →
      Phrase op.level (ls ++ .mark op.mark :: rs) (.binary op left right)
  | unary (op : UnaryOp) {ts : List Token} {operand : Expr} :
      Phrase 11 ts operand → Phrase 11 (.mark op.mark :: ts) (.unary op operand)
  | number (value : Int64) : Phrase 12 [.number value] (.number value)
  | name : Phrase 12 [.name] .name
  | parenthesized {ts : List Token} {e : Expr} :
      Phrase 0 ts e → Phrase 12 (.mark .openParen :: (ts ++ [.mark .closeParen])) e
  | tighter {k : Nat} {ts : List Token} {e : Expr} : Phrase (k + 1) ts e → Phrase k ts e

variable {j k : Nat} {ts : List Token} {e : Expr}

theorem Phrase.loosen (h : Phrase k ts e) (hj : j ≤ k) : Phrase j ts e := by
  induction k with
  | zero => rwa [Nat.le_zero.1 hj]
  | succ k ih =>
    obtain rfl | hlt := Nat.eq_or_lt_of_le hj
    · exact h
    · exact ih h.tighter (Nat.le_of_lt_succ hlt)

/-! ## Rendering -/

/-- The tokens, in parentheses if there must be some. -/
def enclosedIf (needed : Prop) [Decidable needed] (ts : List Token) : List Token :=
  if needed then .mark .openParen :: (ts ++ [.mark .closeParen]) else ts

/-- The tokens of a condition in a place that demands the level `place` or a tighter one. -/
def Expr.tokens : Expr → (place : Nat) → List Token
  | .number value, _ => [.number value]
  | .name, _ => [.name]
  | .unary op operand, place => enclosedIf (11 < place) (.mark op.mark :: operand.tokens 11)
  | .binary op left right, place => enclosedIf (op.level < place)
      (left.tokens op.level ++ .mark op.mark :: right.tokens (op.level + 1))
  | .choice condition yes no, place => enclosedIf (0 < place)
      (condition.tokens 1 ++ .mark .question :: (yes.tokens 0 ++ .mark .colon :: no.tokens 0))

theorem Phrase.enclosedIf (h : Phrase j ts e) (hk : k ≤ 12) :
    Phrase k (enclosedIf (j < k) ts) e := by
  unfold Condition.enclosedIf
  split
  · exact (Phrase.parenthesized (h.loosen (Nat.zero_le j))).loosen hk
  · exact h.loosen (by omega)

/-- A rendered condition belongs to the grammar. -/
theorem Expr.phrase_tokens (e : Expr) {k : Nat} (hk : k ≤ 12) : Phrase k (e.tokens k) e := by
  induction e generalizing k with
  | number value => exact (Phrase.number value).loosen hk
  | name => exact Phrase.name.loosen hk
  | unary op operand ih => exact Phrase.enclosedIf (.unary op (ih (by decide))) hk
  | binary op left right ihl ihr =>
    have := op.level_lt
    exact Phrase.enclosedIf (.binary op (ihl (by omega)) (ihr (by omega))) hk
  | choice condition yes no ihc ihy ihn =>
    exact Phrase.enclosedIf (.choice (ihc (by decide)) (ihy (by decide)) (ihn (by decide))) hk

theorem length_enclosedIf (needed : Prop) [Decidable needed] (ts : List Token) :
    (enclosedIf needed ts).length = ts.length + if needed then 2 else 0 := by
  unfold enclosedIf
  split <;> simp

/-- A looser place takes no more tokens, and the tightest one takes parentheses at most. -/
theorem Expr.length_tokens_le (e : Expr) (hj : j ≤ k) :
    (e.tokens j).length ≤ (e.tokens k).length ∧ (e.tokens k).length ≤ (e.tokens j).length + 2 := by
  have h (level : Nat) (ts : List Token) :
      (enclosedIf (level < j) ts).length ≤ (enclosedIf (level < k) ts).length ∧
        (enclosedIf (level < k) ts).length ≤ (enclosedIf (level < j) ts).length + 2 := by
    rw [length_enclosedIf, length_enclosedIf]
    split <;> split <;> omega
  cases e with
  | number | name => exact ⟨Nat.le_refl 1, Nat.le_add_right 1 2⟩
  | unary | binary | choice => exact h _ _

/-- No phrase for a condition has fewer tokens than the condition is rendered with. -/
theorem Phrase.length_tokens_le (h : Phrase k ts e) : (e.tokens k).length ≤ ts.length := by
  induction h with
  | choice _ _ _ ihc ihy ihn =>
    rw [Expr.tokens, length_enclosedIf, if_neg (Nat.lt_irrefl 0)]
    simp only [List.length_append, List.length_cons]
    omega
  | binary op _ _ ihl ihr =>
    rw [Expr.tokens, length_enclosedIf, if_neg (Nat.lt_irrefl _)]
    simp only [List.length_append, List.length_cons]
    omega
  | unary op _ ih => exact Nat.succ_le_succ ih
  | number | name => exact Nat.le_refl 1
  | @parenthesized ts e _ ih =>
    have hclosed := (e.length_tokens_le (Nat.zero_le 12)).2
    simp only [List.length_cons, List.length_append, List.length_nil]
    omega
  | @tighter k ts e _ ih => exact Nat.le_trans (e.length_tokens_le (Nat.le_succ k)).1 ih

end IdlFrontend.Condition
