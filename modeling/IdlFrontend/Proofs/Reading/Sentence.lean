import IdlFrontend.Proofs.Reading.Reads

/-!
# The grammar of constant expressions

The binary operators stand on six levels, of which level 0 is the loosest. Those of one level group
to the left. Level 6 has the operators before an operand, and level 7 what needs no parentheses.
Within an open template bracket a double angle is no operator, but within parentheses it is.

An expression is rendered with parentheses where its level is looser than the place demands, and
nowhere else. Within an open template bracket they also stand around every double angle.

Results:

* `Sentence.loosen`: an expression stands wherever a looser one can.
* `ConstExpr.sentence_words`: a rendered expression is a sentence with the same tree.
-/

namespace IdlFrontend

/-! ## Levels -/

/-- The level of an operator. Operators of higher levels bind tighter. -/
def BinaryOp.level : BinaryOp → Nat
  | or => 0
  | xor => 1
  | and => 2
  | shiftLeft | shiftRight => 3
  | add | sub => 4
  | mul | div | mod => 5

theorem BinaryOp.level_lt (op : BinaryOp) : op.level < 6 := by cases op <;> decide

theorem BinaryOp.punct_injective {op op' : BinaryOp} (h : op.punct = op'.punct) : op = op' := by
  cases op <;> cases op' <;> first | rfl | cases h

/-- The operators of a level, and the tighter levels behind it. -/
theorem BinaryOp.exists_drop_levels {k : Nat} (hk : k < 6) :
    ∃ ops, levels.drop k = ops :: levels.drop (k + 1) ∧ ∀ op : BinaryOp, op ∈ ops ↔
      op.level = k := by
  obtain rfl | rfl | rfl | rfl | rfl | rfl :
      k = 0 ∨ k = 1 ∨ k = 2 ∨ k = 3 ∨ k = 4 ∨ k = 5 := by omega
  all_goals exact ⟨_, rfl, fun op => by cases op <;> decide⟩

/-! ## Words -/

/-- The words of a scoped name. -/
def ScopedName.words (n : ScopedName) : List Word :=
  (if n.isAbsolute then [.punct .scope] else []) ++
    separated .scope (fun s => [.identifier s]) n.segments

/-- The segments of a name are a first one and those behind it. -/
theorem ScopedName.exists_ofFirst (x : ScopedName) :
    ∃ first more, x = .ofFirst x.isAbsolute first more ∧ x.segments = first :: more := by
  obtain ⟨⟨absolute, path⟩, name⟩ := x
  cases path with
  | nil => exact ⟨name, [], rfl, rfl⟩
  | cons first path =>
    refine ⟨first, path ++ [name], Option.some.inj ?_, rfl⟩
    rw [← ofSegments?_cons, ofSegments?, ← List.cons_append, List.getLast?_concat,
      List.dropLast_concat]
    rfl

/-- A name begins with the mark of the global scope or with an identifier. -/
theorem ScopedName.exists_words (x : ScopedName) :
    ∃ w vs, x.words = w :: vs ∧ (w = .punct .scope ∨ ∃ name, w = .identifier name) := by
  obtain ⟨first, more, -, hsegments⟩ := x.exists_ofFirst
  rw [ScopedName.words, hsegments]
  split
  · exact ⟨_, _, rfl, .inl rfl⟩
  · exact ⟨_, _, rfl, .inr ⟨first, rfl⟩⟩

/-- The word that a literal is written as. -/
def Literal.word : Literal → Word
  | .integer text => .integer text
  | .floating text => .floating text
  | .fixedPoint text => .fixedPoint text
  | .string body => .string body
  | .character body => .character body
  | .boolean true => .keyword .true
  | .boolean false => .keyword .false

theorem Literal.word_ne (v : Literal) : v.word ≠ .closing ∧ v.word ≠ .openProperties := by
  cases v with
  | boolean b => cases b <;> exact ⟨by rintro ⟨⟩, by rintro ⟨⟩⟩
  | _ => exact ⟨by rintro ⟨⟩, by rintro ⟨⟩⟩

/-- String literals that stand next to each other. -/
def ConstExpr.ofStrings (first : Text) (more : List Text) : ConstExpr :=
  more.foldl (fun lhs body => .concat lhs (.literal (.string body))) (.literal (.string first))

/-! ## Sentences -/

/-- The words are an expression of the level with the given tree. The flag says whether a template
    bracket is open around them. -/
inductive Sentence : Bool → Nat → List Word → ConstExpr → Prop
  | binary {inAngles : Bool} {op : BinaryOp} {vs ws : List Word} {lhs rhs : ConstExpr} :
    (inAngles → op ≠ .shiftRight) →
    Sentence inAngles op.level vs lhs → Sentence inAngles (op.level + 1) ws rhs →
    Sentence inAngles op.level (vs ++ .punct op.punct :: ws) (.binary op lhs rhs)
  | tighter {inAngles : Bool} {k : Nat} {ws : List Word} {e : ConstExpr} :
    Sentence inAngles (k + 1) ws e → Sentence inAngles k ws e
  | unary {inAngles : Bool} {op : UnaryOp} {ws : List Word} {e : ConstExpr} :
    Sentence inAngles 7 ws e → Sentence inAngles 6 (.punct op.punct :: ws) (.unary op e)
  | name (inAngles : Bool) (n : ScopedName) : Sentence inAngles 7 n.words (.name n)
  | literal (inAngles : Bool) {v : Literal} :
    (∀ body, v ≠ .string body) → Sentence inAngles 7 [v.word] (.literal v)
  | strings (inAngles : Bool) (first : Text) (more : List Text) :
    Sentence inAngles 7 ((first :: more).map .string) (.ofStrings first more)
  | parenthesized (inAngles : Bool) {ws : List Word} {e : ConstExpr} :
    Sentence false 0 ws e →
    Sentence inAngles 7 (.punct .openParen :: (ws ++ [.punct .closeParen])) e

variable {inAngles : Bool} {k : Nat} {ws : List Word} {e : ConstExpr}

theorem Sentence.level_le (h : Sentence inAngles k ws e) : k ≤ 7 := by
  induction h with
  | @binary _ op => have := op.level_lt; omega
  | tighter _ ih => omega
  | unary | name | literal | strings | parenthesized => omega

/-- No sentence is empty. -/
theorem Sentence.ne_nil (h : Sentence inAngles k ws e) : ws ≠ [] := by
  induction h with
  | binary => exact List.append_ne_nil_of_right_ne_nil _ (List.cons_ne_nil _ _)
  | tighter _ ih => exact ih
  | name _ x =>
    obtain ⟨w, vs, hwords, -⟩ := x.exists_words
    rw [hwords]
    exact List.cons_ne_nil w vs
  | unary | literal | strings | parenthesized => exact List.cons_ne_nil _ _

/-- Any expression stands where a looser one can. -/
theorem Sentence.loosen {j : Nat} (hj : j ≤ k) (h : Sentence inAngles k ws e) :
    Sentence inAngles j ws e := by
  induction hj with
  | refl => exact h
  | step _ ih => exact ih h.tighter

/-! ## Rendering -/

/-- The words, in parentheses if they are asked for. -/
def parenthesizedIf (c : Prop) [Decidable c] (ws : List Word) : List Word :=
  if c then .punct .openParen :: (ws ++ [.punct .closeParen]) else ws

/-- The words of an expression where one of level `k` is expected. -/
def ConstExpr.words (inAngles : Bool) : Nat → ConstExpr → List Word
  | _, .literal v => [v.word]
  | _, .name n => n.words
  | k, .binary op lhs rhs =>
    parenthesizedIf (op.level < k ∨ inAngles ∧ op = .shiftRight)
      (lhs.words inAngles op.level ++ .punct op.punct :: rhs.words inAngles (op.level + 1))
  | k, .unary op e => parenthesizedIf (6 < k) (.punct op.punct :: e.words inAngles 7)
  | _, .concat lhs rhs => lhs.words inAngles 7 ++ rhs.words inAngles 7

/-- Whether the expression is a string literal, or several of them next to each other. -/
def ConstExpr.isText : ConstExpr → Bool
  | .literal (.string _) => true
  | .concat lhs (.literal (.string _)) => lhs.isText
  | _ => false

/-- Whether only string literals stand next to each other. -/
def ConstExpr.isProper : ConstExpr → Bool
  | .literal _ | .name _ => true
  | .binary _ lhs rhs => lhs.isProper && rhs.isProper
  | .unary _ e => e.isProper
  | .concat lhs rhs => (ConstExpr.concat lhs rhs).isText

theorem Sentence.parenthesizedIf {c : Prop} [Decidable c] (hk : k ≤ 7)
    (hin : Sentence false 0 ws e) (hout : ¬c → Sentence inAngles k ws e) :
    Sentence inAngles k (parenthesizedIf c ws) e := by
  unfold IdlFrontend.parenthesizedIf
  split
  · exact (Sentence.parenthesized inAngles hin).loosen hk
  next hc => exact hout hc

/-- Within parentheses nothing depends on the brackets around them, and more is allowed. -/
theorem Sentence.outside (h : Sentence inAngles k ws e) : Sentence false k ws e := by
  induction h with
  | binary _ _ _ ihl ihr => exact .binary (by rintro ⟨⟩) ihl ihr
  | tighter _ ih => exact ih.tighter
  | unary _ ih => exact .unary ih
  | name _ n => exact .name _ n
  | literal _ hv => exact .literal _ hv
  | strings _ first more => exact .strings _ first more
  | parenthesized _ h => exact .parenthesized _ h

theorem ConstExpr.eq_ofStrings {e : ConstExpr} (h : e.isText) :
    ∃ first more, e = .ofStrings first more ∧
      ∀ inAngles k, e.words inAngles k = (first :: more).map .string := by
  fun_induction ConstExpr.isText e with
  | case1 body => exact ⟨body, [], rfl, fun _ _ => rfl⟩
  | case2 lhs body ih =>
    obtain ⟨first, more, rfl, hwords⟩ := ih h
    refine ⟨first, more ++ [body], ?_, fun a k => ?_⟩
    · rw [ofStrings, ofStrings, List.foldl_append, List.foldl_cons, List.foldl_nil]
    · rw [ConstExpr.words, hwords, ← List.cons_append, List.map_append]
      rfl
  | case3 => cases h

theorem ConstExpr.sentence_words {e : ConstExpr} (h : e.isProper) (inAngles : Bool) {k : Nat}
    (hk : k ≤ 7) : Sentence inAngles k (e.words inAngles k) e := by
  induction e generalizing k with
  | literal v =>
    rw [words]
    by_cases hv : ∃ body, v = .string body
    · obtain ⟨body, rfl⟩ := hv
      exact (Sentence.strings inAngles body []).loosen hk
    · exact (Sentence.literal inAngles (not_exists.1 hv)).loosen hk
  | name n => exact (Sentence.name inAngles n).loosen hk
  | binary op lhs rhs ihl ihr =>
    rw [isProper, Bool.and_eq_true] at h
    have hlevel := op.level_lt
    have hl := ihl h.1 (k := op.level) (by omega)
    have hr := ihr h.2 (k := op.level + 1) (by omega)
    rw [words]
    refine Sentence.parenthesizedIf hk ?_ fun hc => ?_
    · refine Sentence.loosen (Nat.zero_le op.level) (.binary ?_ hl.outside hr.outside)
      exact fun h => absurd h Bool.false_ne_true
    · rw [not_or, not_and] at hc
      exact (Sentence.binary hc.2 hl hr).loosen (by omega)
  | unary op e ih =>
    rw [isProper] at h
    have he := ih h (k := 7) (Nat.le_refl _)
    rw [words]
    refine Sentence.parenthesizedIf hk ?_ fun hc => (Sentence.unary he).loosen (by omega)
    exact (Sentence.unary he.outside).loosen (Nat.zero_le _)
  | concat lhs rhs =>
    obtain ⟨first, more, heq, hwords⟩ := eq_ofStrings h
    rw [heq, ← heq, hwords, heq]
    exact (Sentence.strings inAngles first more).loosen hk

end IdlFrontend
