import IdlFrontend.Proofs.Condition.Grammar
import Mathlib.Data.Nat.Init

/-!
# Reading phrases

The readers of each level take a phrase of that level off the front of the tokens, and they take
every phrase that is not continued by what follows it. A level of infix operators reads a first
operand and then the operators with theirs, so it reads the left part of a phrase as a part of the
whole: what it makes of the left part is what it goes on with.

Results:

* `yields_expr`: what is read is a phrase, and a reason for refusing tokens is none of evaluation.
* `Phrase.completes`: the induction over a phrase.
* `expr_eq_ok_iff`: the readers read the phrases, and nothing else.
-/

namespace IdlFrontend.Condition

/-! ## What is read is a phrase -/

/-- The reasons that only evaluation gives. -/
def ConditionError.IsFault : ConditionError → Prop
  | .divisionByZero | .shiftCount => True
  | _ => False

/-- A phrase of level `k` is taken off the front of the tokens `ts`, or the reason why there is none
    is not one of evaluation. -/
def Covers (k : Nat) (ts : List Token) : Except ConditionError (Expr × List Token) → Prop
  | .ok (e, rest) => ∃ us, ts = us ++ rest ∧ Phrase k us e
  | .error f => ¬f.IsFault

/-- The reader takes phrases of level `k`. -/
def Yields (k : Nat) (r : Reader) : Prop := ∀ ts, Covers k ts (r ts)

variable {j k : Nat} {ts us rest : List Token} {e left : Expr} {x operand : Reader}

theorem Covers.bind {first : Except ConditionError (Expr × List Token)}
    {next : Expr × List Token → Except ConditionError (Expr × List Token)} (h : Covers j us first)
    (hnext : ∀ vs e rest, us = vs ++ rest → Phrase j vs e → Covers k ts (next (e, rest))) :
    Covers k ts (first >>= next) := by
  cases first with
  | error f => exact h
  | ok r =>
    obtain ⟨vs, hus, hphrase⟩ := h
    exact hnext vs r.1 r.2 hus hphrase

theorem Covers.tighter {r : Except ConditionError (Expr × List Token)} (h : Covers (k + 1) ts r) :
    Covers k ts r := by
  cases r with
  | error f => exact h
  | ok r =>
    obtain ⟨us, hts, hphrase⟩ := h
    exact ⟨us, hts, hphrase.tighter⟩

theorem yields_primary (hx : Yields 0 x) : Yields 12 (primary x) := by
  intro ts
  unfold primary
  split
  · exact id
  next value ts => exact ⟨[.number value], rfl, .number value⟩
  next ts => exact ⟨[.name], rfl, .name⟩
  next ts =>
    refine (hx ts).bind fun us e rest hts hphrase => ?_
    split
    next rest heq =>
      cases heq
      exact ⟨_, by simp [hts], .parenthesized hphrase⟩
    · exact id
  · exact id

theorem yields_unary (hx : Yields 0 x) : Yields 11 (unary x) := by
  intro ts
  fun_induction unary x ts with
  | case1 mark ts op hop ih =>
    cases hread : unary x ts with
    | error f => rwa [hread] at ih
    | ok r =>
      rw [hread] at ih
      obtain ⟨us, hts, hphrase⟩ := ih
      refine ⟨.mark mark :: us, by rw [hts]; rfl, ?_⟩
      rw [← UnaryOp.ofMark?_eq_some_iff.1 hop]
      exact .unary op hphrase
  | case2 | case3 => exact (yields_primary hx _).tighter

/-- Operators of level `k` and their operands, behind a phrase of that level. -/
theorem covers_chain {operators : List (Mark × BinaryOp)}
    (hops : ∀ mark op, operators.lookup mark = some op → op.mark = mark ∧ op.level = k)
    (hoperand : Yields (k + 1) operand) (count : Nat) (hleft : Phrase k us left) :
    Covers k (us ++ ts) (chain operators operand count left ts) := by
  fun_induction chain operators operand count left ts generalizing us with
  | case1 count left mark ts op hop ih =>
    obtain ⟨rfl, rfl⟩ := hops mark op hop
    refine (hoperand ts).bind fun vs right rest hts hright => ?_
    have hcovers := ih right rest (Phrase.binary op hleft hright)
    rwa [List.append_assoc, List.cons_append, ← hts] at hcovers
  | case2 | case3 => exact ⟨us, rfl, hleft⟩

theorem yields_binary (hx : Yields 0 x) {k : Nat} (hk : k ≤ 10) :
    Yields (k + 1) (binary x (levels.drop k)) := by
  induction hk using Nat.decreasingInduction with
  | self => exact yields_unary hx
  | of_succ k hk ih =>
    obtain ⟨operators, hdrop, hops⟩ := BinaryOp.exists_drop_levels hk
    intro ts
    rw [hdrop, binary]
    refine (ih ts).bind fun us left rest hts hleft => ?_
    rw [hts]
    exact covers_chain (fun mark op => (hops mark op).1) ih rest.length hleft.tighter

theorem yields_choice (hx : Yields 0 x) : Yields 0 (choice x) := by
  intro ts
  refine (yields_binary hx (Nat.zero_le 10) ts).bind fun cs condition rest hts hcondition => ?_
  split
  next _ _ rest heq =>
    cases heq
    refine (hx rest).bind fun ys yes rest' hrest hyes => ?_
    split
    next _ _ rest' heq =>
      cases heq
      refine (hx rest').bind fun ns no rest'' hrest' hno => ?_
      exact ⟨_, by simp [hts, hrest, hrest'], .choice hcondition hyes hno⟩
    · exact id
  · exact ⟨cs, hts, hcondition.tighter⟩

/-- What is read is a phrase, and a reason for refusing tokens is none of evaluation. -/
theorem yields_expr (depth : Nat) : Yields 0 (expr depth) := by
  induction depth with
  | zero => exact fun ts => id
  | succ depth ih => exact yields_choice ih

/-! ## Every phrase is read -/

/-- What comes next continues no phrase of level `k`: it is no infix operator of this level or a
    tighter one, and behind a whole condition it is no question mark. -/
def Stops (k : Nat) (rest : List Token) : Prop :=
  ∀ mark ts, rest = .mark mark :: ts →
    (∀ op : BinaryOp, op.mark = mark → op.level < k) ∧ (k = 0 → mark ≠ .question)

theorem stops_nil (k : Nat) : Stops k [] := by
  rintro mark ts ⟨⟩

theorem stops_cons {mark : Mark} (h : ∀ op : BinaryOp, op.mark = mark → op.level < k)
    (hquestion : k = 0 → mark ≠ .question) (ts : List Token) : Stops k (.mark mark :: ts) := by
  rintro _ _ ⟨⟩
  exact ⟨h, hquestion⟩

theorem Stops.mono (h : Stops j rest) (hj : j ≤ k) : Stops k rest := by
  intro mark ts heq
  obtain ⟨hlevel, hquestion⟩ := h mark ts heq
  exact ⟨fun op hop => Nat.lt_of_lt_of_le (hlevel op hop) hj, fun hk => hquestion (by omega)⟩

/-- How reading at the levels from `k` on goes on behind a first operand of the tighter levels. -/
def goOn (x : Reader) (k : Nat) (left : Expr) : Reader := fun rest =>
  match levels.drop k with
  | [] => .ok (left, rest)
  | operators :: tighter => chain operators (binary x tighter) rest.length left rest

theorem binary_drop (hk : k < 10) (x : Reader) (ts : List Token) :
    binary x (levels.drop k) ts =
      binary x (levels.drop (k + 1)) ts >>= fun r => goOn x k r.1 r.2 := by
  obtain ⟨operators, hdrop, -⟩ := BinaryOp.exists_drop_levels hk
  simp only [goOn, hdrop, binary]

theorem chain_of_not_mark (operators : List (Mark × BinaryOp)) (operand : Reader) (count : Nat)
    (left : Expr) (h : ∀ mark ts, rest ≠ .mark mark :: ts) :
    chain operators operand count left rest = .ok (left, rest) := by
  unfold chain
  split
  · exact absurd rfl (h _ _)
  · rfl

theorem goOn_of_stops (h : Stops (k + 1) rest) (x : Reader) (left : Expr) :
    goOn x k left rest = .ok (left, rest) := by
  rcases Nat.lt_or_ge k 10 with hk | hk
  · obtain ⟨operators, hdrop, hops⟩ := BinaryOp.exists_drop_levels hk
    simp only [goOn, hdrop]
    by_cases hmark : ∃ mark ts, rest = .mark mark :: ts
    · obtain ⟨mark, ts, rfl⟩ := hmark
      refine chain_of_no_operator _ _ _ _ (Option.eq_none_iff_forall_ne_some.2 fun op hop => ?_)
      obtain ⟨hmark, hlevel⟩ := (hops mark op).1 hop
      exact Nat.lt_irrefl _ (hlevel ▸ (h mark ts rfl).1 op hmark)
    · exact chain_of_not_mark _ _ _ _ fun mark ts heq => hmark ⟨mark, ts, heq⟩
  · rw [goOn, List.drop_eq_nil_of_le (by exact hk)]

/-- As many operators are read as there are, if the bound lets it. -/
theorem chain_congr {operators : List (Mark × BinaryOp)} (hoperand : Yields j operand) {m n : Nat}
    (hm : rest.length ≤ m) (hn : rest.length ≤ n) :
    chain operators operand m left rest = chain operators operand n left rest := by
  induction m generalizing n left rest with
  | zero =>
    obtain rfl := List.length_eq_zero_iff.1 (Nat.le_zero.1 hm)
    rw [chain_of_not_mark, chain_of_not_mark] <;> rintro mark ts ⟨⟩
  | succ m ih =>
    by_cases hmark : ∃ mark ts, rest = .mark mark :: ts
    · obtain ⟨mark, ts, rfl⟩ := hmark
      obtain ⟨n, rfl⟩ := Nat.exists_eq_add_one_of_ne_zero (n := n) (by
        rintro rfl
        exact Nat.not_succ_le_zero _ hn)
      rw [chain, chain]
      split
      next op _ =>
        have hcovers := hoperand ts
        cases hread : operand ts with
        | error f => rfl
        | ok r =>
          rw [hread] at hcovers
          obtain ⟨us, rfl, -⟩ := hcovers
          simp only [List.length_cons, List.length_append] at hm hn
          exact ih (by omega) (by omega)
      · rfl
    · have hnot (mark : Mark) (ts : List Token) : rest ≠ .mark mark :: ts :=
        fun heq => hmark ⟨mark, ts, heq⟩
      rw [chain_of_not_mark _ _ _ _ hnot, chain_of_not_mark _ _ _ _ hnot]

theorem goOn_operator (hx : Yields 0 x) {op : BinaryOp} (hop : op.level = k + 1) (left : Expr)
    (ts : List Token) :
    goOn x k left (.mark op.mark :: ts) =
      binary x (levels.drop (k + 1)) ts >>= fun r => goOn x k (.binary op left r.1) r.2 := by
  have hk := op.level_lt
  obtain ⟨operators, hdrop, hops⟩ := BinaryOp.exists_drop_levels (k := k) (by omega)
  have hyields := yields_binary hx (k := k + 1) (by omega)
  simp only [goOn, hdrop, List.length_cons]
  rw [chain, (hops _ _).2 ⟨rfl, hop⟩]
  have hcovers := hyields ts
  cases hread : binary x (levels.drop (k + 1)) ts with
  | error f => rfl
  | ok r =>
    rw [hread] at hcovers
    obtain ⟨us, rfl, -⟩ := hcovers
    exact chain_congr hyields (by simp) (Nat.le_refl _)

theorem Phrase.level_le (h : Phrase k ts e) : k ≤ 12 := by
  induction h with
  | binary op => exact Nat.le_of_lt (Nat.lt_succ_of_lt op.level_lt)
  | tighter _ ih => omega
  | _ => decide

/-- What needs no parentheses begins with no prefix operator. -/
theorem unary_of_phrase (h : Phrase 12 us e) (x : Reader) (rest : List Token) :
    unary x (us ++ rest) = primary x (us ++ rest) := by
  generalize hk : 12 = k at h
  cases h with
  | number | name | parenthesized => rfl
  | binary op => exact absurd hk (Nat.ne_of_gt (Nat.lt_succ_of_lt op.level_lt))
  | choice | unary => cases hk
  | tighter h => exact absurd h.level_le (by omega)

theorem choice_of_question {condition yes no : Expr} {ts' ts'' : List Token}
    (hcondition : binary x levels ts = .ok (condition, .mark .question :: ts'))
    (hyes : x ts' = .ok (yes, .mark .colon :: ts'')) (hno : x ts'' = .ok (no, rest)) :
    choice x ts = .ok (.choice condition yes no, rest) := by
  rw [choice, hcondition]
  show (x ts' >>= _) = _
  rw [hyes]
  show (x ts'' >>= _) = _
  rw [hno]
  rfl

theorem choice_of_stops (h : binary x levels ts = .ok (e, rest)) (hrest : Stops 0 rest) :
    choice x ts = .ok (e, rest) := by
  rw [choice, h]
  match rest with
  | [] | .number _ :: _ | .name :: _ => rfl
  | .mark mark :: rest =>
    have hmark := (hrest mark rest rfl).2 rfl
    cases mark <;> first | rfl | exact absurd rfl hmark

/-- The tokens `us` are read as `e` on level `k`. Nested conditions are read by `x`. -/
structure Completes (x : Reader) (k : Nat) (us : List Token) (e : Expr) : Prop where
  choice : k = 0 → ∀ rest, Stops 0 rest → choice x (us ++ rest) = .ok (e, rest)
  binary : ∀ i ≤ 10, k = i + 1 → ∀ rest, Stops (i + 2) rest →
    binary x (levels.drop i) (us ++ rest) = goOn x i e rest
  primary : k = 12 → ∀ rest, primary x (us ++ rest) = .ok (e, rest)

theorem Completes.binary_of_stops (h : Completes x (k + 1) us e) (hk : k ≤ 10)
    (hrest : Stops (k + 1) rest) : Condition.binary x (levels.drop k) (us ++ rest) =
      .ok (e, rest) := by
  rw [h.binary k hk rfl rest (hrest.mono (Nat.le_succ _)), goOn_of_stops hrest]

theorem Completes.ofPrimary (h : ∀ rest, Condition.primary x (us ++ rest) = .ok (e, rest)) :
    Completes x 12 us e :=
  ⟨fun hk => by omega, fun i hi hk => by omega, fun _ => h⟩

/-- Every phrase is read, if the bound on the depth lets it. -/
theorem Phrase.completes (h : Phrase k us e) (depth : Nat) (hdepth : us.length ≤ depth) :
    Completes (expr depth) k us e := by
  induction h generalizing depth with
  | @choice cs ys ns condition yes no _ _ _ ihc ihy ihn =>
    simp only [List.length_append, List.length_cons] at hdepth
    obtain ⟨depth, rfl⟩ := Nat.exists_eq_add_one_of_ne_zero (n := depth) (by omega)
    refine ⟨fun _ rest hrest => ?_, fun i _ hi => by omega, fun h => by omega⟩
    rw [List.append_assoc, List.cons_append, List.append_assoc, List.cons_append]
    refine choice_of_question ((ihc _ (by omega)).binary_of_stops (Nat.zero_le 10) ?_)
      ((ihy depth (by omega)).choice rfl _ ?_) ((ihn depth (by omega)).choice rfl rest hrest)
    · exact stops_cons (fun op hop => by cases op <;> cases hop) (fun h => by omega) _
    · exact stops_cons (fun op hop => by cases op <;> cases hop) (fun _ => by decide) _
  | @binary op ls rs left right _ _ ihl ihr =>
    simp only [List.length_append, List.length_cons] at hdepth
    have hlevel := op.level_lt
    refine ⟨fun h => absurd h (Nat.ne_of_gt op.level_pos), fun i hi hop rest hrest => ?_,
      fun h => by omega⟩
    have hright := ihr depth (by omega)
    rw [hop] at hright
    have hstops : Stops (i + 2) (.mark op.mark :: (rs ++ rest)) := by
      refine stops_cons (fun op' hop' => ?_) (fun h => by omega) _
      rw [BinaryOp.mark_injective hop', hop]
      exact Nat.lt_succ_self _
    rw [List.append_assoc, List.cons_append, (ihl depth (by omega)).binary i hi hop _ hstops,
      goOn_operator (yields_expr depth) hop, hright.binary_of_stops (by omega) hrest]
    rfl
  | @unary op ts operand _ ih =>
    simp only [List.length_cons] at hdepth
    refine ⟨fun h => by omega, fun i _ hi rest _ => ?_, fun h => by omega⟩
    obtain rfl : i = 10 := by omega
    have hoperand := (ih depth (by omega)).binary 10 (Nat.le_refl 10) rfl rest ‹_›
    show Condition.unary (expr depth) (.mark op.mark :: (ts ++ rest)) = _
    rw [Condition.unary, UnaryOp.ofMark?_eq_some_iff.2 rfl]
    exact congrArg (Except.map _) hoperand
  | number value => exact .ofPrimary fun rest => rfl
  | name => exact .ofPrimary fun rest => rfl
  | @parenthesized ts e _ ih =>
    simp only [List.length_cons, List.length_append] at hdepth
    obtain ⟨depth, rfl⟩ := Nat.exists_eq_add_one_of_ne_zero (n := depth) (by omega)
    refine .ofPrimary fun rest => ?_
    have hinner := (ih depth (by omega)).choice rfl (.mark .closeParen :: rest)
      (stops_cons (fun op hop => by cases op <;> cases hop) (fun _ => by decide) _)
    rw [List.cons_append, List.append_assoc, List.singleton_append, primary]
    show (Condition.choice (expr depth) (ts ++ .mark .closeParen :: rest) >>= _) = _
    rw [hinner]
    rfl
  | @tighter k ts e h ih =>
    have hk := h.level_le
    have ih := ih depth hdepth
    refine ⟨?_, ?_, fun h => by omega⟩
    · rintro rfl rest hrest
      exact choice_of_stops (ih.binary_of_stops (Nat.zero_le 10) (hrest.mono (Nat.zero_le 1))) hrest
    · rintro i hi rfl rest hrest
      obtain hlt | rfl := Nat.lt_or_eq_of_le hi
      · rw [binary_drop hlt, ih.binary_of_stops hlt hrest]
        rfl
      · show Condition.unary (expr depth) (ts ++ rest) = Except.ok (e, rest)
        rw [unary_of_phrase h, ih.primary rfl]

/-- The readers read the phrases, and nothing else. -/
theorem expr_eq_ok_iff : expr (ts.length + 1) ts = .ok (e, []) ↔ Phrase 0 ts e := by
  constructor
  · intro h
    have hcovers := yields_expr (ts.length + 1) ts
    rw [h] at hcovers
    obtain ⟨us, hts, hphrase⟩ := hcovers
    rwa [hts, List.append_nil]
  · intro h
    have hread := (h.completes ts.length (Nat.le_refl _)).choice rfl [] (stops_nil 0)
    rwa [List.append_nil] at hread

end IdlFrontend.Condition
