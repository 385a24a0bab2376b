import IdlFrontend.Grammar.Expr
import IdlFrontend.Proofs.Reading.Consumes
import IdlFrontend.Proofs.Reading.Expr
import IdlFrontend.Proofs.Reading.Sentence

/-!
# Which constant expressions are accepted

Whatever the parser of constant expressions accepts is a sentence of their grammar, and its result
is the tree of the sentence. The rules for what parsers consume follow the productions.

Results:

* `consumes_leftGrouped`: the levels of binary operators, from the tightest to the loosest.
* `consumes_constExpr`: constant expressions are sentences.
-/

namespace IdlFrontend

theorem ScopedName.words_ofFirst (absolute : Bool) (first : Text) (more : List Text) :
    (ScopedName.ofFirst absolute first more).words = (if absolute then [.punct .scope] else []) ++
      .identifier first :: more.flatMap fun s => [.punct .scope, .identifier s] := by
  rw [words, segments_ofFirst]
  rfl

namespace Parser

variable {pre : TokenStream → Prop}

theorem consumes_acceptPunct (p : Punct) : AlwaysConsumes (acceptPunct p) fun _ ws b =>
    ws = if b then [.punct p] else [] := by
  refine consumes_isNext_bind (fun t ht => ?_) (consumes_pure fun _ => rfl)
  refine (consumes_take t).bind fun u => consumes_pure fun _ ws hws => ?_
  rw [List.append_nil, hws.2, Token.word, ht]
  rfl

/-! ## Names and literals -/

theorem consumes_scopedName : AlwaysConsumes scopedName fun _ ws x => ws = x.words := by
  have hitem : AlwaysConsumes nextSegment fun _ ws s? => ws = s?.elim [] fun s =>
    [.punct .scope, .identifier s] := by
    refine (consumes_acceptPunct .scope).bind fun b => ?_
    cases b with
    | true =>
      refine (consumes_identifier _).bind fun s => consumes_pure fun _ ws hws vs hvs => ?_
      rw [hvs, hws]
      rfl
    | false => exact consumes_pure fun _ ws hws => by rw [hws]; rfl
  have hmore := consumes_many (S := fun _ ws more =>
    ws = more.flatMap fun s => [.punct .scope, .identifier s]) hitem (fun _ ws hws => hws)
    fun _ ws us s more hws hus => by rw [hws, hus]; rfl
  refine (consumes_acceptPunct .scope).bind fun absolute => ?_
  refine (consumes_identifier _).bind fun first => ?_
  refine hmore.bind fun more => consumes_pure fun _ vs hvs us hus ws hws => ?_
  rw [ScopedName.words_ofFirst, hvs, hus, hws, List.append_nil]
  rfl

theorem consumes_strings : AlwaysConsumes strings fun _ ws e =>
    ∃ first more, ws = (first :: more).map .string ∧ e = .ofStrings first more := by
  have hitem : AlwaysConsumes nextString fun _ ws t? => ws = t?.elim [] fun t =>
    [.string (quotedBody t.text)] := by
    refine consumes_isNext_bind (fun t ht => ?_) (consumes_pure fun _ => rfl)
    refine (consumes_take t).bind fun u => consumes_pure fun _ ws hws => ?_
    rw [hws.1, hws.2, Token.word, ht]
    rfl
  have hmore := consumes_many (S := fun _ ws ts =>
    ws = ts.map fun t => .string (quotedBody t.text)) hitem (fun _ ws hws => hws)
    fun _ ws us t ts hws hus => by rw [hws, hus]; rfl
  refine (consumes_expect .string _).bind fun t => hmore.bind fun ts => ?_
  refine consumes_pure fun _ us hus ws hws => ?_
  refine ⟨quotedBody t.text, ts.map fun t => quotedBody t.text, ?_, ?_⟩
  · rw [List.append_nil, hws.1, hus, Token.word, hws.2, List.map_cons, List.map_map]
    rfl
  · rw [ConstExpr.ofStrings, List.foldl_map]

/-- A literal is written as the token that it was made of. -/
theorem word_of_literal? {t : Token} {v : Literal} (h : literal? t = some v) : v.word = t.word := by
  obtain ⟨kind, text, line⟩ := t
  unfold literal? at h
  split at h <;> cases h <;> rename_i heq <;> cases heq <;> rfl

/-! ## Operands -/

variable {expr : Parser ConstExpr}

theorem consumes_primary (hexpr : AlwaysConsumes expr fun inAngles => Sentence inAngles 0) :
    AlwaysConsumes (primary expr) fun inAngles => Sentence inAngles 7 := by
  have hname : AlwaysConsumes (do return ConstExpr.name (← scopedName))
      fun inAngles => Sentence inAngles 7 := by
    refine consumes_scopedName.bind fun x => consumes_pure fun inAngles ws hws => ?_
    rw [List.append_nil, hws]
    exact .name inAngles x
  refine consumes_peek_bind fun t => ?_
  split
  · exact hname.from _
  · exact hname.from _
  next hkind =>
    refine (consumes_take t).bind fun _ => hexpr.shielded.bind fun e => ?_
    refine (consumes_expectPunct _ _).bind fun _ => consumes_pure ?_
    rintro inAngles us rfl ws hws vs ⟨-, rfl⟩
    rw [List.append_nil, Token.word, hkind]
    exact .parenthesized inAngles hws
  · refine (consumes_strings.from _).mono ?_
    rintro inAngles ws e ⟨first, more, rfl, rfl⟩
    exact .strings inAngles first more
  next hstring =>
    split
    · exact consumes_peek_bind fun t => consumes_fail _
    next v hv =>
      refine (consumes_take t).bind fun _ => consumes_pure ?_
      rintro inAngles ws ⟨-, rfl⟩
      rw [List.append_nil, ← word_of_literal? hv]
      refine .literal inAngles fun body hbody => hstring ?_
      have hword := word_of_literal? hv
      rw [hbody] at hword
      rw [← t.kind_word, ← hword]
      rfl

theorem consumes_unary (hexpr : AlwaysConsumes expr fun inAngles => Sentence inAngles 0) :
    AlwaysConsumes (unary expr) fun inAngles => Sentence inAngles 6 := by
  refine consumes_kind?_bind fun t? => ?_
  have hprimary := consumes_primary hexpr
  split
  · exact (hprimary.from _).mono fun _ _ _ h => h.tighter
  next op hsome =>
    obtain ⟨kind, hkind, hop⟩ := Option.bind_eq_some_iff.1 hsome
    obtain ⟨t, rfl, ht⟩ := Option.map_eq_some_iff.1 hkind
    refine (consumes_take t).bind fun _ => hprimary.bind fun e => consumes_pure ?_
    rintro inAngles ws hws vs ⟨-, rfl⟩
    have hword : t.word = .punct op.punct := by
      rw [Token.word, ht]
      unfold unaryOp? at hop
      split at hop <;> cases hop <;> rfl
    rw [List.append_nil, hword]
    exact .unary hws

/-! ## Operators -/

theorem consumes_operator? (ops : List BinaryOp) : AlwaysConsumes (operator? ops)
    fun inAngles ws op? => match op? with
      | none => ws = []
      | some op => ws = [.punct op.punct] ∧ op ∈ ops ∧ (inAngles → op ≠ .shiftRight) := by
  unfold operator?
  refine consumes_kind?_bind fun t? => ?_
  split
  · exact consumes_pure fun _ => rfl
  next op hfind =>
    have hkind := List.find?_some hfind
    simp only [beq_iff_eq] at hkind
    obtain ⟨t, rfl, ht⟩ := Option.map_eq_some_iff.1 hkind
    refine consumes_get_bind fun s hs => ?_
    refine consumes_ite (fun _ => consumes_pure fun _ _ => rfl) fun hshift => ?_
    have htake : Consumes (· = s) take _ :=
      (consumes_take t).weaken fun s' (hs' : s' = s) => hs'.symm ▸ hs
    refine htake.bind fun u => consumes_pure ?_
    rintro inAngles ws ⟨-, rfl⟩ hangles
    refine ⟨by rw [List.append_nil, Token.word, ht], List.mem_of_find?_eq_some hfind, ?_⟩
    rw [hangles, decide_eq_true_eq]
    exact fun hpos hop => hshift ⟨hop, hpos⟩

/-- The levels of binary operators, from the tightest to the loosest. -/
theorem consumes_leftGrouped {operand : Parser ConstExpr}
    (hoperand : AlwaysConsumes operand fun inAngles => Sentence inAngles 6)
    (levels : List (List BinaryOp)) {k : Nat} (hk : k ≤ 6)
    (hlevels : BinaryOp.levels.drop k = levels) :
    AlwaysConsumes (leftGrouped operand levels) fun inAngles => Sentence inAngles k := by
  induction levels generalizing k with
  | nil =>
    have hlength := List.drop_eq_nil_iff.1 hlevels
    obtain rfl : k = 6 := Nat.le_antisymm hk hlength
    exact hoperand
  | cons ops levels ih =>
    have hlt : k < 6 := by
      refine Nat.lt_of_le_of_ne hk ?_
      rintro rfl
      cases hlevels
    obtain ⟨ops', hdrop, hops⟩ := BinaryOp.exists_drop_levels hlt
    obtain ⟨rfl, hlevels'⟩ := List.cons.inj (hdrop.symm.trans hlevels)
    have htight := ih (Nat.succ_le_of_lt hlt) hlevels'
    have hitem : AlwaysConsumes (nextOperand (leftGrouped operand levels) ops')
        fun inAngles ws pair? => ∀ vs lhs, Sentence inAngles k vs lhs →
          Sentence inAngles k (vs ++ ws)
            (pair?.elim lhs fun pair => .binary pair.1 lhs pair.2) := by
      refine (consumes_operator? ops').bind fun op? => ?_
      cases op? with
      | none =>
        refine consumes_pure fun inAngles ws hws vs lhs hlhs => ?_
        rw [hws, List.append_nil, List.append_nil]
        exact hlhs
      | some op =>
        refine htight.bind fun rhs => consumes_pure ?_
        rintro inAngles us hus ws ⟨rfl, hop, hshift⟩ vs lhs hlhs
        obtain rfl := (hops op).1 hop
        rw [List.append_nil]
        exact .binary hshift hlhs hus
    have hmore := consumes_many (S := fun inAngles ws more => ∀ vs lhs, Sentence inAngles k vs lhs →
        Sentence inAngles k (vs ++ ws) (more.foldl (fun lhs pair => .binary pair.1 lhs pair.2) lhs))
      hitem (fun _ _ hws => hws) fun inAngles ws us pair more hws hus vs lhs hlhs => by
        rw [← List.append_assoc]
        exact hus _ _ (hws vs lhs hlhs)
    refine htight.bind fun first => hmore.bind fun more => consumes_pure ?_
    intro inAngles us hus ws hws
    rw [List.append_nil]
    exact hus ws first hws.tighter

/-! ## Expressions -/

theorem consumes_constExpr : AlwaysConsumes constExpr fun inAngles => Sentence inAngles 0 := by
  refine consumes_recurse (S := fun _ inAngles => Sentence inAngles 0) (fun expr hexpr _ => ?_) ()
  exact consumes_leftGrouped (consumes_unary (hexpr ())) _ (Nat.zero_le 6) rfl

end Parser

end IdlFrontend
