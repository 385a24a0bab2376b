import IdlFrontend.Grammar.Expr
import IdlFrontend.Proofs.Reading.Sentence

/-!
# Reading constant expressions

The parser reads the words of a sentence as its tree, as long as what comes behind them does not
continue it. At each binary level it reads a first operand and then the operators with theirs. So
the induction over a sentence shows for its left part that the parser has read some of these pairs,
and that it can go on.

Results:

* `reads_scopedName`: scoped names.
* `reads_operator?_some`, `reads_operator?_none`: whether an operator comes next.
* `Sentence.groups`: the induction over a sentence.
* `Sentence.reads_constExpr`: every sentence is read as its tree.
-/

namespace IdlFrontend

/-- Whether a token of the kind continues an expression of level `k` in front of it: a name, a
    string, or an operator of this level or a tighter one. Within a template bracket a double
    angle is none. -/
def ContinuesExpr (inAngles : Bool) (k : Nat) (kind : TokenKind) : Prop :=
  kind = .punct .scope ∨ kind = .string ∨
    ∃ op : BinaryOp, k ≤ op.level ∧ kind = .punct op.punct ∧ (op = .shiftRight → inAngles = false)

/-- What comes next continues no expression of level `k`. -/
def Place.Stops (k : Nat) (P : Place) : Prop :=
  P.Avoids (ContinuesExpr (decide (0 < P.openAngles)) k)

theorem Place.Avoids.mono {K K' : TokenKind → Prop} {P : Place} (h : P.Avoids K)
    (hK : ∀ kind, K' kind → K kind) : P.Avoids K' :=
  ⟨h.canLook, fun t hsees hkind => h.not_sees t hsees (hK _ hkind)⟩

theorem Place.Stops.mono {j k : Nat} {P : Place} (h : P.Stops j) (hj : j ≤ k) : P.Stops k := by
  refine Place.Avoids.mono h fun kind hkind => hkind.imp_right (Or.imp_right ?_)
  rintro ⟨op, hop, hrest⟩
  exact ⟨op, Nat.le_trans hj hop, hrest⟩

variable {P Q : Place} {n k : Nat} {w : Word} {ws us : List Word} {l : Lexer} {e : ConstExpr}
  {inAngles : Bool}

namespace Parser

/-! ## Names -/

theorem reads_scopedName (x : ScopedName) (h : Place.Avoids (· = .punct .scope) ⟨n, us, l⟩) :
    Reads scopedName ⟨n, x.words ++ us, l⟩ x ⟨n, us, l⟩ := by
  obtain ⟨first, more, hx, hsegments⟩ := x.exists_ofFirst
  have hmore : Items nextSegment ⟨n, (more.flatMap fun s => [.punct .scope, .identifier s]) ++ us,
      l⟩ more ⟨n, us, l⟩ := by
    refine items_flatMap (F := fun _ => True) (fun s _ vs _ => ?_) (fun _ _ => by rintro ⟨⟩)
      (fun _ _ _ => True.intro) True.intro
    exact (reads_acceptPunct (by decide)).bind ((reads_identifier s _).bind (reads_pure _ _))
  have hsome := hmore.reads_many ((reads_accept_false h).bind (reads_pure none _))
  have hrest : Reads (do
        let first ← identifier "in scoped name"
        return ScopedName.ofFirst x.isAbsolute first (← many nextSegment))
      ⟨n, separated .scope (fun s => [.identifier s]) x.segments ++ us, l⟩ x ⟨n, us, l⟩ := by
    rw [hsegments]
    refine (reads_identifier first _).bind (hsome.bind ?_)
    rw [← hx]
    exact reads_pure _ _
  unfold scopedName ScopedName.words
  cases habsolute : x.isAbsolute with
  | true =>
    rw [habsolute] at hrest
    exact (reads_acceptPunct (by decide)).bind hrest
  | false =>
    rw [habsolute] at hrest
    refine Reads.bind (reads_accept_false ?_) hrest
    rw [hsegments]
    exact Place.avoids_word (by rintro ⟨⟩) (by rintro ⟨⟩)

/-! ## Operators -/

theorem reads_operator?_some {ops : List BinaryOp} {op : BinaryOp} (hop : op ∈ ops)
    (hangles : op = .shiftRight → n = 0) :
    Reads (operator? ops) ⟨n, .punct op.punct :: us, l⟩ (some op) ⟨n, us, l⟩ := by
  have hclosing : Word.punct op.punct ≠ .closing := by
    intro h
    exact absurd (Word.punct.inj h) (by cases op <;> decide)
  have hfind : ops.find? (fun op' => some (Word.punct op.punct).kind == some (.punct op'.punct)) =
      some op := by
    cases hf : ops.find? _ with
    | none => exact absurd (beq_self_eq_true _) (List.find?_eq_none.1 hf op hop)
    | some op' =>
      have hfound := List.find?_some hf
      simp only [beq_iff_eq] at hfound
      rw [BinaryOp.punct_injective (TokenKind.punct.inj (Option.some.inj hfound))]
  unfold operator?
  refine (reads_kind? hclosing).bind ?_
  rw [hfind]
  refine (finds_get _).bind fun s hs => ?_
  rw [if_neg]
  · exact (finds_take _ hclosing (by rintro ⟨⟩)).bind fun _ _ => reads_pure _ _
  · rintro ⟨hshift, hpos⟩
    rw [hs.openAngles, hangles hshift] at hpos
    exact Nat.lt_irrefl 0 hpos

theorem reads_operator?_none {ops : List BinaryOp} (h : P.Stops k)
    (hops : ∀ op ∈ ops, k ≤ op.level) :
    Reads (operator? ops) P none P := by
  unfold operator?
  refine (finds_kind? h.canLook).bind fun _ ⟨t?, hsees, hkind?⟩ => ?_
  subst hkind?
  split
  · exact reads_pure _ _
  next op hfind =>
    have hfound := List.find?_some hfind
    simp only [beq_iff_eq] at hfound
    obtain ⟨t, rfl, ht⟩ := Option.map_eq_some_iff.1 hfound
    refine (finds_get _).bind fun s hs => ?_
    rw [if_pos]
    · exact reads_pure _ _
    · refine Decidable.byContradiction fun hnot => h.not_sees t hsees (.inr (.inr ?_))
      refine ⟨op, hops op (List.mem_of_find?_eq_some hfind), ht, fun hshift => ?_⟩
      rw [hs.openAngles] at hnot
      exact decide_eq_false fun hpos => hnot ⟨hshift, hpos⟩

/-! ## Literals -/

/-- A run of string literals is read up to its end. -/
theorem finds_stringTokens (bodies : List Text) (h : Place.Avoids (· = .string) ⟨n, us, l⟩) :
    Finds (many nextString) ⟨n, bodies.map .string ++ us, l⟩
      (fun ts => ts.map Token.word = bodies.map .string)
      ⟨n, us, l⟩ := by
  refine finds_recurse fun depth hdepth => ?_
  induction bodies generalizing depth with
  | nil =>
    obtain ⟨depth, rfl⟩ := Nat.exists_eq_add_one_of_ne_zero (Nat.ne_zero_of_lt hdepth)
    exact Reads.bind ((reads_isNext_false h).bind (reads_pure none _)) (finds_pure (by rfl) _)
  | cons body bodies ih =>
    obtain ⟨depth, rfl⟩ := Nat.exists_eq_add_one_of_ne_zero (Nat.ne_zero_of_lt hdepth)
    have hsize : Place.size ⟨n, bodies.map .string ++ us, l⟩ <
        Place.size ⟨n, .string body :: (bodies.map .string ++ us), l⟩ :=
      Place.size_lt (List.cons_ne_nil (Word.string body) []) _ l
    have hitem : Finds nextString ⟨n, .string body :: (bodies.map .string ++ us), l⟩
        (fun t? => ∃ t, t? = some t ∧ t.word = .string body) ⟨n, bodies.map .string ++ us, l⟩ := by
      refine (reads_isNext_true (.string body) (by rintro ⟨⟩)).bind ?_
      exact (finds_take (.string body) (by rintro ⟨⟩) (by rintro ⟨⟩)).bind fun t ht =>
        finds_pure (by exact ⟨t, rfl, ht⟩) _
    refine hitem.bind ?_
    rintro _ ⟨t, rfl, ht⟩
    have hrest := Nat.lt_of_lt_of_le hsize (Nat.le_of_lt_succ hdepth)
    refine Finds.bind (ih depth hrest) fun ts hts => finds_pure ?_ _
    rw [List.map_cons, ht, hts, List.map_cons]

theorem body_of_word_string {t : Token} {body : Text} (h : t.word = .string body) :
    quotedBody t.text = body := by
  obtain ⟨kind, text, line⟩ := t
  cases kind <;> cases h
  rfl

theorem reads_strings (first : Text) (more : List Text)
    (h : Place.Avoids (· = .string) ⟨n, us, l⟩) :
    Reads strings ⟨n, (first :: more).map .string ++ us, l⟩ (.ofStrings first more) ⟨n, us, l⟩ := by
  refine (finds_expect (.string first) (by rintro ⟨⟩) (by rintro ⟨⟩) rfl).bind fun t ht => ?_
  refine (finds_stringTokens more h).bind fun ts hts => reads_pure_of_eq ?_ _
  dsimp only
  rw [body_of_word_string ht, ConstExpr.ofStrings]
  generalize ConstExpr.literal (.string first) = lhs
  induction more generalizing ts lhs with
  | nil => rw [List.map_eq_nil_iff.1 hts]; rfl
  | cons body more ih =>
    obtain ⟨u, us, rfl, hu, hus⟩ := List.map_eq_cons_iff.1 hts
    rw [List.foldl_cons, body_of_word_string hu, ih us hus]
    rfl

theorem literal?_of_word {t : Token} {v : Literal} (h : t.word = v.word) : literal? t = some v := by
  obtain ⟨kind, text, line⟩ := t
  cases v with
  | boolean b => cases b <;> cases kind <;> cases h <;> rfl
  | _ =>
    cases kind <;> cases h
    rfl

/-! ## Operands -/

variable {expr : Parser ConstExpr}

theorem reads_primary_name (x : ScopedName) (h : Place.Avoids (· = .punct .scope) ⟨n, us, l⟩) :
    Reads (primary expr) ⟨n, x.words ++ us, l⟩ (.name x) ⟨n, us, l⟩ := by
  obtain ⟨w, vs, hwords, hw⟩ := x.exists_words
  have hname : Reads (do return ConstExpr.name (← scopedName)) ⟨n, x.words ++ us, l⟩ (.name x)
      ⟨n, us, l⟩ := (reads_scopedName x h).bind (reads_pure _ _)
  rw [hwords] at hname ⊢
  refine (finds_peek n w _ l).bind fun t ht => ?_
  rcases hw with rfl | ⟨name, rfl⟩
  · rw [kind_of_sees ht (by rintro ⟨⟩)]
    exact hname
  · rw [kind_of_sees ht (by rintro ⟨⟩)]
    exact hname

theorem reads_primary_strings (first : Text) (more : List Text)
    (h : Place.Avoids (· = .string) ⟨n, us, l⟩) :
    Reads (primary expr) ⟨n, (first :: more).map .string ++ us, l⟩ (.ofStrings first more)
      ⟨n, us, l⟩ := by
  refine (finds_peek n (.string first) _ l).bind fun t ht => ?_
  rw [kind_of_sees ht (by rintro ⟨⟩)]
  exact reads_strings first more h

theorem reads_primary_literal {v : Literal} (hv : ∀ body, v ≠ .string body) :
    Reads (primary expr) ⟨n, v.word :: us, l⟩ (.literal v) ⟨n, us, l⟩ := by
  obtain ⟨hclosing, hproperties⟩ := v.word_ne
  have htake : Reads (do let _ ← take; return ConstExpr.literal v) ⟨n, v.word :: us, l⟩ (.literal v)
      ⟨n, us, l⟩ := (finds_take _ hclosing hproperties).bind fun _ _ => reads_pure _ _
  refine (finds_peek n v.word us l).bind fun t ht => ?_
  have hliteral : literal? t = some v := literal?_of_word (word_of_sees ht hclosing hproperties)
  rw [hliteral, kind_of_sees ht hclosing]
  cases v with
  | string body => exact absurd rfl (hv body)
  | boolean b => cases b <;> exact htake
  | _ => exact htake

theorem reads_primary_parenthesized (h : Reads expr ⟨0, ws ++ .punct .closeParen :: us, l⟩ e
    ⟨0, .punct .closeParen :: us, l⟩) :
    Reads (primary expr) ⟨n, .punct .openParen :: (ws ++ .punct .closeParen :: us), l⟩ e
      ⟨n, us, l⟩ := by
  refine (finds_peek n (.punct .openParen) _ l).bind fun t ht => ?_
  rw [kind_of_sees ht (by rintro ⟨⟩)]
  refine (finds_take (.punct .openParen) (by rintro ⟨⟩) (by rintro ⟨⟩)).bind fun _ _ => ?_
  exact Reads.bind h.shielded ((reads_expectPunct _ (by decide)).bind (reads_pure _ _))

theorem reads_unary_some (op : UnaryOp) (h : Reads (primary expr) ⟨n, ws, l⟩ e Q) :
    Reads (unary expr) ⟨n, .punct op.punct :: ws, l⟩ (.unary op e) Q := by
  have hclosing : Word.punct op.punct ≠ .closing := by
    intro h
    exact absurd (Word.punct.inj h) (by cases op <;> decide)
  have hop : unaryOp? (Word.punct op.punct).kind = some op := by cases op <;> rfl
  refine (reads_kind? hclosing).bind ?_
  rw [Option.bind_some, hop]
  exact (finds_take _ hclosing (by rintro ⟨⟩)).bind fun _ _ => h.bind (reads_pure _ _)

theorem reads_unary_none (h : P.Avoids fun kind => (unaryOp? kind).isSome)
    (hprimary : Reads (primary expr) P e Q) : Reads (unary expr) P e Q := by
  refine (finds_kind? h.canLook).bind fun _ ⟨t?, hsees, hkind?⟩ => ?_
  have hnone : (t?.map Token.kind).bind unaryOp? = none := by
    cases t? with
    | none => rfl
    | some t => exact Option.not_isSome_iff_eq_none.1 (h.not_sees t hsees)
  rw [hkind?, hnone]
  exact hprimary

/-! ## Levels -/

/-- At a binary level, a first operand has been read and then operators with theirs. -/
def Groups (tight : Parser ConstExpr) (ops : List BinaryOp) (P : Place) (e : ConstExpr)
    (Q : Place) :
    Prop :=
  ∃ first more R, Reads tight P first R ∧ Items (nextOperand tight ops) R more Q ∧
    more.foldl (fun lhs (op, rhs) => .binary op lhs rhs) first = e

variable {tight operand : Parser ConstExpr} {ops : List BinaryOp} {tighter : List (List BinaryOp)}

theorem Groups.of_reads (h : Reads tight P e Q) : Groups tight ops P e Q :=
  ⟨e, [], Q, h, .nil Q, rfl⟩

theorem Groups.binary {R S : Place} {op : BinaryOp} {lhs rhs : ConstExpr}
    (h : Groups tight ops P lhs Q) (hop : Reads (operator? ops) Q (some op) R)
    (hrhs : Reads tight R rhs S) (hsize : S.size < Q.size) :
    Groups tight ops P (.binary op lhs rhs) S := by
  obtain ⟨first, more, T, hfirst, hmore, rfl⟩ := h
  refine ⟨first, more ++ [(op, rhs)], T, hfirst, hmore.append (.cons ?_ hsize (.nil S)), ?_⟩
  · exact hop.bind (hrhs.bind (reads_pure _ _))
  · rw [List.foldl_append, List.foldl_cons, List.foldl_nil]

/-- Where no operator comes next, the level is over. -/
theorem Groups.reads (h : Groups (leftGrouped operand tighter) ops P e Q)
    (hend : Reads (operator? ops) Q none Q) :
    Reads (leftGrouped operand (ops :: tighter)) P e Q := by
  obtain ⟨first, more, T, hfirst, hmore, rfl⟩ := h
  exact hfirst.bind (Reads.bind (hmore.reads_many (hend.bind (reads_pure none Q))) (reads_pure _ Q))

/-- The parser of a level of sentences. -/
def phrase (expr : Parser ConstExpr) (k : Nat) : Parser ConstExpr :=
  if k ≤ 6 then leftGrouped (unary expr) (BinaryOp.levels.drop k) else primary expr

/-- A level is read if its operands are grouped, or if it has no binary operators. -/
theorem reads_phrase
    (hgroups : ∀ ops, BinaryOp.levels.drop k = ops :: BinaryOp.levels.drop (k + 1) →
      Groups (phrase expr (k + 1)) ops P e Q)
    (htight : 6 ≤ k → Reads (phrase expr k) P e Q) (hstops : Q.Stops k) :
    Reads (phrase expr k) P e Q := by
  by_cases hk : k < 6
  · obtain ⟨ops, hdrop, hops⟩ := BinaryOp.exists_drop_levels hk
    have hread := hgroups ops hdrop
    rw [phrase, if_pos (Nat.succ_le_of_lt hk)] at hread
    rw [phrase, if_pos (Nat.le_of_lt hk), hdrop]
    exact hread.reads (reads_operator?_none hstops fun op hop => Nat.le_of_eq
      ((hops op).1 hop).symm)
  · exact htight (Nat.le_of_not_lt hk)

end Parser

open IdlFrontend.Parser

/-- What needs no parentheses begins with no operator. -/
theorem Sentence.exists_first (h : Sentence inAngles 7 ws e) :
    ∃ w vs, ws = w :: vs ∧ w ≠ .closing ∧ unaryOp? w.kind = none := by
  generalize hk : 7 = k at h
  cases h with
  | @binary _ op =>
    have := op.level_lt
    omega
  | tighter h =>
    have := h.level_le
    omega
  | unary => omega
  | name _ x =>
    obtain ⟨w, vs, hwords, rfl | ⟨name, rfl⟩⟩ := x.exists_words
    · exact ⟨_, vs, hwords, by rintro ⟨⟩, rfl⟩
    · exact ⟨_, vs, hwords, by rintro ⟨⟩, rfl⟩
  | @literal _ v =>
    refine ⟨v.word, [], rfl, v.word_ne.1, ?_⟩
    cases v with
    | boolean b => cases b <;> rfl
    | _ => rfl
  | strings => exact ⟨_, _, rfl, by rintro ⟨⟩, rfl⟩
  | parenthesized => exact ⟨_, _, rfl, by rintro ⟨⟩, rfl⟩

theorem Place.stops_operator {op : BinaryOp} :
    Place.Stops (op.level + 1) ⟨n, .punct op.punct :: us, l⟩ := by
  refine Place.avoids_word ?_ ?_
  · intro h
    exact absurd (Word.punct.inj h) (by cases op <;> decide)
  · rintro (h | h | ⟨op', hlevel, h, -⟩)
    · exact absurd (TokenKind.punct.inj h) (by cases op <;> decide)
    · cases h
    · rw [BinaryOp.punct_injective (TokenKind.punct.inj h)] at hlevel
      exact absurd hlevel (Nat.not_succ_le_self _)

theorem BinaryOp.mem_levels (op : BinaryOp) : op ∈ levels.flatten := by cases op <;> decide

/-- Other punctuation continues no expression. -/
theorem not_continuesExpr_punct {p : Punct}
    (hp : p ∉ .scope :: BinaryOp.levels.flatten.map BinaryOp.punct) :
    ¬ContinuesExpr inAngles k (.punct p) := by
  rw [List.mem_cons, not_or] at hp
  rintro (h | h | ⟨op, -, h, -⟩)
  · exact hp.1 (TokenKind.punct.inj h)
  · cases h
  · exact hp.2 (List.mem_map.2 ⟨op, op.mem_levels, (TokenKind.punct.inj h).symm⟩)

theorem Place.stops_punct {p : Punct}
    (hp : p ∉ .greater :: .scope :: BinaryOp.levels.flatten.map BinaryOp.punct) :
    Place.Stops k ⟨n, .punct p :: us, l⟩ := by
  rw [List.mem_cons, not_or] at hp
  exact Place.avoids_word (fun h => hp.1 (Word.punct.inj h)) (not_continuesExpr_punct hp.2)

/-- A closing template bracket stops an expression in the template, also as a double angle. -/
theorem Place.stops_closing : Place.Stops k ⟨n + 1, .closing :: us, l⟩ := by
  refine Place.avoids_cons fun kind hkind => ?_
  have hkinds : kind = .punct .greater ∨ kind = .punct .shiftRight := by
    simpa [Word.kinds] using hkind
  rintro (h | h | ⟨op, -, h, hangles⟩)
  · rcases hkinds with rfl | rfl <;> cases h
  · rcases hkinds with rfl | rfl <;> cases h
  · rcases hkinds with rfl | rfl
    · exact absurd (TokenKind.punct.inj h) (by cases op <;> decide)
    · have hshift := hangles (BinaryOp.punct_injective (TokenKind.punct.inj h).symm)
      simp at hshift

/-- The parser of a level reads the sentences of the level. Those with binary operators can go
    on. -/
theorem Sentence.groups (h : Sentence inAngles k ws e) {depth : Nat}
    (hangles : inAngles = decide (0 < n)) (hsize : Place.size ⟨n, ws ++ us, l⟩ ≤ depth)
    (hstops : Place.Stops (k + 1) ⟨n, us, l⟩) :
    (∀ ops, BinaryOp.levels.drop k = ops :: BinaryOp.levels.drop (k + 1) →
      Groups (phrase (unfold expressionRound depth ()) (k + 1)) ops ⟨n, ws ++ us, l⟩ e ⟨n, us, l⟩) ∧
    (6 ≤ k → Reads (phrase (unfold expressionRound depth ()) k) ⟨n, ws ++ us, l⟩ e ⟨n, us, l⟩) := by
  induction h generalizing depth n us with
  | @binary inAngles op vs ws lhs rhs hshift hl hr ihl ihr =>
    have hlevel := op.level_lt
    refine ⟨fun ops hdrop => ?_, fun hk => absurd hlevel (Nat.not_lt.2 hk)⟩
    rw [List.append_assoc, List.cons_append] at hsize ⊢
    have hop : op ∈ ops := by
      obtain ⟨ops', hdrop', hops⟩ := BinaryOp.exists_drop_levels hlevel
      rw [hdrop, List.cons.injEq] at hdrop'
      rw [hdrop'.1]
      exact (hops op).2 rfl
    have hsizer := Place.size_lt (n := n) (k := n) hl.ne_nil (.punct op.punct :: (ws ++ us)) l
    have hsizeop :=
      Place.size_lt (n := n) (k := n) (List.cons_ne_nil (Word.punct op.punct) []) (ws ++ us) l
    have hsizeu := Place.size_lt (n := n) (k := n) hr.ne_nil us l
    rw [List.singleton_append] at hsizeop
    have hlhs := (ihl hangles hsize Place.stops_operator).1 ops hdrop
    have hsizerhs : Place.size ⟨n, ws ++ us, l⟩ ≤ depth := by omega
    obtain ⟨hgroups, htight⟩ := ihr hangles hsizerhs (hstops.mono (Nat.le_succ _))
    have hrhs := reads_phrase hgroups htight hstops
    refine hlhs.binary (reads_operator?_some hop fun hop => ?_) hrhs (by omega)
    rw [hangles, decide_eq_true_eq] at hshift
    exact Nat.eq_zero_of_not_pos fun hpos => hshift hpos hop
  | @tighter inAngles k ws e h ih =>
    have hlevel := h.level_le
    obtain ⟨hgroups, htight⟩ := ih hangles hsize (hstops.mono (Nat.le_succ _))
    have hread := reads_phrase hgroups htight hstops
    refine ⟨fun ops _ => .of_reads hread, fun hk => ?_⟩
    obtain rfl : k = 6 := by omega
    obtain ⟨w, vs, rfl, hclosing, hunary⟩ := h.exists_first
    refine reads_unary_none (Place.avoids_word hclosing ?_) hread
    rw [hunary]
    rintro ⟨⟩
  | @unary inAngles op ws e h ih =>
    refine ⟨fun ops hdrop => (List.cons_ne_nil _ _ hdrop.symm).elim, fun _ => ?_⟩
    have hsize' :=
      Place.size_lt (n := n) (k := n) (List.cons_ne_nil (Word.punct op.punct) []) (ws ++ us) l
    refine reads_unary_some op ((ih hangles ?_ (hstops.mono (Nat.le_succ _))).2 (by decide))
    exact Nat.le_of_lt (Nat.lt_of_lt_of_le hsize' hsize)
  | name _ x =>
    refine ⟨fun ops hdrop => (List.cons_ne_nil _ _ hdrop.symm).elim, fun _ => ?_⟩
    exact reads_primary_name x (Place.Avoids.mono hstops fun _ h => .inl h)
  | literal _ hv =>
    refine ⟨fun ops hdrop => (List.cons_ne_nil _ _ hdrop.symm).elim, fun _ => ?_⟩
    exact reads_primary_literal hv
  | strings _ first more =>
    refine ⟨fun ops hdrop => (List.cons_ne_nil _ _ hdrop.symm).elim, fun _ => ?_⟩
    exact reads_primary_strings first more (Place.Avoids.mono hstops fun _ h => .inr (.inl h))
  | @parenthesized _ ws e h ih =>
    refine ⟨fun ops hdrop => (List.cons_ne_nil _ _ hdrop.symm).elim, fun _ => ?_⟩
    rw [List.cons_append, List.append_assoc] at hsize ⊢
    have hsize' := Place.size_lt (n := 0) (k := n) (List.cons_ne_nil (Word.punct .openParen) [])
      (ws ++ (.punct .closeParen :: us)) l
    obtain ⟨depth, rfl⟩ := Nat.exists_eq_add_one_of_ne_zero
      (Nat.ne_zero_of_lt (Nat.lt_of_lt_of_le hsize' hsize))
    obtain ⟨hgroups, htight⟩ := ih (n := 0) rfl
      (Nat.le_of_lt_succ (Nat.lt_of_lt_of_le hsize' hsize)) (Place.stops_punct (by decide))
    exact reads_primary_parenthesized (reads_phrase hgroups htight (Place.stops_punct (by decide)))

theorem Sentence.reads_constExpr (h : Sentence inAngles 0 ws e)
    (hangles : inAngles = decide (0 < n)) (hstops : Place.Stops 0 ⟨n, us, l⟩) :
    Reads constExpr ⟨n, ws ++ us, l⟩ e ⟨n, us, l⟩ := by
  refine finds_recurse fun depth hdepth => ?_
  obtain ⟨depth, rfl⟩ := Nat.exists_eq_add_one_of_ne_zero (Nat.ne_zero_of_lt hdepth)
  obtain ⟨hgroups, htight⟩ :=
    h.groups hangles (Nat.le_of_lt_succ hdepth) (hstops.mono (Nat.zero_le _))
  exact reads_phrase hgroups htight hstops

end IdlFrontend
