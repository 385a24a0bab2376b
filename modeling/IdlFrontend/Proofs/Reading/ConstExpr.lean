import IdlFrontend.Proofs.Reading.Accepted
import IdlFrontend.Proofs.Reading.Expr
import IdlFrontend.Proofs.Reading.Written

/-!
# Constant expressions in texts

An expression is written down with parentheses only where its grammar demands them, and read back.
The texts of its literals must be tokens, and the segments of its names must be identifiers.

Results:

* `ConstExpr.writable_words`: the words of such an expression can be written down.
* `constExpr_grammar`: expressions that are written down are read back, every sentence of the
  grammar is read as its tree, and nothing else is accepted.
-/

namespace IdlFrontend

/-- The segments of the name are identifiers. -/
def ScopedName.IsWritable (d : Dialect) (x : ScopedName) : Prop :=
  ∀ s ∈ x.segments, IsToken d .ordinary .identifier s

instance (d : Dialect) (x : ScopedName) : Decidable (x.IsWritable d) :=
  inferInstanceAs (Decidable (∀ _ ∈ _, _))

/-- The literal is written as one token of its kind. -/
def Literal.IsWritable (d : Dialect) (v : Literal) : Prop :=
  IsToken d .ordinary v.word.kind v.word.text

instance (d : Dialect) (v : Literal) : Decidable (v.IsWritable d) :=
  inferInstanceAs (Decidable (IsToken _ _ _ _))

/-- The literals of the expression are tokens, the segments of its names are identifiers, and only
    string literals stand next to each other. -/
def ConstExpr.IsWritable (d : Dialect) : ConstExpr → Prop
  | .literal v => v.IsWritable d
  | .name x => x.IsWritable d
  | .binary _ lhs rhs => lhs.IsWritable d ∧ rhs.IsWritable d
  | .unary _ e => e.IsWritable d
  | .concat lhs rhs =>
    lhs.IsWritable d ∧ rhs.IsWritable d ∧ (ConstExpr.concat lhs rhs).isText

variable {d : Dialect} {n k : Nat} {inAngles : Bool} {ws : List Word}

theorem ConstExpr.IsWritable.isProper {e : ConstExpr} (h : e.IsWritable d) : e.isProper := by
  induction e with
  | literal | name => rfl
  | binary op lhs rhs ihl ihr => rw [ConstExpr.isProper, ihl h.1, ihr h.2]; rfl
  | unary op e ih => exact ih h
  | concat lhs rhs => exact h.2.2

/-! ## Words -/

theorem ScopedName.writable_words {x : ScopedName} (h : x.IsWritable d) :
    Writable d .ordinary x.words .ordinary := by
  have hidentifier (s : Text) (hs : s ∈ x.segments) {ws : List Word}
      (hws : Writable d .ordinary ws .ordinary) :
      Writable d .ordinary (.identifier s :: ws) .ordinary :=
    .token (h s hs) (by simp) (by rintro ⟨⟩) hws
  obtain ⟨first, more, -, hsegments⟩ := x.exists_ofFirst
  have hsegs : Writable d .ordinary (separated .scope (fun s => [.identifier s]) x.segments)
      .ordinary := by
    rw [hsegments] at hidentifier ⊢
    rw [List.forall_mem_cons] at hidentifier
    refine hidentifier.1 (.flatMap fun s hs => ?_)
    exact .punct .scope (hidentifier.2 s hs (.nil _))
  unfold ScopedName.words
  split
  · exact .punct .scope hsegs
  · exact hsegs

theorem Writable.parenthesizedIf {c : Prop} [Decidable c] (h : Writable d .ordinary ws .ordinary) :
    Writable d .ordinary (parenthesizedIf c ws) .ordinary := by
  unfold IdlFrontend.parenthesizedIf
  split
  · exact .punct .openParen (h.append (.punct .closeParen (.nil _)))
  · exact h

theorem ConstExpr.writable_words {e : ConstExpr} (h : e.IsWritable d) (inAngles : Bool) (k : Nat) :
    Writable d .ordinary (e.words inAngles k) .ordinary := by
  induction e generalizing k with
  | literal v =>
    refine .token h ?_ (by rintro ⟨⟩) (.nil _)
    cases v with
    | boolean b => cases b <;> simp [Literal.word]
    | _ => simp [Literal.word]
  | name x => exact ScopedName.writable_words h
  | binary op lhs rhs ihl ihr =>
    exact Writable.parenthesizedIf ((ihl h.1 _).append (.punct op.punct (ihr h.2 _)))
  | unary op e ih => exact Writable.parenthesizedIf (.punct op.punct (ih h _))
  | concat lhs rhs ihl ihr => exact (ihl h.1 _).append (ihr h.2.1 _)

/-! ## Texts -/

namespace Parser

theorem stops_of_next_none {m m' : Lexer} (h : m.next = (.ok none, m')) :
    Place.Stops k ⟨n, [], m⟩ := by
  refine ⟨fun _ => ⟨none, congrArg Prod.fst h⟩, fun t hsees => ?_⟩
  have hnext : m.next.1 = .ok (some t) := hsees
  rw [h] at hnext
  cases hnext

theorem stops_of_tokens {m : Lexer} {us : List Token} (hus : m.tokenize.1 = us)
    (hok : m.tokenize.2.1 = none) (h : ∀ t ∈ us.head?, ¬ContinuesExpr (decide (0 < n)) k t.kind) :
    Place.Stops k ⟨n, [], m⟩ := by
  refine ⟨fun _ => ?_, fun t hsees => h t ?_⟩
  · show ∃ t?, m.next.1 = .ok t?
    rcases hnext : m.next with ⟨e | t?, m'⟩
    · rw [Lexer.tokenize] at hok
      split at hok <;> rename_i heq <;> rw [hnext] at heq <;> cases heq
      cases hok
    · exact ⟨t?, rfl⟩
  · have hnext : m.next = (.ok (some t), m.next.2) := Prod.ext hsees rfl
    rw [← hus, Lexer.tokenize_of_next hnext]
    rfl

/-- At the end of the text there is nothing to look at. -/
theorem peek?_of_next_none {s : TokenStream} {m m' : Lexer} (h : m.next = (.ok none, m'))
    (hs : s.At ⟨n, [], m⟩) : (run peek? s).1 = .ok none := by
  obtain ⟨t?, s', hrun, hsees, -⟩ := finds_peek? (fun _ => ⟨none, congrArg Prod.fst h⟩) s hs
  have hnext : m.next.1 = .ok t? := hsees
  rw [h] at hnext
  rw [hrun, ← Except.ok.inj hnext]

/-- An expression that is written down with no more parentheses than needed is read back, and
    nothing else is read. Every sentence of the grammar is read as its tree, in front of
    anything that does not continue it. Whatever is accepted is a sentence whose tree is the
    result. -/
theorem constExpr_grammar (d : Dialect) (n : Nat) :
    (∀ e : ConstExpr, e.IsWritable d →
      ∃ s', run constExpr (.ofTextWithin d (Word.line (e.words (decide (0 < n)) 0)) n) =
        (.ok e, s') ∧
        s'.openAngles = n ∧ (run peek? s').1 = .ok none) ∧
    (∀ (cs : Text) (ts us : List Token) (e : ConstExpr), Token.ofText d cs = .ok (ts ++ us) →
      Sentence (decide (0 < n)) 0 (ts.map Token.word) e →
      (∀ t ∈ us.head?, ¬ContinuesExpr (decide (0 < n)) 0 t.kind) →
      ∃ s', run constExpr (.ofTextWithin d cs n) = (.ok e, s') ∧ s'.openAngles = n ∧
        s'.tokens = us) ∧
    ∀ (s s' : TokenStream) (e : ConstExpr), run constExpr s = (.ok e, s') →
      s'.openAngles = s.openAngles ∧ ∃ ts, s.tokens = ts ++ s'.tokens ∧
        Sentence (decide (0 < s.openAngles)) 0 (ts.map Token.word) e := by
  refine ⟨fun e he => ?_, fun cs ts us e hcs hsentence hus => ?_, fun s s' e hrun => ?_⟩
  · obtain ⟨m, m', hat, hend⟩ := (ConstExpr.writable_words he (decide (0 < n)) 0).written.at n
    have hsentence := ConstExpr.sentence_words he.isProper (decide (0 < n)) (Nat.zero_le 7)
    have hread := hsentence.reads_constExpr (l := m) rfl (stops_of_next_none (n := n) hend)
    rw [List.append_nil] at hread
    obtain ⟨_, s', hrun, rfl, hat'⟩ := hread _ hat
    exact ⟨s', hrun, hat'.openAngles, peek?_of_next_none hend hat'⟩
  · obtain ⟨htokens, hok⟩ := Lexer.tokenize_of_ofText_ok hcs
    obtain ⟨m, hgives, hrest, hfailure⟩ := (Token.spell_map_word ts).exists_gives htokens
    have hstops : Place.Stops 0 ⟨n, [], m⟩ := stops_of_tokens hrest (hfailure.trans hok) hus
    have hread := hsentence.reads_constExpr rfl hstops
    rw [List.append_nil] at hread
    obtain ⟨_, s', hrun, rfl, hat⟩ := hread (.ofTextWithin d cs n) ⟨rfl, .unread rfl hgives⟩
    exact ⟨s', hrun, hat.openAngles, hat.tokens_eq.trans hrest⟩
  · exact consumes_constExpr s e s' True.intro hrun

/-- Within a template bracket a shift is written in parentheses and read back. Outside of them it is
    a sentence, up to what does not continue it, and nothing else has been accepted. -/
theorem constExpr_grammar_shift :
    let shift : ConstExpr :=
      .binary .shiftRight (.literal (.integer ['1'])) (.name ⟨⟨true, []⟩, ['x']⟩)
    let e : ConstExpr := .binary .mul shift (.literal (.fixedPoint ['2', '.', '5', 'd']))
    let us : List Token := [⟨.punct .semicolon, [';'], 1⟩]
    (∃ s', run constExpr (.ofTextWithin .omg "( 1 >> :: x ) * 2.5d ".toList 1) = (.ok e, s') ∧
      s'.openAngles = 1 ∧ (run peek? s').1 = .ok none) ∧
    ∃ s', run constExpr (.ofTextWithin .omg "1>>::x;".toList 0) = (.ok shift, s') ∧ s'.tokens = us ∧
      ∃ vs, (TokenStream.ofTextWithin .omg "1>>::x;".toList 0).tokens = vs ++ s'.tokens ∧
        Sentence false 0 (vs.map Token.word) shift := by
  intro shift e us
  let ts : List Token := [⟨.integer, ['1'], 1⟩, ⟨.punct .shiftRight, ['>', '>'], 1⟩,
    ⟨.punct .scope, [':', ':'], 1⟩, ⟨.identifier, ['x'], 1⟩]
  have hone : Literal.IsWritable .omg (.integer ['1']) := by decide
  have hx : ScopedName.IsWritable .omg ⟨⟨true, []⟩, ['x']⟩ := by decide
  have hfixed : Literal.IsWritable .omg (.fixedPoint ['2', '.', '5', 'd']) := by decide
  have hwritable : e.IsWritable .omg := ⟨⟨hone, hx⟩, hfixed⟩
  have hsteps : ((Lexer.ofText .omg "1>>::x;".toList).stepsWithin 8).map (·.filterMap Step.token?) =
      some (ts ++ us) := by decide +kernel
  obtain ⟨ss, hss, hts⟩ := Option.map_eq_some_iff.1 hsteps
  have htokens : Token.ofText .omg "1>>::x;".toList = .ok (ts ++ us) :=
    hts ▸ Lexer.ofText_of_stepsWithin hss
  have hshift : Sentence false 0 (ts.map Token.word) shift :=
    ConstExpr.sentence_words (e := shift) rfl false (Nat.zero_le 7)
  have hstop : ∀ t ∈ us.head?, ¬ContinuesExpr (decide (0 < 0)) 0 t.kind := by
    intro t ht
    obtain rfl := Option.some.inj ht
    exact not_continuesExpr_punct (by decide)
  refine ⟨(constExpr_grammar .omg 1).1 e hwritable, ?_⟩
  obtain ⟨s', hrun, -, hrest⟩ := (constExpr_grammar .omg 0).2.1 _ ts us shift htokens hshift hstop
  exact ⟨s', hrun, hrest, ((constExpr_grammar .omg 0).2.2 _ s' shift hrun).2⟩

end Parser

end IdlFrontend
