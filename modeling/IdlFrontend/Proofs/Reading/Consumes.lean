import IdlFrontend.Proofs.Reading.Place

/-!
# What a parser has consumed

Behind a parser that succeeds, the tokens of the text that are left are what it did not take. A
parser consumes according to a relation if the words that it takes and its result are so related,
whatever stream it starts from. The relation may depend on whether a template bracket is open, and
the parser leaves these brackets as it found them.

What a parser takes is often what it has looked at before. So the streams that it starts from can
be restricted.

Results:

* `tokens_peek?`: looking ahead takes nothing.
* `Consumes.bind`: parsers one after the other.
* `consumes_take`: a token that was looked at is the one that is taken.
* `consumes_recurse`, `consumes_many`: recursions and loops.
-/

namespace IdlFrontend

/-- The tokens that are left, up to the end of the text or an illegal token. -/
def TokenStream.tokens (s : TokenStream) : List Token := s.ahead.toList ++ s.lexer.tokenize.1

theorem Lexer.tokenize_of_next {l m : Lexer} {t? : Option Token} (h : l.next = (.ok t?, m)) :
    l.tokenize.1 = t?.toList ++ m.tokenize.1 := by
  cases t? with
  | some t =>
    rw [tokenize]
    split <;> rename_i heq <;> rw [h] at heq <;> cases heq
    rfl
  | none =>
    have hrest := rest_of_next_none h
    rw [tokenize_of_rest_eq_nil hrest, tokenize]
    split <;> rename_i heq <;> rw [h] at heq <;> cases heq
    rfl

/-- The first token of a text, and what is behind it. -/
theorem Lexer.next_of_tokenize_eq_cons {l : Lexer} {t : Token} {ts : List Token}
    (h : l.tokenize.1 = t :: ts) : ∃ m, l.next = (.ok (some t), m) ∧ m.tokenize.1 = ts ∧
      m.tokenize.2.1 = l.tokenize.2.1 := by
  rw [tokenize] at h ⊢
  split at h
  next u m hnext =>
    obtain ⟨rfl, rfl⟩ := List.cons.inj h
    exact ⟨m, hnext, rfl, rfl⟩
  · cases h
  · cases h

/-- The tokens stand for the words. A double angle can stand for two closing brackets. -/
inductive Token.Spell : List Token → List Word → Prop
  | nil : Spell [] []
  | word {t : Token} {ts : List Token} {ws : List Word} : Spell ts ws →
      Spell (t :: ts) (t.word :: ws)
  | closings {t : Token} {ts : List Token} {ws : List Word} : t.kind = .punct .shiftRight →
    Spell ts ws → Spell (t :: ts) (.closing :: .closing :: ws)

theorem Token.spell_map_word (ts : List Token) : Spell ts (ts.map Token.word) := by
  induction ts with
  | nil => exact .nil
  | cons t ts ih => exact ih.word

/-- The words that the first tokens of a text stand for. -/
theorem Token.Spell.exists_gives {ts us : List Token} {ws : List Word} (h : Spell ts ws) {l : Lexer}
    (hl : l.tokenize.1 = ts ++ us) :
    ∃ m, l.Gives ws m ∧ m.tokenize.1 = us ∧ m.tokenize.2.1 = l.tokenize.2.1 := by
  induction h generalizing l with
  | nil => exact ⟨l, .nil l, hl, rfl⟩
  | word _ ih =>
    obtain ⟨m, hnext, htokens, hfailure⟩ := Lexer.next_of_tokenize_eq_cons hl
    obtain ⟨m', hgives, htokens', hfailure'⟩ := ih htokens
    exact ⟨m', .cons hnext .word hgives, htokens', hfailure'.trans hfailure⟩
  | closings hkind _ ih =>
    obtain ⟨m, hnext, htokens, hfailure⟩ := Lexer.next_of_tokenize_eq_cons hl
    obtain ⟨m', hgives, htokens', hfailure'⟩ := ih htokens
    exact ⟨m', .cons hnext (.closings hkind) hgives, htokens', hfailure'.trans hfailure⟩

/-- Behind the words, the tokens are those that are left. -/
theorem TokenStream.At.tokens_eq {s : TokenStream} {n : Nat} {l : Lexer} (h : s.At ⟨n, [], l⟩) :
    s.tokens = l.tokenize.1 := by
  unfold tokens
  cases h.supplies with
  | unread hahead hgives =>
    rw [hahead, hgives.eq_of_nil]
    rfl
  | ahead _ hoffers => cases hoffers
  | beyond hnext => exact (Lexer.tokenize_of_next hnext).symm

namespace Parser

variable {α β ι : Type} {pre : TokenStream → Prop} {S : Bool → List Word → α → Prop}
  {T : Bool → List Word → β → Prop}

theorem tokens_peek? {s s' : TokenStream} {t? : Option Token} (h : run peek? s = (.ok t?, s')) :
    s'.tokens = s.tokens ∧ s'.ahead = t? ∧ s'.openAngles = s.openAngles := by
  have hahead := ahead_of_peek? (s := s) (t := t?) (by rw [h])
  rw [h] at hahead
  rw [run_peek?] at h
  cases hs : s.ahead with
  | some t =>
    rw [hs] at h
    cases h
    exact ⟨rfl, hahead, rfl⟩
  | none =>
    rw [hs] at h
    rcases hnext : s.lexer.next with ⟨e | u?, m⟩
    · rw [hnext] at h
      cases h
    · rw [hnext] at h
      cases h
      refine ⟨?_, rfl, rfl⟩
      rw [TokenStream.tokens, TokenStream.tokens, hs, Lexer.tokenize_of_next hnext]
      rfl

/-- The token that is taken is the first of those that were left. -/
theorem tokens_take {s s' : TokenStream} {t : Token} (h : run take s = (.ok t, s')) :
    s.tokens = t :: s'.tokens := by
  rw [run_take] at h
  rcases hpeek : run peek? s with ⟨e | _ | u, s₁⟩
  · rw [hpeek] at h
    cases h
  · rw [hpeek] at h
    cases h
  · rw [hpeek] at h
    cases h
    obtain ⟨htokens, hahead, -⟩ := tokens_peek? hpeek
    rw [← htokens, TokenStream.tokens, hahead]
    rfl

/-- In front of a single word, the token that it is stands before those that are left. -/
theorem exists_tokens_of_at {s : TokenStream} {n : Nat} {w : Word} {l : Lexer}
    (h : s.At ⟨n, [w], l⟩) (hclosing : w ≠ .closing) (hproperties : w ≠ .openProperties) :
    ∃ t, s.tokens = t :: l.tokenize.1 ∧ t.word = w := by
  obtain ⟨t, s', us, m, hrun, hoffers, hgives, hahead, -⟩ := run_take_of_at h
  obtain ⟨hword, rfl, rfl⟩ := hoffers.eq_word hclosing hproperties
  refine ⟨t, ?_, hword⟩
  rw [tokens_take hrun, TokenStream.tokens, hahead, hgives.eq_of_nil]
  rfl

/-- From streams as described, the parser takes words that are related to its result. It leaves as
    many template brackets open as there were. -/
def Consumes (pre : TokenStream → Prop) (p : Parser α) (S : Bool → List Word → α → Prop) : Prop :=
  ∀ s a s', pre s → run p s = (.ok a, s') → s'.openAngles = s.openAngles ∧
    ∃ ts, s.tokens = ts ++ s'.tokens ∧ S (decide (0 < s.openAngles)) (ts.map Token.word) a

/-- The parser does so from every stream. -/
abbrev AlwaysConsumes (p : Parser α) (S : Bool → List Word → α → Prop) : Prop :=
  Consumes (fun _ => True) p S

/-! ## Building blocks -/

theorem Consumes.mono {p : Parser α} {S' : Bool → List Word → α → Prop} (hp : Consumes pre p S)
    (h : ∀ inAngles ws a, S inAngles ws a → S' inAngles ws a) : Consumes pre p S' := by
  intro s a s' hs hrun
  obtain ⟨hangles, ts, htokens, hwords⟩ := hp s a s' hs hrun
  exact ⟨hangles, ts, htokens, h _ _ _ hwords⟩

theorem Consumes.weaken {pre' : TokenStream → Prop} {p : Parser α} (hp : Consumes pre p S)
    (h : ∀ s, pre' s → pre s) : Consumes pre' p S :=
  fun s a s' hs hrun => hp s a s' (h s hs) hrun

theorem AlwaysConsumes.from {p : Parser α} (hp : AlwaysConsumes p S) (pre : TokenStream → Prop) :
    Consumes pre p S :=
  hp.weaken fun _ _ => True.intro

theorem consumes_pure {a : α} (h : ∀ inAngles, S inAngles [] a) : Consumes pre (pure a) S := by
  intro s b s' _ hrun
  cases hrun
  exact ⟨rfl, [], rfl, h _⟩

theorem consumes_throw (e : ParseError) : Consumes pre (throw e) S :=
  fun _ _ _ _ hrun => by cases hrun

/-- What is behind a parser may rely on what the parser has taken. -/
theorem Consumes.bind {p : Parser α} {f : α → Parser β} (hp : Consumes pre p S)
    (hf : ∀ a, AlwaysConsumes (f a) fun inAngles us b => ∀ ws, S inAngles ws a →
      T inAngles (ws ++ us) b) :
    Consumes pre (p >>= f) T := by
  intro s b s'' hs hrun
  rw [run_bind] at hrun
  rcases hp' : run p s with ⟨e | a, s'⟩
  · rw [hp'] at hrun
    cases hrun
  · rw [hp'] at hrun
    obtain ⟨hangles, ts, htokens, hwords⟩ := hp s a s' hs hp'
    obtain ⟨hangles', us, htokens', hrest⟩ := hf a s' b s'' True.intro hrun
    refine ⟨hangles'.trans hangles, ts ++ us, ?_, ?_⟩
    · rw [htokens, htokens', List.append_assoc]
    · rw [hangles] at hrest
      rw [List.map_append]
      exact hrest _ hwords

/-- Behind the current state, it is known whether a template bracket is open. -/
theorem consumes_get_bind {f : TokenStream → Parser β}
    (h : ∀ s, pre s → Consumes (· = s) (f s) fun inAngles ws b =>
      inAngles = decide (0 < s.openAngles) → T inAngles ws b) : Consumes pre (get >>= f) T := by
  intro s b s' hs hrun
  rw [run_bind, run_get] at hrun
  obtain ⟨hangles, ts, htokens, hwords⟩ := h s hs s b s' rfl hrun
  exact ⟨hangles, ts, htokens, hwords rfl⟩

theorem consumes_fail (fault : SyntaxFault) : Consumes pre (fail fault) S :=
  consumes_get_bind fun _ _ => consumes_throw _

theorem consumes_failAtEnd : Consumes pre failAtEnd S := consumes_throw _

theorem consumes_ite {c : Prop} [Decidable c] {p q : Parser α} (hp : c → Consumes pre p S)
    (hq : ¬c → Consumes pre q S) : Consumes pre (if c then p else q) S := by
  split
  next h => exact hp h
  next h => exact hq h

/-! ## Tokens -/

/-- Behind a look at the next token, it is known what is ahead. -/
theorem consumes_peek?_bind {f : Option Token → Parser β}
    (h : ∀ t?, Consumes (TokenStream.ahead · = t?) (f t?) T) : Consumes pre (peek? >>= f) T := by
  intro s b s'' _ hrun
  rw [run_bind] at hrun
  rcases hpeek : run peek? s with ⟨e | t?, s'⟩
  · rw [hpeek] at hrun
    cases hrun
  · rw [hpeek] at hrun
    obtain ⟨htokens, hahead, hangles⟩ := tokens_peek? hpeek
    rw [← htokens, ← hangles]
    exact h t? s' b s'' hahead hrun

theorem consumes_peek_bind {f : Token → Parser β}
    (h : ∀ t, Consumes (TokenStream.ahead · = some t) (f t) T) : Consumes pre (peek >>= f) T := by
  intro s b s' hs hrun
  have hpeek : run (peek >>= f) s = run (peek? >>= fun t? => t?.elim failAtEnd f) s := by
    unfold peek
    rw [run_bind, run_bind, run_bind]
    rcases run peek? s with ⟨e | _ | t, s'⟩ <;> rfl
  rw [hpeek] at hrun
  refine consumes_peek?_bind (fun t? => ?_) s b s' hs hrun
  cases t? with
  | some t => exact h t
  | none => exact consumes_failAtEnd

theorem consumes_kind?_bind {f : Option TokenKind → Parser β}
    (h : ∀ t?, Consumes (TokenStream.ahead · = t?) (f (t?.map Token.kind)) T) :
    Consumes pre (kind? >>= f) T := by
  intro s b s' hs hrun
  have hkind : run (kind? >>= f) s = run (do f ((← peek?).map Token.kind)) s := by
    unfold kind?
    rw [run_bind, run_bind, run_bind]
    rcases run peek? s with ⟨e | t?, s'⟩ <;> rfl
  rw [hkind] at hrun
  exact consumes_peek?_bind h s b s' hs hrun

/-- The token that is ahead is the one that is taken. -/
theorem consumes_take (t : Token) :
    Consumes (TokenStream.ahead · = some t) take fun _ ws u => u = t ∧ ws = [t.word] := by
  intro s u s' hs hrun
  have hpeek : run peek? s = (.ok (some t), s) := by rw [run_peek?, hs]
  rw [run_take, hpeek] at hrun
  cases hrun
  refine ⟨rfl, [t], ?_, rfl, rfl⟩
  rw [TokenStream.tokens, hs]
  rfl

theorem consumes_isNext_bind {kind : TokenKind} {f : Bool → Parser β}
    (htrue : ∀ t : Token, t.kind = kind → Consumes (TokenStream.ahead · = some t) (f true) T)
    (hfalse : AlwaysConsumes (f false) T) : Consumes pre (isNext kind >>= f) T := by
  intro s b s' hs hrun
  have hnext : run (isNext kind >>= f) s = run (do f ((← kind?) == some kind)) s := by
    unfold isNext
    rw [run_bind, run_bind, run_bind]
    rcases run kind? s with ⟨e | k?, s'⟩ <;> rfl
  rw [hnext] at hrun
  refine consumes_kind?_bind (fun t? => ?_) s b s' hs hrun
  by_cases hkind : t?.map Token.kind = some kind
  · obtain ⟨t, rfl, ht⟩ := Option.map_eq_some_iff.1 hkind
    rw [beq_iff_eq.2 hkind]
    exact htrue t ht
  · rw [beq_eq_false_iff_ne.2 hkind]
    exact hfalse.from _

theorem consumes_expect (kind : TokenKind) (place : String) :
    AlwaysConsumes (expect kind place) fun _ ws t => ws = [t.word] ∧ t.kind = kind := by
  refine consumes_isNext_bind (fun t ht => ?_) ?_
  · exact (consumes_take t).mono fun _ ws u hu => by rw [hu.1]; exact ⟨hu.2, ht⟩
  · exact consumes_peek_bind fun t => consumes_fail _

theorem consumes_expectPunct (p : Punct) (place : String) :
    AlwaysConsumes (expectPunct p place) fun _ ws _ => ws = [.punct p] := by
  refine (consumes_expect (.punct p) place).bind fun t => consumes_pure fun _ ws hws => ?_
  rw [List.append_nil, hws.1, Token.word, hws.2]

theorem consumes_identifier (place : String) :
    AlwaysConsumes (identifier place) fun _ ws name => ws = [.identifier name] := by
  refine (consumes_expect .identifier place).bind fun t => consumes_pure fun _ ws hws => ?_
  rw [List.append_nil, hws.1, Token.word, hws.2]

/-- Within parentheses, no template bracket counts as open. -/
theorem AlwaysConsumes.shielded {p : Parser α} (hp : AlwaysConsumes p S) :
    AlwaysConsumes (shielded p) fun _ => S false := by
  intro s a s' _ hrun
  unfold Parser.shielded at hrun
  rw [run_bind, run_get] at hrun
  dsimp only at hrun
  rw [run_bind, run_modify] at hrun
  dsimp only at hrun
  rw [run_bind] at hrun
  rcases hp' : run p { s with openAngles := 0 } with ⟨e | b, t⟩
  · rw [hp'] at hrun
    cases hrun
  · rw [hp'] at hrun
    obtain ⟨-, ts, htokens, hwords⟩ := hp _ b t True.intro hp'
    cases hrun
    exact ⟨rfl, ts, htokens, hwords⟩

/-! ## Recursion -/

/-- What a round of a recursion consumes if the rounds inside it consume it, the recursion
    consumes. -/
theorem consumes_recurse {body : (ι → Parser α) → ι → Parser α}
    {S : ι → Bool → List Word → α → Prop}
    (hbody : ∀ more, (∀ j, AlwaysConsumes (more j) (S j)) → ∀ i, AlwaysConsumes (body more i) (S i))
    (i : ι) : AlwaysConsumes (recurse body i) (S i) := by
  have hunfold (depth : Nat) : ∀ j, AlwaysConsumes (unfold body depth j) (S j) := by
    induction depth with
    | zero => exact fun _ => consumes_failAtEnd
    | succ depth ih => exact hbody _ ih
  exact consumes_get_bind fun _ _ => ((hunfold _ i).from _).mono fun _ _ _ h _ => h

theorem consumes_many {item : Parser (Option α)} {I : Bool → List Word → Option α → Prop}
    {S : Bool → List Word → List α → Prop} (h : AlwaysConsumes item I)
    (hnil : ∀ inAngles ws, I inAngles ws none → S inAngles ws [])
    (hcons : ∀ inAngles ws us a as, I inAngles ws (some a) → S inAngles us as →
      S inAngles (ws ++ us) (a :: as)) : AlwaysConsumes (many item) S := by
  refine consumes_recurse (S := fun _ => S) (fun more hmore _ => ?_) ()
  refine h.bind fun a? => ?_
  cases a? with
  | none => exact consumes_pure fun b ws hws => by rw [List.append_nil]; exact hnil b ws hws
  | some a =>
    refine (hmore ()).bind fun as => consumes_pure fun b us hus ws hws => ?_
    rw [List.append_nil]
    exact hcons b ws us a as hws hus

end Parser

end IdlFrontend
