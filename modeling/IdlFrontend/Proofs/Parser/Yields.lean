import IdlFrontend.Grammar.Parser
import IdlFrontend.Proofs.Lexer.Regular

/-!
# What parsers return

A parser yields a property if every result that it returns has the property, whatever
stream of a dialect it starts from. The rules of this module follow the building blocks
of parsers, so that a property of the results of a production is proved from those of
the productions it is made of.

Results:

* `Yields.bind`: parsers one after the other.
* `yields_recurse`: a parser with itself in place of its argument.
* `yields_many`, `yields_commaList`: repetitions.
-/

namespace IdlFrontend

/-- A stream over a text of the dialect. -/
structure TokenStream.Regular (dialect : Dialect) (s : TokenStream) : Prop where
  dialect_eq : s.lexer.dialect = dialect
  ahead : ∀ t ∈ s.ahead, t.Regular dialect

namespace Parser

variable {α β ι : Type} {d : Dialect} {P : α → Prop} {Q : β → Prop}

/-- Every result of the parser on a stream of the dialect has the property. The stream
    remains one of the dialect. -/
def Yields (d : Dialect) (P : α → Prop) (p : Parser α) : Prop :=
  ∀ s, s.Regular d → (p.run s).2.Regular d ∧ ∀ a, (p.run s).1 = .ok a → P a

/-! ## Building blocks -/

theorem Yields.mono {P' : α → Prop} {p : Parser α} (hp : Yields d P p) (h : ∀ a, P a → P' a) :
    Yields d P' p :=
  fun s hs => ⟨(hp s hs).1, fun a ha => h a ((hp s hs).2 a ha)⟩

theorem Yields.trivial {p : Parser α} (hp : Yields d P p) : Yields d (fun _ => True) p :=
  hp.mono fun _ _ => True.intro

theorem yields_pure {a : α} (h : P a) : Yields d P (pure a) :=
  fun _ hs => ⟨hs, fun b hb => by cases hb; exact h⟩

theorem yields_throw (e : ParseError) : Yields d P (throw e) :=
  fun _ hs => ⟨hs, fun _ h => by cases h⟩

theorem Yields.bind {p : Parser α} {f : α → Parser β} (hp : Yields d P p)
    (hf : ∀ a, P a → Yields d Q (f a)) : Yields d Q (p >>= f) := by
  intro s hs
  obtain ⟨hstream, hresult⟩ := hp s hs
  rw [run_bind]
  rcases hrun : p.run s with ⟨e | a, t⟩
  · rw [hrun] at hstream
    exact ⟨hstream, fun _ h => by cases h⟩
  · rw [hrun] at hstream hresult
    exact hf a (hresult a rfl) t hstream

theorem Yields.map {p : Parser α} {f : α → β} (hp : Yields d P p) (hf : ∀ a, P a → Q (f a)) :
    Yields d Q (f <$> p) := by
  intro s hs
  obtain ⟨hstream, hresult⟩ := hp s hs
  rw [run_map]
  refine ⟨hstream, fun b hb => ?_⟩
  obtain ⟨a, ha, rfl⟩ : ∃ a, (p.run s).1 = .ok a ∧ f a = b := by
    cases hr : (p.run s).1 with
    | error e =>
      rw [hr] at hb
      cases hb
    | ok a =>
      rw [hr] at hb
      cases hb
      exact ⟨a, rfl, rfl⟩
  exact hf a (hresult a ha)

theorem yields_ite {c : Prop} [Decidable c] {p q : Parser α} (hp : c → Yields d P p)
    (hq : ¬c → Yields d P q) : Yields d P (if c then p else q) := by
  split
  next h => exact hp h
  next h => exact hq h

/-- Both branches hand on what the rest needs. -/
theorem yields_ite_bind {c : Prop} [Decidable c] {p q : Parser α} {f : α → Parser β}
    (hp : c → Yields d P p) (hq : ¬c → Yields d P q) (hf : ∀ a, P a → Yields d Q (f a)) :
    Yields d Q (if c then p >>= f else q >>= f) :=
  yields_ite (fun h => (hp h).bind hf) fun h => (hq h).bind hf

/-! ## The stream -/

theorem yields_get : Yields d (TokenStream.Regular d) get := fun _ hs =>
  ⟨hs, fun t ht => by cases ht; exact hs⟩

theorem yields_set {t : TokenStream} (h : t.Regular d) : Yields d (fun _ => True) (set t) :=
  fun _ _ => ⟨h, fun _ _ => True.intro⟩

theorem yields_modify {f : TokenStream → TokenStream}
    (h : ∀ s, s.Regular d → (f s).Regular d) : Yields d (fun _ => True) (modify f) :=
  fun s hs => ⟨h s hs, fun _ _ => True.intro⟩

theorem yields_fail (fault : SyntaxFault) : Yields d P (fail fault) :=
  yields_get.bind fun _ _ => yields_throw _

/-- Behind a check, what failed it is ruled out. -/
theorem yields_unless {c : Prop} [Decidable c] {fault : SyntaxFault} {f : PUnit → Parser β}
    (h : ¬c → Yields d Q (f ⟨⟩)) : Yields d Q (if c then fail fault >>= f else f ⟨⟩) :=
  yields_ite (fun _ => (yields_fail (P := fun _ => False) fault).bind fun _ h => h.elim) h

theorem yields_failAtEnd : Yields d P failAtEnd := yields_throw _

/-! ## Tokens -/

theorem yields_peek? : Yields d (fun t? => ∀ t ∈ t?, t.Regular d) peek? := by
  intro s hs
  rw [run_peek?]
  cases hahead : s.ahead with
  | some t =>
    refine ⟨hs, fun t? ht? u hu => ?_⟩
    cases ht?
    exact hs.ahead u (hahead.trans hu)
  | none =>
    obtain ⟨hdialect, htokens⟩ := Lexer.regular_of_next s.lexer
    rcases hnext : s.lexer.next with ⟨e | t?, l⟩
    · rw [hnext] at hdialect
      refine ⟨⟨hdialect.trans hs.dialect_eq, ?_⟩, fun _ h => by cases h⟩
      exact fun t ht => absurd ht (Option.not_mem_none t)
    · rw [hnext, hs.dialect_eq] at hdialect htokens
      have htoken := htokens t? rfl
      refine ⟨⟨hdialect, htoken⟩, fun u? hu? => ?_⟩
      cases hu?
      exact htoken

theorem yields_peek : Yields d (Token.Regular d) peek := by
  refine yields_peek?.bind fun t? ht? => ?_
  cases t? with
  | some t => exact yields_pure (ht? t rfl)
  | none => exact yields_failAtEnd

theorem yields_take : Yields d (Token.Regular d) take := by
  refine yields_peek.bind fun t ht => ?_
  refine Yields.bind (yields_modify fun s hs => ⟨hs.dialect_eq, ?_⟩) fun _ _ => yields_pure ht
  exact fun _ h => by cases h

theorem yields_kind? : Yields d (fun kind? => ∀ k, kind? = some (.keyword k) → k.isIn d) kind? := by
  refine yields_peek?.bind fun t? ht? => yields_pure ?_
  intro k hk
  obtain ⟨t, ht, hkind⟩ := Option.map_eq_some_iff.1 hk
  exact (ht? t ht).keyword k hkind

theorem yields_isNext (kind : TokenKind) : Yields d (fun _ => True) (isNext kind) :=
  yields_kind?.bind fun _ _ => yields_pure True.intro

theorem yields_accept (kind : TokenKind) : Yields d (fun _ => True) (accept kind) :=
  (yields_isNext kind).bind fun _ _ =>
    yields_ite (fun _ => yields_take.bind fun _ _ => yields_pure True.intro)
      fun _ => yields_pure True.intro

theorem yields_acceptPunct (p : Punct) : Yields d (fun _ => True) (acceptPunct p) :=
  yields_accept _

theorem yields_acceptKeyword (k : Keyword) : Yields d (fun _ => True) (acceptKeyword k) :=
  yields_accept _

theorem yields_unexpected (expected : Expectation) : Yields d P (unexpected expected) :=
  yields_peek.bind fun _ _ => yields_fail _

/-- A token that must come next is of the kind asked for. -/
theorem yields_expect (kind : TokenKind) (place : String) :
    Yields d (fun t => t.kind = kind ∧ t.Regular d) (expect kind place) := by
  intro s hs
  obtain ⟨hstream, htoken⟩ := yields_peek? s hs
  unfold expect
  rw [run_bind, run_isNext]
  rcases hpeek : run peek? s with ⟨e | t?, t⟩
  · rw [hpeek] at hstream
    exact ⟨hstream, fun _ h => by cases h⟩
  rw [hpeek] at hstream htoken
  dsimp only
  by_cases hkind : t?.map Token.kind = some kind
  · obtain ⟨u, rfl, hu⟩ := Option.map_eq_some_iff.1 hkind
    have hahead := ahead_of_peek? (s := s) (t := some u) (by rw [hpeek])
    rw [hpeek] at hahead
    have hagain : run peek? t = (.ok (some u), t) := by rw [run_peek?, hahead]
    rw [if_pos (by simpa using hkind), run_take, hagain]
    refine ⟨⟨hstream.dialect_eq, fun v hv => by cases hv⟩, fun v hv => ?_⟩
    cases hv
    exact ⟨hu, htoken (some u) rfl u rfl⟩
  · rw [if_neg (by simpa using hkind)]
    exact yields_unexpected _ t hstream

theorem yields_expectPunct (p : Punct) (place : String) :
    Yields d (fun _ => True) (expectPunct p place) :=
  (yields_expect _ place).map fun _ _ => True.intro

theorem yields_expectKeyword (k : Keyword) (place : String) :
    Yields d (fun _ => True) (expectKeyword k place) :=
  (yields_expect _ place).map fun _ _ => True.intro

/-- An identifier begins like a word. -/
theorem yields_identifier (place : String) :
    Yields d (fun name => ∃ c cs, name = c :: cs ∧ isWordStart c) (identifier place) :=
  (yields_expect _ place).bind fun _ ht => yields_pure (ht.2.word ht.1)

theorem yields_identifier? : Yields d (fun _ => True) identifier? :=
  (yields_isNext _).bind fun _ _ =>
    yields_ite (fun _ => yields_take.bind fun _ _ => yields_pure True.intro)
      fun _ => yields_pure True.intro

/-! ## Template brackets -/

theorem yields_enterAngle : Yields d (fun _ => True) enterAngle :=
  yields_modify fun _ hs => ⟨hs.dialect_eq, hs.ahead⟩

theorem yields_closeAngle (place : String) : Yields d (fun _ => True) (closeAngle place) := by
  refine Yields.bind (yields_modify ?_) fun _ _ => yields_peek?.bind fun t? _ => ?_
  · exact fun _ hs => ⟨hs.dialect_eq, hs.ahead⟩
  cases t? with
  | none => exact yields_failAtEnd
  | some t =>
    refine yields_ite (fun _ => ?_) fun _ => yields_expectPunct _ place
    refine yields_modify fun _ hs => ⟨hs.dialect_eq, fun u hu => ?_⟩
    cases hu
    exact Token.regular_of_punct rfl

theorem Yields.shielded {p : Parser α} (hp : Yields d P p) : Yields d P (shielded p) := by
  refine yields_get.bind fun _ _ => ?_
  refine Yields.bind (yields_modify ?_) fun _ _ => hp.bind fun _ ha => ?_
  · exact fun _ hs => ⟨hs.dialect_eq, hs.ahead⟩
  refine Yields.bind (yields_modify ?_) fun _ _ => yields_pure ha
  exact fun _ hs => ⟨hs.dialect_eq, hs.ahead⟩

/-! ## Recursion -/

/-- What a round of a recursion yields if the rounds inside it yield it, the recursion
    yields. -/
theorem yields_recurse {body : (ι → Parser α) → ι → Parser α} {J : ι → Prop}
    (hbody : ∀ more, (∀ j, J j → Yields d P (more j)) → ∀ i, J i → Yields d P (body more i))
    {i : ι} (hi : J i) : Yields d P (recurse body i) := by
  have hunfold (depth : Nat) : ∀ j, J j → Yields d P (unfold body depth j) := by
    induction depth with
    | zero => exact fun _ _ => yields_failAtEnd
    | succ depth ih => exact hbody _ ih
  exact yields_get.bind fun s _ => hunfold _ i hi

theorem yields_many {item : Parser (Option α)} (h : Yields d (fun a? => ∀ a ∈ a?, P a) item) :
    Yields d (fun as => ∀ a ∈ as, P a) (many item) := by
  refine yields_recurse (J := fun _ => True) (fun more hmore _ _ => ?_) True.intro
  refine h.bind fun a? ha? => ?_
  cases a? with
  | none => exact yields_pure (List.forall_mem_nil _)
  | some a =>
    refine (hmore () True.intro).bind fun as has => yields_pure ?_
    exact List.forall_mem_cons.2 ⟨ha? a rfl, has⟩

theorem yields_manyUntil (close : Punct) {item : Parser α} (h : Yields d P item) :
    Yields d (fun as => ∀ a ∈ as, P a) (manyUntil close item) := by
  refine yields_many ((yields_acceptPunct close).bind fun _ _ => yields_ite (fun _ => ?_)
    fun _ => ?_)
  · exact yields_pure fun _ h => by cases h
  · exact h.bind fun a ha => yields_pure fun b hb => by cases hb; exact ha

theorem yields_commaMore {item : Parser α} (h : Yields d P item) :
    Yields d (fun as => ∀ a ∈ as, P a) (commaMore item) := by
  refine yields_many ((yields_acceptPunct .comma).bind fun _ _ => yields_ite (fun _ => ?_)
    fun _ => ?_)
  · exact h.bind fun a ha => yields_pure fun b hb => by cases hb; exact ha
  · exact yields_pure fun _ h => by cases h

/-- A list with commas has at least one item. -/
theorem yields_commaList {item : Parser α} (h : Yields d P item) :
    Yields d (fun as => as ≠ [] ∧ ∀ a ∈ as, P a) (commaList item) :=
  h.bind fun _ ha => (yields_commaMore h).bind fun _ has =>
    yields_pure ⟨List.cons_ne_nil _ _, List.forall_mem_cons.2 ⟨ha, has⟩⟩

end Parser

end IdlFrontend
