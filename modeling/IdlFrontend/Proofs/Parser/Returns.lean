import IdlFrontend.Proofs.Parser.Progress

/-!
# Results of parsers that succeed

What a parser returns depends on the stream that it starts from. Where a property of the stream is
kept by all that parsers do to streams, a property of the results of a production is proved from
those of the productions that it is made of, and only the runs that succeed count.

Results:

* `Returns.bind`: parsers one after the other.
* `returns_recurse`: a parser with itself in place of its argument.
* `returns_many`, `returns_manyUntil`, `returns_commaList`: repetitions.
-/

namespace IdlFrontend.Parser

variable {α β ι : Type} {I : TokenStream → Prop} {P : α → Prop} {Q : β → Prop} {p q : Parser α}

/-- Every result of the parser from a stream with the invariant has the property, and what remains
    of the stream has the invariant. -/
def Returns (I : TokenStream → Prop) (P : α → Prop) (p : Parser α) : Prop :=
  ∀ s a u, I s → p.run s = (.ok a, u) → I u ∧ P a

/-- What remains of a stream with the invariant has it. -/
abbrev Maintains (I : TokenStream → Prop) (p : Parser α) : Prop := Returns I (fun _ => True) p

/-! ## Building blocks -/

theorem Returns.mono {P' : α → Prop} (hp : Returns I P p) (h : ∀ a, P a → P' a) : Returns I P' p :=
  fun s a u hs hrun => ⟨(hp s a u hs hrun).1, h a (hp s a u hs hrun).2⟩

theorem Returns.maintains (hp : Returns I P p) : Maintains I p := hp.mono fun _ _ => trivial

theorem Returns.bind {f : α → Parser β} (hp : Returns I P p) (hf : ∀ a, P a → Returns I Q (f a)) :
    Returns I Q (p >>= f) := by
  intro s b u hs hrun
  obtain ⟨a, t, hpr, hfr⟩ := exists_of_run_bind hrun
  obtain ⟨ht, ha⟩ := hp s a t hs hpr
  exact hf a ha t b u ht hfr

theorem returns_pure {a : α} (h : P a) : Returns I P (pure a) := by
  intro s b u hs hrun
  rw [run_pure] at hrun
  cases hrun
  exact ⟨hs, h⟩

theorem Returns.map {f : α → β} (hp : Returns I P p) (hf : ∀ a, P a → Q (f a)) :
    Returns I Q (f <$> p) := by
  rw [← bind_pure_comp]
  exact hp.bind fun a ha => returns_pure (hf a ha)

theorem returns_ite {c : Prop} [Decidable c] (hp : c → Returns I P p) (hq : ¬c → Returns I P q) :
    Returns I P (if c then p else q) := by
  split
  next h => exact hp h
  next h => exact hq h

/-- Both branches hand on what the rest needs. -/
theorem returns_ite_bind {c : Prop} [Decidable c] {f : α → Parser β} (hp : c → Returns I P p)
    (hq : ¬c → Returns I P q) (hf : ∀ a, P a → Returns I Q (f a)) :
    Returns I Q (if c then p >>= f else q >>= f) :=
  returns_ite (fun h => (hp h).bind hf) fun h => (hq h).bind hf

theorem returns_of_fails (h : p.Fails) : Returns I P p := fun _ _ _ _ hrun => absurd hrun (h _ _ _)

theorem returns_unless {c : Prop} [Decidable c] {fault : SyntaxFault} {f : PUnit → Parser β}
    (h : Returns I Q (f ⟨⟩)) : Returns I Q (if c then fail fault >>= f else f ⟨⟩) :=
  returns_ite (fun _ => returns_of_fails (fails_fail fault).bind) fun _ => h

/-! ## Repetitions -/

/-- What a round of a recursion returns if the rounds inside it return it, the recursion returns. -/
theorem returns_unfold {body : (ι → Parser α) → ι → Parser α} {J : ι → Prop}
    (hbody : ∀ more, (∀ j, J j → Returns I P (more j)) → ∀ i, J i → Returns I P (body more i))
    (depth : Nat) {i : ι} (hi : J i) : Returns I P (unfold body depth i) := by
  induction depth generalizing i with
  | zero => exact returns_of_fails fails_failAtEnd
  | succ depth ih => exact hbody _ (fun _ hj => ih hj) i hi

theorem returns_recurse {body : (ι → Parser α) → ι → Parser α} {J : ι → Prop}
    (hbody : ∀ more, (∀ j, J j → Returns I P (more j)) → ∀ i, J i → Returns I P (body more i))
    {i : ι} (hi : J i) : Returns I P (recurse body i) :=
  fun s a u hs hrun => returns_unfold hbody (s.unread + 1) hi s a u hs hrun

theorem returns_many {item : Parser (Option α)} (h : Returns I (fun a? => ∀ a ∈ a?, P a) item) :
    Returns I (fun as => ∀ a ∈ as, P a) (many item) := by
  refine returns_recurse (J := fun _ => True) (fun more hmore _ _ => ?_) trivial
  refine h.bind fun a? ha? => ?_
  cases a? with
  | none => exact returns_pure (List.forall_mem_nil _)
  | some a =>
    refine (hmore () trivial).bind fun as has => returns_pure ?_
    exact List.forall_mem_cons.2 ⟨ha? a rfl, has⟩

theorem returns_manyUntil {close : Punct} {item : Parser α}
    (hclose : Maintains I (acceptPunct close)) (h : Returns I P item) :
    Returns I (fun as => ∀ a ∈ as, P a) (manyUntil close item) := by
  refine returns_many (hclose.bind fun _ _ => returns_ite (fun _ => ?_) fun _ => ?_)
  · exact returns_pure fun _ h => by cases h
  · exact h.bind fun a ha => returns_pure fun b hb => by cases hb; exact ha

theorem returns_commaList {item : Parser α} (hcomma : Maintains I (acceptPunct .comma))
    (h : Returns I P item) :
    Returns I (fun as => ∀ a ∈ as, P a) (commaList item) := by
  refine h.bind fun a ha => ?_
  refine (returns_many (P := P) (hcomma.bind fun _ _ => returns_ite (fun _ => ?_) fun _ => ?_)).bind
    fun as has => returns_pure (List.forall_mem_cons.2 ⟨ha, has⟩)
  · exact h.bind fun a ha => returns_pure fun b hb => by cases hb; exact ha
  · exact returns_pure fun _ h => by cases h

end IdlFrontend.Parser
