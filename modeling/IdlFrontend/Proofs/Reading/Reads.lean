import IdlFrontend.Proofs.Reading.Place

/-!
# What a parser reads

A parser finds something from one place to another if it succeeds on every stream that stands at
the first place, with a result as described, and leaves it at the second one. It reads a result if
it finds just that. The rules of this module follow the building blocks of parsers. With them, what
a production reads is proved along the words of its result.

A word does not determine the whole token, of which the line is unknown. So tokens are found, and
what is made of them is read.

Results:

* `Finds.bind`, `Reads.bind`: parsers one after the other.
* `finds_peek?`, `finds_take`, `finds_expect`: tokens.
* `reads_accept_true`, `reads_accept_false`: a token that may be missing.
* `reads_closeAngle`: one half of a double angle closes a template.
* `finds_recurse`, `Rounds.reads_recurse`, `Items.reads_many`: recursions and loops, bounded by the
  size of the place.
* `reads_commaList`: lists with commas.
-/

namespace IdlFrontend.Parser

variable {α β ι : Type} {A : α → Prop} {B : β → Prop} {P Q R : Place} {a a' : α} {n k : Nat}
  {w : Word} {ws us : List Word} {l : Lexer}

/-- From the place `P` the parser reads a result as described, and then it stands at `Q`. -/
def Finds (p : Parser α) (P : Place) (A : α → Prop) (Q : Place) : Prop :=
  ∀ s : TokenStream, s.At P → ∃ a s', run p s = (.ok a, s') ∧ A a ∧ s'.At Q

/-- From the place `P` the parser reads `a`, and then it stands at `Q`. -/
abbrev Reads (p : Parser α) (P : Place) (a : α) (Q : Place) : Prop := Finds p P (· = a) Q

/-! ## Building blocks -/

theorem finds_pure (h : A a) (P : Place) : Finds (pure a) P A P := fun s hs => ⟨a, s, rfl, h, hs⟩

theorem reads_pure_of_eq (h : a = a') (P : Place) : Reads (pure a) P a' P :=
  fun s hs => ⟨a, s, rfl, h, hs⟩

theorem reads_pure (a : α) (P : Place) : Reads (pure a) P a P := reads_pure_of_eq rfl P

theorem Finds.bind {p : Parser α} {f : α → Parser β} (hp : Finds p P A Q)
    (hf : ∀ a, A a → Finds (f a) Q B R) : Finds (p >>= f) P B R := by
  intro s hs
  obtain ⟨a, t, hrun, ha, ht⟩ := hp s hs
  obtain ⟨b, t', hrun', hb, ht'⟩ := hf a ha t ht
  exact ⟨b, t', by rw [run_bind, hrun]; exact hrun', hb, ht'⟩

theorem Reads.bind {p : Parser α} {f : α → Parser β} (hp : Reads p P a Q)
    (hf : Finds (f a) Q B R) : Finds (p >>= f) P B R :=
  Finds.bind hp fun _ ha => ha ▸ hf

theorem Reads.map {p : Parser α} (f : α → β) (hp : Reads p P a Q) : Reads (f <$> p) P (f a) Q := by
  intro s hs
  obtain ⟨a, t, hrun, rfl, ht⟩ := hp s hs
  exact ⟨f a, t, by rw [run_map, hrun]; rfl, rfl, ht⟩

theorem finds_get (P : Place) : Finds get P (TokenStream.At · P) P :=
  fun s hs => ⟨s, s, rfl, hs, hs⟩

/-! ## Looking ahead -/

theorem finds_peek? (hlook : P.CanLook) : Finds peek? P P.Sees P := by
  intro s hs
  obtain ⟨t?, s', hrun, hsees, hat, -⟩ := run_peek?_of_at hs hlook
  exact ⟨t?, s', hrun, hsees, hat⟩

theorem finds_peek (n : Nat) (w : Word) (ws : List Word) (l : Lexer) :
    Finds peek ⟨n, w :: ws, l⟩ (fun t => Place.Sees ⟨n, w :: ws, l⟩ (some t)) ⟨n, w :: ws, l⟩ := by
  refine (finds_peek? (Place.canLook_cons n w ws l)).bind fun t? hsees => ?_
  obtain ⟨t, rfl, -⟩ := id hsees
  exact fun s hs => ⟨t, s, rfl, hsees, hs⟩

theorem finds_kind? (hlook : P.CanLook) :
    Finds kind? P (fun kind? => ∃ t?, P.Sees t? ∧ kind? = t?.map Token.kind) P :=
  (finds_peek? hlook).bind fun t? hsees => finds_pure ⟨t?, hsees, rfl⟩ P

theorem kind_of_sees {t : Token} (h : Place.Sees ⟨n, w :: ws, l⟩ (some t)) (hw : w ≠ .closing) :
    t.kind = w.kind := by
  obtain ⟨u, hu, hkind, -⟩ := h
  obtain rfl := Option.some.inj hu
  rw [Word.kinds_of_ne hw] at hkind
  exact List.mem_singleton.1 hkind

theorem word_of_sees {t : Token} (h : Place.Sees ⟨n, w :: ws, l⟩ (some t)) (hclosing : w ≠ .closing)
    (hproperties : w ≠ .openProperties) : t.word = w := by
  obtain ⟨u, hu, -, hword⟩ := h
  obtain rfl := Option.some.inj hu
  exact hword hclosing hproperties

/-- The kind of the next token is known, unless it may be a double angle. -/
theorem reads_kind? (hw : w ≠ .closing) :
    Reads kind? ⟨n, w :: ws, l⟩ (some w.kind) ⟨n, w :: ws, l⟩ := by
  refine (finds_peek? (Place.canLook_cons n w ws l)).bind fun t? hsees => ?_
  obtain ⟨t, rfl, -⟩ := id hsees
  exact reads_pure_of_eq (congrArg some (kind_of_sees hsees hw)) _

theorem reads_isNext_true (w : Word) (hw : w ≠ .closing) :
    Reads (isNext w.kind) ⟨n, w :: ws, l⟩ true ⟨n, w :: ws, l⟩ :=
  (reads_kind? hw).bind (reads_pure_of_eq (beq_self_eq_true _) _)

theorem reads_isNext_false {kind : TokenKind} (h : P.Avoids (· = kind)) :
    Reads (isNext kind) P false P := by
  refine (finds_kind? h.canLook).bind fun _ ⟨t?, hsees, hkind?⟩ => reads_pure_of_eq ?_ P
  subst hkind?
  rw [beq_eq_false_iff_ne]
  intro hkind
  obtain ⟨t, rfl, ht⟩ := Option.map_eq_some_iff.1 hkind
  exact h.not_sees t hsees ht

/-! ## Tokens -/

theorem finds_take (w : Word) (hclosing : w ≠ .closing) (hproperties : w ≠ .openProperties) :
    Finds take ⟨n, w :: ws, l⟩ (Token.word · = w) ⟨n, ws, l⟩ := by
  intro s hs
  obtain ⟨t, s', us, m, hrun, hoffers, hgives, hahead, hangles⟩ := run_take_of_at hs
  obtain ⟨hword, rfl, rfl⟩ := hoffers.eq_word hclosing hproperties
  exact ⟨t, s', hrun, hword, hangles, .unread hahead hgives⟩

theorem reads_accept_true {kind : TokenKind} (hclosing : w ≠ .closing)
    (hproperties : w ≠ .openProperties) (hkind : w.kind = kind) :
    Reads (accept kind) ⟨n, w :: ws, l⟩ true ⟨n, ws, l⟩ := by
  subst hkind
  refine (reads_isNext_true w hclosing).bind ?_
  exact (finds_take w hclosing hproperties).bind fun _ _ => reads_pure true _

theorem reads_accept_false {kind : TokenKind} (h : P.Avoids (· = kind)) :
    Reads (accept kind) P false P :=
  (reads_isNext_false h).bind (reads_pure false P)

theorem reads_acceptPunct {p : Punct} (hp : p ≠ .greater) :
    Reads (acceptPunct p) ⟨n, .punct p :: ws, l⟩ true ⟨n, ws, l⟩ :=
  reads_accept_true (fun h => hp (Word.punct.inj h)) (by rintro ⟨⟩) rfl

theorem reads_acceptKeyword (k : Keyword) :
    Reads (acceptKeyword k) ⟨n, .keyword k :: ws, l⟩ true ⟨n, ws, l⟩ :=
  reads_accept_true (by rintro ⟨⟩) (by rintro ⟨⟩) rfl

/-- A token of the right kind is taken like any other. -/
theorem run_expect_of_at {s : TokenStream} {kind : TokenKind} {place : String}
    (hs : s.At ⟨n, w :: ws, l⟩) (hclosing : w ≠ .closing) (hkind : w.kind = kind) :
    ∃ s', s'.At ⟨n, w :: ws, l⟩ ∧ run (expect kind place) s = run take s' := by
  subst hkind
  obtain ⟨_, s', hnext, rfl, hat⟩ := reads_isNext_true w hclosing s hs
  refine ⟨s', hat, ?_⟩
  rw [expect, run_bind, hnext]
  rfl

theorem finds_expect {kind : TokenKind} {place : String} (w : Word) (hclosing : w ≠ .closing)
    (hproperties : w ≠ .openProperties) (hkind : w.kind = kind) :
    Finds (expect kind place) ⟨n, w :: ws, l⟩ (Token.word · = w) ⟨n, ws, l⟩ := by
  intro s hs
  obtain ⟨s', hat, hexpect⟩ := run_expect_of_at hs hclosing hkind
  rw [hexpect]
  exact finds_take w hclosing hproperties s' hat

theorem reads_expectPunct {p : Punct} (place : String) (hp : p ≠ .greater) :
    Reads (expectPunct p place) ⟨n, .punct p :: ws, l⟩ ⟨⟩ ⟨n, ws, l⟩ :=
  (finds_expect (.punct p) (fun h => hp (Word.punct.inj h)) (by rintro ⟨⟩) rfl).bind fun _ _ =>
    reads_pure _ _

theorem reads_expectKeyword (k : Keyword) (place : String) :
    Reads (expectKeyword k place) ⟨n, .keyword k :: ws, l⟩ ⟨⟩ ⟨n, ws, l⟩ :=
  (finds_expect (.keyword k) (by rintro ⟨⟩) (by rintro ⟨⟩) rfl).bind fun _ _ => reads_pure _ _

theorem text_of_word_identifier {t : Token} {name : Text} (h : t.word = .identifier name) :
    t.text = name := by
  obtain ⟨kind, text, line⟩ := t
  cases kind <;> cases h
  rfl

theorem reads_identifier (name : Text) (place : String) :
    Reads (identifier place) ⟨n, .identifier name :: ws, l⟩ name ⟨n, ws, l⟩ :=
  (finds_expect (.identifier name) (by rintro ⟨⟩) (by rintro ⟨⟩) rfl).bind fun _ ht =>
    reads_pure_of_eq (text_of_word_identifier ht) _

/-- Behind the bracket of a property list the mode is changed. -/
theorem exists_run_openProperties {s : TokenStream} (place : String)
    (hs : s.At ⟨n, .openProperties :: ws, l⟩) (p : Parser α) :
    ∃ s', s'.At ⟨n, ws, l⟩ ∧
      run (do
        expectPunct .openBracket place
        modify fun s => { s with lexer := s.lexer.push .properties }
        p) s = run p s' := by
  obtain ⟨s₁, hat, hexpect⟩ :=
    run_expect_of_at hs (by rintro ⟨⟩) (rfl : _ = TokenKind.punct .openBracket)
  obtain ⟨t, s₂, us, m, htake, hoffers, hgives, hahead, hangles⟩ := run_take_of_at hat
  have hbracket : run (expectPunct .openBracket place) s = (.ok ⟨⟩, s₂) := by
    show run ((fun _ => PUnit.unit) <$> expect _ place) s = _
    rw [run_map, hexpect, htake]
    rfl
  obtain ⟨rfl, rfl⟩ := hoffers.eq_push
  refine ⟨{ s₂ with lexer := s₂.lexer.push .properties }, ⟨hangles, .unread hahead hgives⟩, ?_⟩
  rw [run_bind, hbracket]
  dsimp only
  rw [run_bind, run_modify]

theorem Finds.openProperties {p : Parser α} (place : String) (hp : Finds p ⟨n, ws, l⟩ A Q) :
    Finds (do
        expectPunct .openBracket place
        modify fun s => { s with lexer := s.lexer.push .properties }
        p)
      ⟨n, .openProperties :: ws, l⟩ A Q := by
  intro s hs
  obtain ⟨s', hs', hrun⟩ := exists_run_openProperties place hs p
  rw [hrun]
  exact hp s' hs'

/-! ## Template brackets -/

theorem reads_enterAngle : Reads enterAngle ⟨n, ws, l⟩ ⟨⟩ ⟨n + 1, ws, l⟩ := by
  intro s hs
  refine ⟨⟨⟩, { s with openAngles := s.openAngles + 1 }, run_modify _ s, rfl, ?_⟩
  rw [hs.openAngles]
  exact hs.setAngles (n + 1)

theorem run_expect_of_ahead {s : TokenStream} {t : Token} {kind : TokenKind} {place : String}
    (hahead : s.ahead = some t) (hkind : t.kind = kind) :
    run (expect kind place) s = (.ok t, { s with ahead := none, lastLine := t.line }) := by
  have hpeek : run peek? s = (.ok (some t), s) := by rw [run_peek?, hahead]
  have hnext : run (isNext kind) s = (.ok true, s) := by
    rw [run_isNext, hpeek, ← hkind]
    exact congrArg (fun b => (Except.ok b, s)) (beq_self_eq_true (some t.kind))
  rw [expect, run_bind, hnext]
  show run take s = _
  rw [run_take, hpeek]

/-- A closing bracket is a token of its own, or the first half of a double angle. -/
theorem reads_closeAngle (place : String) :
    Reads (closeAngle place) ⟨n + 1, .closing :: ws, l⟩ ⟨⟩ ⟨n, ws, l⟩ := by
  intro s hs
  have hless : { s with openAngles := s.openAngles - 1 }.At ⟨n, .closing :: ws, l⟩ := by
    rw [hs.openAngles]
    exact hs.setAngles n
  obtain ⟨t?, s', hrun, ⟨t, rfl, -⟩, hat, hahead⟩ :=
    run_peek?_of_at hless (Place.canLook_cons n .closing ws l)
  obtain ⟨us, m, hoffers, hgives⟩ := exists_offers_of_ahead hat hahead
  obtain ⟨rfl, hkind⟩ := hoffers.closing_cases
  have hclose : run (closeAngle place) s = run (if t.kind = .punct .shiftRight then
      modify fun s => { s with
        ahead := some { t with kind := .punct .greater, text := ['>'] }, lastLine := t.line }
      else expectPunct .greater place) s' := by
    rw [closeAngle, run_bind, run_modify]
    dsimp only
    rw [run_bind, hrun]
  rw [hclose]
  rcases hkind with ⟨hkind, rfl⟩ | ⟨hkind, rfl⟩
  · rw [if_neg (by rw [hkind]; decide)]
    have htake : run (expect (.punct .greater) place) s' = _ := run_expect_of_ahead hahead hkind
    refine ⟨⟨⟩, { s' with ahead := none, lastLine := t.line }, ?_, rfl, hat.openAngles,
      .unread rfl hgives⟩
    show run ((fun _ => PUnit.unit) <$> expect _ place) s' = _
    rw [run_map, htake]
    rfl
  · rw [if_pos hkind]
    exact ⟨⟨⟩, _, run_modify _ s', rfl, hat.openAngles, .ahead rfl .word hgives⟩

theorem Reads.shielded {p : Parser α} (hp : Reads p ⟨0, ws, l⟩ a ⟨k, us, l⟩) :
    Reads (shielded p) ⟨n, ws, l⟩ a ⟨n, us, l⟩ := by
  intro s hs
  obtain ⟨a, s', hrun, rfl, hat⟩ := hp _ (hs.setAngles 0)
  refine ⟨a, { s' with openAngles := n }, ?_, rfl, hat.setAngles n⟩
  obtain rfl : s.openAngles = n := hs.openAngles
  unfold Parser.shielded
  rw [run_bind, run_get]
  dsimp only
  rw [run_bind, run_modify]
  dsimp only
  rw [run_bind, hrun]
  rfl

/-! ## Recursion -/

/-- The rounds of a recursion are bounded by the size of the place, and there are more than that. -/
theorem finds_recurse {body : (ι → Parser α) → ι → Parser α} {i : ι}
    (h : ∀ depth, P.size < depth → Finds (unfold body depth i) P A Q) :
    Finds (recurse body i) P A Q :=
  (finds_get P).bind fun _ hs => h _ (Nat.lt_succ_of_le (Place.size_le_unread hs))

/-- A recursion goes on from one place to another, until a round of it does not. A round reads its
    result if the next one does. -/
inductive Rounds (body : (ι → Parser α) → ι → Parser α) : Place → ι → α → Place → Prop
  | last {P Q : Place} {i : ι} {a : α} : (∀ more, Reads (body more i) P a Q) → Rounds body P i a Q
  | next {P Q R : Place} {i j : ι} {a b : α} : Q.size < P.size →
    (∀ more, Reads (more j) Q a R → Reads (body more i) P b R) → Rounds body Q j a R →
    Rounds body P i b R

theorem Rounds.reads_recurse {body : (ι → Parser α) → ι → Parser α} {i : ι}
    (h : Rounds body P i a Q) :
    Reads (recurse body i) P a Q := by
  refine finds_recurse fun depth hdepth => ?_
  induction h generalizing depth with
  | last hlast =>
    obtain ⟨depth, rfl⟩ := Nat.exists_eq_add_one_of_ne_zero (Nat.ne_zero_of_lt hdepth)
    exact hlast _
  | next hsize hround _ ih =>
    obtain ⟨depth, rfl⟩ := Nat.exists_eq_add_one_of_ne_zero (Nat.ne_zero_of_lt hdepth)
    exact hround _ (ih depth (by omega))

/-- One item after the other is read, each of which moves on. -/
inductive Items (item : Parser (Option α)) : Place → List α → Place → Prop
  | nil (P : Place) : Items item P [] P
  | cons {P Q R : Place} {a : α} {as : List α} : Reads item P (some a) Q → Q.size < P.size →
    Items item Q as R → Items item P (a :: as) R

variable {item : Parser (Option α)} {as as' : List α}

theorem Items.append (h : Items item P as Q) (h' : Items item Q as' R) :
    Items item P (as ++ as') R := by
  induction h with
  | nil => exact h'
  | cons hitem hsize _ ih => exact .cons hitem hsize (ih h')

theorem Items.reads_many (h : Items item P as Q) (hend : Reads item Q none R) :
    Reads (many item) P as R := by
  refine Rounds.reads_recurse ?_
  induction h with
  | nil P => exact .last fun _ => hend.bind (reads_pure _ _)
  | cons hitem hsize _ ih =>
    exact .next hsize (fun _ hmore => hitem.bind (Reads.bind hmore (reads_pure _ _))) (ih hend)

/-! ## Repetitions -/

/-- Items that come one after the other. What may come behind an item is described by `F`. -/
theorem items_flatMap {F : List Word → Prop} {f : α → List Word}
    (hitem : ∀ a ∈ as, ∀ vs, F vs → Reads item ⟨n, f a ++ vs, l⟩ (some a) ⟨n, vs, l⟩)
    (hne : ∀ a ∈ as, f a ≠ []) (hfirst : ∀ a ∈ as, ∀ vs, F (f a ++ vs)) (hend : F us) :
    Items item ⟨n, as.flatMap f ++ us, l⟩ as ⟨n, us, l⟩ := by
  induction as with
  | nil => exact .nil _
  | cons a as ih =>
    rw [List.forall_mem_cons] at hitem hne hfirst
    have hbehind : F (as.flatMap f ++ us) := by
      cases as with
      | nil => exact hend
      | cons a as =>
        rw [List.flatMap_cons, List.append_assoc]
        exact hfirst.2 a List.mem_cons_self _
    rw [List.flatMap_cons, List.append_assoc]
    exact .cons (hitem.1 _ hbehind) (Place.size_lt hne.1 _ l) (ih hitem.2 hne.2 hfirst.2)

/-- Commas cannot stand within an item, but behind it. -/
theorem reads_commaList {p : Parser α} {F : List Word → Prop} {f : α → List Word} (has : as ≠ [])
    (hitem : ∀ a ∈ as, ∀ vs, F vs → Reads p ⟨n, f a ++ vs, l⟩ a ⟨n, vs, l⟩)
    (hcomma : ∀ vs, F (.punct .comma :: vs)) (hend : F us)
    (havoid : Place.Avoids (· = .punct .comma) ⟨n, us, l⟩) :
    Reads (commaList p) ⟨n, separated .comma f as ++ us, l⟩ as ⟨n, us, l⟩ := by
  obtain ⟨a, as, rfl⟩ := List.exists_cons_of_ne_nil has
  rw [List.forall_mem_cons] at hitem
  rw [separated, List.append_assoc]
  have hbehind : F ((as.flatMap fun a => .punct .comma :: f a) ++ us) := by
    cases as with
    | nil => exact hend
    | cons a as => exact hcomma _
  have hitems : Items (itemAfterComma p)
      ⟨n, (as.flatMap fun a => .punct .comma :: f a) ++ us, l⟩ as ⟨n, us, l⟩ := by
    refine items_flatMap (F := F) (fun a ha vs hvs => ?_) (fun _ _ => by rintro ⟨⟩)
      (fun _ _ _ => hcomma _) hend
    exact (reads_acceptPunct (by decide)).bind ((hitem.2 a ha vs hvs).bind (reads_pure _ _))
  refine (hitem.1 _ hbehind).bind (Reads.bind (hitems.reads_many ?_) (reads_pure _ _))
  exact (reads_accept_false havoid).bind (reads_pure _ _)

end IdlFrontend.Parser
