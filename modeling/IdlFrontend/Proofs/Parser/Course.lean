import IdlFrontend.Grammar.Definition
import IdlFrontend.Proofs.Parser.Copies

/-!
# The course of a parser

There are few ways in which a parser changes its stream. A relation between streams that holds
of each of them holds of the streams in front of and behind every parser that succeeds. It can
also tell whether something was read for sure, and the names of the modules that were opened.

Results:

* `Goes.bind`, `Advances.bind`: parsers one after the other.
* `leads_recurse`: a parser with itself in place of its argument.
* `leads_isNext_take`, `advances_expect`: tokens that are taken.
-/

namespace IdlFrontend

namespace Parser

/-! ## Heads of modules -/

/-- A run of two parsers, one after the other. -/
theorem exists_of_run_bind {α β : Type} {p : Parser α} {f : α → Parser β}
    {s u : TokenStream} {b : β} (h : (p >>= f).run s = (.ok b, u)) :
    ∃ a t, p.run s = (.ok a, t) ∧ (f a).run t = (.ok b, u) := by
  rw [run_bind] at h
  rcases hp : p.run s with ⟨e | a, t⟩
  · rw [hp] at h
    cases h
  · rw [hp] at h
    exact ⟨a, t, rfl, h⟩

theorem exists_of_run_map {α β : Type} {p : Parser α} {f : α → β} {s u : TokenStream} {b : β}
    (h : (f <$> p).run s = (.ok b, u)) : ∃ a, p.run s = (.ok a, u) ∧ f a = b := by
  rw [← bind_pure_comp] at h
  obtain ⟨a, t, hrun, hpure⟩ := exists_of_run_bind h
  cases hpure
  exact ⟨a, hrun, rfl⟩

/-- The keyword and the name at the head of a module, with its prefix in front of the name. -/
def moduleHead : Parser Text := do
  expectKeyword .module "to start module"
  let name ← identifier "after 'module'"
  let before ← modulePrefix
  return before ++ name

theorem moduleOf_eq (definition : Parser (Option Definition)) :
    moduleOf definition = (do
      let name ← moduleHead
      expectPunct .openBrace "after module name"
      let definitions ← manyUntil .closeBrace definition
      return ⟨name, definitions.filterMap id⟩) := by
  simp only [moduleOf, moduleHead, bind_assoc, pure_bind]

/-- The text that a recorded pragma puts in front of the name of a module. There is none if its
    value is not quoted. -/
def prefixOf? (pragma? : Option Pragma) : Option Text :=
  match pragma?.bind Pragma.value with
  | none => some []
  | some value => (pragmaBody? value).map fun body => if body = [] then [] else body ++ ['.']

theorem exists_of_run_modulePrefix {before : Text} {s u : TokenStream}
    (h : run modulePrefix s = (.ok before, u)) :
    prefixOf? (s.lexer.takePragma "prefix".toList).1 = some before ∧
      u = { s with lexer := (s.lexer.takePragma "prefix".toList).2 } := by
  unfold modulePrefix at h
  rw [run_bind, run_get] at h
  dsimp only at h
  rw [run_bind, run_set] at h
  dsimp only at h
  split at h
  next hvalue =>
    cases h
    exact ⟨by rw [prefixOf?, hvalue], rfl⟩
  next value hvalue =>
    rw [prefixOf?, hvalue]
    dsimp only
    split at h
    · exact absurd h (fails_fail _ _ _ _)
    next hbody =>
      cases h
      rw [hbody]
      exact ⟨rfl, rfl⟩
    next body hne hbody =>
      cases h
      rw [hbody]
      exact ⟨by rw [Option.map_some, if_neg hne], rfl⟩

/-- The head of a module that is read: the keyword, the name behind it, and the pragma that is
    used up. -/
theorem exists_of_run_moduleHead {name : Text} {s u : TokenStream}
    (h : run moduleHead s = (.ok name, u)) :
    ∃ k s₁ t s₂ before, run peek? s = (.ok (some k), s₁) ∧ k.kind = .keyword .module ∧
      run peek? (afterTake k s₁) = (.ok (some t), s₂) ∧ t.kind = .identifier ∧
      prefixOf? (s₂.lexer.takePragma "prefix".toList).1 = some before ∧ name = before ++ t.text ∧
      u = { afterTake t s₂ with lexer := (s₂.lexer.takePragma "prefix".toList).2 } := by
  unfold moduleHead at h
  obtain ⟨_, v, hkeyword, hrest⟩ := exists_of_run_bind h
  obtain ⟨word, w, hidentifier, hrest⟩ := exists_of_run_bind hrest
  obtain ⟨before, x, hprefix, hend⟩ := exists_of_run_bind hrest
  rw [run_pure] at hend
  cases hend
  change run ((fun _ => ()) <$> expect _ _) s = _ at hkeyword
  rw [← bind_pure_comp] at hkeyword
  obtain ⟨k, _, hk, hv⟩ := exists_of_run_bind hkeyword
  cases hv
  obtain ⟨s₁, hpeek, hkind, rfl⟩ := exists_of_run_expect hk
  obtain ⟨t, _, ht, hw⟩ := exists_of_run_bind hidentifier
  cases hw
  obtain ⟨s₂, hpeek', hkind', rfl⟩ := exists_of_run_expect ht
  obtain ⟨hbefore, rfl⟩ := exists_of_run_modulePrefix hprefix
  exact ⟨k, s₁, t, s₂, before, hpeek, hkind, hpeek', hkind', hbefore, rfl, rfl⟩

/-! ## Courses -/

/-- The first half of a double angle is taken, and the second one is ahead. -/
def afterHalf (t : Token) (s : TokenStream) : TokenStream :=
  { s with ahead := some { t with kind := .punct .greater, text := ['>'] }, lastLine := t.line }

/-- A relation between streams that holds of all that parsers do to them. -/
structure Course where
  /-- Whether something is read for sure, and the names of the modules that are opened. -/
  rel : Bool → List Text → TokenStream → TokenStream → Prop
  refl (s : TokenStream) : rel false [] s s
  trans {b c : Bool} {names more : List Text} {s t u : TokenStream} :
    rel b names s t → rel c more t u → rel (b || c) (names ++ more) s u
  weaken {names : List Text} {s t : TokenStream} : rel true names s t → rel false names s t
  peek {t? : Option Token} {s t : TokenStream} : run peek? s = (.ok t?, t) → rel false [] s t
  /-- The keyword of modules is taken in the head of a module only. -/
  take {t : Token} {s : TokenStream} :
    s.ahead = some t → t.kind ≠ .keyword .module → rel true [] s (afterTake t s)
  half {t : Token} {s : TokenStream} :
    s.ahead = some t → t.kind = .punct .shiftRight → rel true [] s (afterHalf t s)
  angles (s : TokenStream) (n : Nat) : rel false [] s { s with openAngles := n }
  properties {t : Token} {s : TokenStream} :
    s.ahead = some t → t.kind = .punct .openBracket →
      rel true [] s { afterTake t s with lexer := s.lexer.push .properties }
  module {name : Text} {s t : TokenStream} : run moduleHead s = (.ok name, t) → rel true [name] s t

variable {C : Course} {α β ι : Type} {c : α → Bool} {d : β → Bool} {n : α → List Text}
  {m : β → List Text} {p q : Parser α} {t : Token} {t? : Option Token}

theorem Course.weaken_to {b : Bool} {names : List Text} {s t : TokenStream}
    (h : C.rel true names s t) :
    C.rel b names s t := by
  cases b with
  | false => exact C.weaken h
  | true => exact h

/-- What a parser that succeeds does to its stream. -/
def Leads (C : Course) (c : α → Bool) (n : α → List Text) (p : Parser α) : Prop :=
  ∀ s a u, p.run s = (.ok a, u) → C.rel (c a) (n a) s u

/-- The same, where `t?` is ahead. -/
def LeadsAt (C : Course) (t? : Option Token) (c : α → Bool) (n : α → List Text) (p : Parser α) :
    Prop :=
  ∀ s a u, s.ahead = t? → p.run s = (.ok a, u) → C.rel (c a) (n a) s u

/-- The parser may read something. -/
abbrev Goes (C : Course) (p : Parser α) : Prop := Leads C (fun _ => false) (fun _ => []) p

/-- The parser reads something. -/
abbrev Advances (C : Course) (p : Parser α) : Prop := Leads C (fun _ => true) (fun _ => []) p

/-! ## Building blocks -/

theorem Leads.at (h : Leads C c n p) : LeadsAt C t? c n p := fun s a u _ hrun => h s a u hrun

/-- What reads something may be said to read nothing for sure. -/
theorem Leads.weaken (h : Leads C c n p) : Leads C (fun _ => false) n p := by
  intro s a u hrun
  have hrel := h s a u hrun
  cases hc : c a with
  | false => rwa [hc] at hrel
  | true =>
    rw [hc] at hrel
    exact C.weaken hrel

theorem Leads.goes (h : Leads C c (fun _ => []) p) : Goes C p := h.weaken

theorem Goes.bind {f : α → Parser β} (hp : Goes C p) (hf : ∀ a, Leads C d m (f a)) :
    Leads C d m (p >>= f) := by
  intro s b u hrun
  obtain ⟨a, t, hpr, hfr⟩ := exists_of_run_bind hrun
  exact C.trans (hp s a t hpr) (hf a t b u hfr)

theorem Advances.bind {f : α → Parser β} (hp : Advances C p)
    (hf : ∀ a, Leads C (fun _ => false) m (f a)) : Leads C d m (p >>= f) := by
  intro s b u hrun
  obtain ⟨a, t, hpr, hfr⟩ := exists_of_run_bind hrun
  exact C.weaken_to (C.trans (hp s a t hpr) (hf a t b u hfr))

/-- A parser whose result tells whether it has read something, and what is done with the
    result. -/
theorem Leads.bind_ite {p : Parser Bool} {q r : Parser β} (hp : Leads C id (fun _ => []) p)
    (hq : Leads C (fun _ => false) m q) (hr : Leads C d m r) :
    Leads C d m (p >>= fun b => if b then q else r) := by
  intro s b u hrun
  obtain ⟨a, t, hpr, hfr⟩ := exists_of_run_bind hrun
  have hrel := hp s a t hpr
  cases a with
  | false => exact C.trans hrel (hr t b u hfr)
  | true => exact C.weaken_to (C.trans hrel (hq t b u hfr))

/-- A parser that reads something if it returns something. -/
theorem Leads.bind_option {p : Parser (Option α)} {f : Option α → Parser β}
    (hp : Leads C Option.isSome (fun _ => []) p)
    (hsome : ∀ a, Leads C (fun _ => false) m (f (some a))) (hnone : Leads C d m (f none)) :
    Leads C d m (p >>= f) := by
  intro s b u hrun
  obtain ⟨a?, t, hpr, hfr⟩ := exists_of_run_bind hrun
  have hrel := hp s a? t hpr
  cases a? with
  | none => exact C.trans hrel (hnone t b u hfr)
  | some a => exact C.weaken_to (C.trans hrel (hsome a t b u hfr))

/-- What is returned at the end. -/
theorem Leads.bind_pure {f : α → β} (hp : Leads C c n p) (hd : ∀ a, d (f a) = c a)
    (hm : ∀ a, m (f a) = n a) : Leads C d m (p >>= fun a => pure (f a)) := by
  intro s b u hrun
  obtain ⟨a, t, hpr, hfr⟩ := exists_of_run_bind hrun
  rw [run_pure] at hfr
  cases hfr
  rw [hd, hm]
  exact hp s a u hpr

/-- What is returned behind a parser that opens no module. -/
theorem Leads.bind_closing {q : Parser Unit} {f : α → β} (hp : Leads C (fun _ => true) n p)
    (hq : Goes C q) (hm : ∀ a, m (f a) = n a) :
    Leads C (fun _ => true) m (p >>= fun a => q >>= fun _ => pure (f a)) := by
  intro s b u hrun
  obtain ⟨a, t, hpr, hrest⟩ := exists_of_run_bind hrun
  obtain ⟨_, v, hqr, hend⟩ := exists_of_run_bind hrest
  rw [run_pure] at hend
  cases hend
  have hrel := C.trans (hp s a t hpr) (hq t _ u hqr)
  rw [List.append_nil] at hrel
  rw [hm]
  exact hrel

theorem leads_pure {a : α} (hc : c a = false) (hn : n a = []) : Leads C c n (pure a) := by
  intro s b u hrun
  rw [run_pure] at hrun
  cases hrun
  rw [hc, hn]
  exact C.refl s

theorem goes_pure (a : α) : Goes C (pure a) := leads_pure rfl rfl

theorem Goes.map {f : α → β} (hp : Goes C p) : Goes C (f <$> p) := by
  rw [← bind_pure_comp]
  exact hp.bind fun a => goes_pure (f a)

theorem leads_ite {cond : Prop} [Decidable cond] (hp : cond → Leads C c n p)
    (hq : ¬cond → Leads C c n q) :
    Leads C c n (if cond then p else q) := by
  split
  next h => exact hp h
  next h => exact hq h

/-- Both branches hand on what the rest needs. -/
theorem leads_ite_bind {cond : Prop} [Decidable cond] {f : α → Parser β} (hp : cond → Goes C p)
    (hq : ¬cond → Goes C q) (hf : ∀ a, Leads C d m (f a)) :
    Leads C d m (if cond then p >>= f else q >>= f) :=
  leads_ite (fun h => (hp h).bind hf) fun h => (hq h).bind hf

theorem leads_of_fails (h : p.Fails) : Leads C c n p := fun _ _ _ hrun => absurd hrun (h _ _ _)

theorem leads_unless {cond : Prop} [Decidable cond] {fault : SyntaxFault} {f : PUnit → Parser β}
    (h : Leads C d m (f ⟨⟩)) : Leads C d m (if cond then fail fault >>= f else f ⟨⟩) :=
  leads_ite (fun _ => leads_of_fails (fails_fail fault).bind) fun _ => h

theorem leadsAt_ite {cond : Prop} [Decidable cond] (hp : cond → LeadsAt C t? c n p)
    (hq : ¬cond → LeadsAt C t? c n q) : LeadsAt C t? c n (if cond then p else q) := by
  split
  next h => exact hp h
  next h => exact hq h

theorem leadsAt_get_bind {f : TokenStream → Parser β} (h : ∀ s, LeadsAt C t? d m (f s)) :
    LeadsAt C t? d m (get >>= f) := fun s b u hahead hrun => h s s b u hahead hrun

/-- A parser that only computes something leaves ahead what is ahead. -/
theorem leadsAt_bind {f : α → Parser β} (hp : ∀ s a u, p.run s = (.ok a, u) → u = s)
    (hf : ∀ a, LeadsAt C t? d m (f a)) : LeadsAt C t? d m (p >>= f) := by
  intro s b u hahead hrun
  obtain ⟨a, t, hpr, hfr⟩ := exists_of_run_bind hrun
  obtain rfl := hp s a t hpr
  exact hf a t b u hahead hfr

theorem leads_get_bind {f : TokenStream → Parser β} (h : ∀ s, Leads C d m (f s)) :
    Leads C d m (get >>= f) := fun s b u hrun => h s s b u hrun

/-! ## Tokens -/

theorem leads_peek?_bind {f : Option Token → Parser β} (h : ∀ t?, LeadsAt C t? d m (f t?)) :
    Leads C d m (peek? >>= f) := by
  intro s b u hrun
  obtain ⟨t?, t, hpeek, hfr⟩ := exists_of_run_bind hrun
  have hahead := ahead_of_peek? (s := s) (t := t?) (by rw [hpeek])
  rw [hpeek] at hahead
  exact C.trans (C.peek hpeek) (h t? t b u hahead hfr)

/-- A token that is ahead is found when it is looked for once more. -/
theorem leadsAt_peek?_bind {f : Option Token → Parser β}
    (hsome : ∀ t ∈ t?, LeadsAt C (some t) d m (f (some t)))
    (hnone : t? = none → ∀ u?, LeadsAt C u? d m (f u?)) : LeadsAt C t? d m (peek? >>= f) := by
  cases t? with
  | none => exact (leads_peek?_bind (hnone rfl)).at
  | some t =>
    intro s b u hahead hrun
    rw [run_bind, run_peek?_of_ahead hahead] at hrun
    exact hsome t rfl s b u hahead hrun

theorem leads_peek_bind {f : Token → Parser β} (h : ∀ t, LeadsAt C (some t) d m (f t)) :
    Leads C d m (peek >>= f) := by
  unfold peek
  rw [bind_assoc]
  refine leads_peek?_bind fun t? => ?_
  cases t? with
  | none => exact (leads_of_fails fails_failAtEnd.bind).at
  | some t =>
    dsimp only
    rw [pure_bind]
    exact h t

theorem leads_kind?_bind {f : Option TokenKind → Parser β}
    (h : ∀ t? : Option Token, LeadsAt C t? d m (f (t?.map Token.kind))) :
    Leads C d m (kind? >>= f) := by
  unfold kind?
  rw [bind_assoc]
  refine leads_peek?_bind fun t? => ?_
  rw [pure_bind]
  exact h t?

theorem goes_peek? : Goes C peek? := fun _ _ _ hrun => C.peek hrun

theorem goes_peek : Goes C peek := by
  refine goes_peek?.bind fun t? => ?_
  cases t? with
  | none => exact leads_of_fails fails_failAtEnd
  | some t => exact goes_pure t

theorem goes_kind? : Goes C kind? := goes_peek?.bind fun _ => goes_pure _

theorem goes_isNext (kind : TokenKind) : Goes C (isNext kind) :=
  goes_kind?.bind fun _ => goes_pure _

theorem leadsAt_take_bind {f : Token → Parser β} (ht : t.kind ≠ .keyword .module)
    (hf : Leads C (fun _ => false) m (f t)) : LeadsAt C (some t) d m (take >>= f) := by
  intro s b u hahead hrun
  rw [run_bind, run_take_of_peek? (run_peek?_of_ahead hahead)] at hrun
  exact C.weaken_to (C.trans (C.take hahead ht) (hf (afterTake t s) b u hrun))

/-- A token of any kind is taken, where nothing goes on from the keyword of modules. -/
theorem leads_take_bind {f : Token → Parser β} (hf : ∀ t, Leads C (fun _ => false) m (f t))
    (hfails : ∀ t, t.kind = .keyword .module → (f t).Fails) : Leads C d m (take >>= f) := by
  intro s b u hrun
  rw [run_bind, run_take] at hrun
  rcases hpeek : run peek? s with ⟨e | t?, s₁⟩
  · rw [hpeek] at hrun
    cases hrun
  rw [hpeek] at hrun
  cases t? with
  | none => cases hrun
  | some t =>
    by_cases ht : t.kind = .keyword .module
    · exact absurd hrun (hfails t ht _ _ _)
    · have hahead := ahead_of_peek? (s := s) (t := some t) (by rw [hpeek])
      rw [hpeek] at hahead
      exact C.weaken_to
        (C.trans (C.peek hpeek) (C.trans (C.take hahead ht) (hf t (afterTake t s₁) b u hrun)))

/-- A token of a kind is taken if it comes next. -/
theorem leads_isNext_take {kind : TokenKind} (hkind : kind ≠ .keyword .module)
    {f : Token → Parser α} (hf : ∀ t, Leads C (fun _ => false) n (f t)) (hp : Leads C c n p) :
    Leads C c n (do if ← isNext kind then f (← take) else p) := by
  rw [isNext_take_eq]
  refine leads_peek?_bind fun t? => ?_
  cases t? with
  | none => exact hp.at
  | some t =>
    dsimp only
    split
    next ht =>
      intro s a u hahead hrun
      exact C.weaken_to (C.trans (C.take hahead (ht ▸ hkind)) (hf t (afterTake t s) a u hrun))
    · exact hp.at

theorem leads_accept {kind : TokenKind} (hkind : kind ≠ .keyword .module) :
    Leads C id (fun _ => []) (accept kind) :=
  leads_isNext_take hkind (fun _ => goes_pure true) (leads_pure rfl rfl)

theorem advances_expect {kind : TokenKind} (hkind : kind ≠ .keyword .module) (place : String) :
    Advances C (expect kind place) := by
  intro s t u hrun
  obtain ⟨s₁, hpeek, ht, rfl⟩ := exists_of_run_expect hrun
  have hahead := ahead_of_peek? (s := s) (t := some t) (by rw [hpeek])
  rw [hpeek] at hahead
  exact C.trans (C.peek hpeek) (C.take hahead (ht ▸ hkind))

theorem leads_acceptPunct (p : Punct) : Leads C id (fun _ => []) (acceptPunct p) :=
  leads_accept (by simp)

theorem advances_expectPunct (p : Punct) (place : String) : Advances C (expectPunct p place) := by
  show Advances C ((fun _ => ()) <$> expect (.punct p) place)
  rw [← bind_pure_comp]
  exact (advances_expect (by simp) place).bind fun _ => goes_pure ()

theorem leads_acceptKeyword {k : Keyword} (hk : k ≠ .module) :
    Leads C id (fun _ => []) (acceptKeyword k) :=
  leads_accept fun h => hk (TokenKind.keyword.inj h)

theorem advances_expectKeyword {k : Keyword} (hk : k ≠ .module) (place : String) :
    Advances C (expectKeyword k place) := by
  show Advances C ((fun _ => ()) <$> expect (.keyword k) place)
  rw [← bind_pure_comp]
  exact (advances_expect (fun h => hk (TokenKind.keyword.inj h)) place).bind fun _ => goes_pure ()

theorem advances_identifier (place : String) : Advances C (identifier place) :=
  (advances_expect (by simp) place).bind fun _ => goes_pure _

theorem goes_identifier? : Goes C identifier? :=
  leads_isNext_take (by simp) (fun t => goes_pure (some t.text)) (goes_pure none)

/-! ## Template brackets -/

theorem goes_enterAngle : Goes C enterAngle := by
  intro s a u hrun
  cases hrun
  exact C.angles s _

theorem advances_closeAngle (place : String) : Advances C (closeAngle place) := by
  have hclose : Goes C (modify fun s => { s with openAngles := s.openAngles - 1 }) := by
    intro s a u hrun
    cases hrun
    exact C.angles s _
  refine hclose.bind fun _ => leads_peek?_bind fun t? => ?_
  cases t? with
  | none => exact (leads_of_fails fails_failAtEnd).at
  | some t =>
    dsimp only
    split
    next ht =>
      intro s a u hahead hrun
      cases hrun
      exact C.half hahead ht
    · exact (advances_expectPunct _ _).at

theorem Goes.shielded (hp : Goes C p) : Goes C (shielded p) := by
  intro s a u hrun
  rw [run_shielded] at hrun
  rcases hpr : run p { s with openAngles := 0 } with ⟨e | b, t⟩
  · rw [hpr] at hrun
    cases hrun
  · rw [hpr] at hrun
    cases hrun
    exact C.trans (C.angles s 0) (C.trans (hp _ _ _ hpr) (C.angles t _))

/-! ## Property lists -/

/-- The parser enters the mode of property lists behind the bracket. -/
theorem advances_openBracket {place : String} (hp : Goes C p) :
    Advances C
      (do expectPunct .openBracket place
          modify fun s => { s with lexer := s.lexer.push .properties }
          p) := by
  intro s a u hrun
  obtain ⟨_, s₁, hbracket, hrest⟩ := exists_of_run_bind hrun
  obtain ⟨t, s₂, hpeek, ht, rfl⟩ := exists_of_run_expectPunct hbracket
  have hahead := ahead_of_peek? (s := s) (t := some t) (by rw [hpeek])
  rw [hpeek] at hahead
  obtain ⟨_, s₃, hmode, hpr⟩ := exists_of_run_bind hrest
  cases hmode
  exact C.trans (C.peek hpeek) (C.trans (C.properties hahead ht) (hp _ _ _ hpr))

/-! ## Recursion -/

theorem leads_unfold {body : (ι → Parser α) → ι → Parser α}
    (hbody : ∀ more, (∀ j, Leads C c n (more j)) → ∀ i, Leads C c n (body more i))
    (depth : Nat) (i : ι) :
    Leads C c n (unfold body depth i) := by
  induction depth generalizing i with
  | zero => exact leads_of_fails fails_failAtEnd
  | succ depth ih => exact hbody _ ih i

/-- If a round leads on where the rounds inside it do, so does the recursion. -/
theorem leads_recurse {body : (ι → Parser α) → ι → Parser α}
    (hbody : ∀ more, (∀ j, Leads C c n (more j)) → ∀ i, Leads C c n (body more i)) (i : ι) :
    Leads C c n (recurse body i) := fun s a u hrun => leads_unfold hbody (s.unread + 1) i s a u hrun

/-- The modules that the items open, one after the other. -/
theorem leads_many {item : Parser (Option α)} {k : Option α → List Text} (hk : k none = [])
    (h : Leads C (fun _ => false) k item) :
    Leads C (fun _ => false) (fun as => as.flatMap fun a => k (some a)) (many item) := by
  rw [many]
  refine leads_recurse (fun more hmore _ => ?_) ()
  intro s as u hrun
  obtain ⟨a?, t, hitem, hrest⟩ := exists_of_run_bind hrun
  have hrel := h s a? t hitem
  cases a? with
  | none =>
    rw [run_pure] at hrest
    cases hrest
    rwa [hk] at hrel
  | some a =>
    obtain ⟨as', u', hmany, hend⟩ := exists_of_run_bind hrest
    rw [run_pure] at hend
    cases hend
    exact C.trans hrel (hmore () t as' u hmany)

theorem Goes.many {item : Parser (Option α)} (h : Goes C item) : Goes C (many item) := by
  intro s as u hrun
  have hnone : as.flatMap (fun _ => ([] : List Text)) = [] :=
    List.flatMap_eq_nil_iff.2 fun _ _ => rfl
  have hrel := leads_many rfl h s as u hrun
  dsimp only at hrel
  rwa [hnone] at hrel

/-- The closing token is read in the end. -/
theorem leads_manyUntil (close : Punct) {item : Parser α} (h : Leads C (fun _ => false) n item) :
    Leads C (fun _ => false) (fun as => as.flatMap n) (manyUntil close item) := by
  refine leads_many (k := fun a? => a?.elim [] n) rfl ?_
  refine (leads_acceptPunct close).bind_ite (leads_pure rfl rfl) ?_
  exact h.bind_pure (fun _ => rfl) fun _ => rfl

theorem Goes.manyUntil (close : Punct) {item : Parser α} (h : Goes C item) :
    Goes C (manyUntil close item) :=
  Goes.many ((leads_acceptPunct close).bind_ite (goes_pure none)
    (h.bind fun a => goes_pure (some a)))

theorem Goes.commaMore {item : Parser α} (h : Goes C item) : Goes C (commaMore item) :=
  Goes.many ((leads_acceptPunct .comma).bind_ite (h.bind fun a => goes_pure (some a))
    (goes_pure none))

theorem Advances.commaList {item : Parser α} (h : Advances C item) : Advances C (commaList item) :=
  h.bind fun a => h.goes.commaMore.bind fun as => goes_pure (a :: as)

end Parser

end IdlFrontend
