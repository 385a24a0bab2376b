import IdlFrontend.Grammar.Parser
import IdlFrontend.Proofs.Lexer.Extension
import Mathlib.Data.Option.Basic

/-!
# Parsers on a text that goes on

A stream reads a text, and a second one reads the same text and then another one behind a
line feed. A parser that succeeds on the first stream also does so on the second, with the
same result, as long as it does not reach the end of the first text. If it reaches that
end, it finds no token there, or half of a native type, and never anything else.

The rules of this module follow the building blocks of parsers. They relate two parsers and
not one with itself, since a recursion on the longer text has more rounds to spare.

Results:

* `Follows.bind`: parsers one after the other.
* `follows_recurse`: a parser with itself in place of its argument.
* `follows_peek?`: the next token.
-/

namespace IdlFrontend

namespace Lexer

/-- An opening bracket is read in the ordinary mode, and does not change it. -/
theorem mode_of_openBracket {l m : Lexer} {t : Token} (h : l.next = (.ok (some t), m))
    (ht : t.kind = .punct .openBracket) : m.mode = .ordinary := by
  have hrules : ∀ mode ∈ [Mode.ordinary, .properties, .native, .nativeType, .fragment,
      .fragmentEnd], ∀ r ∈ Rule.inMode mode, r.meaning = .token (.punct .openBracket) →
        mode = .ordinary ∧ r.change = .stay := by decide +kernel
  fun_induction next l with
  | case1 => cases h
  | case2 => cases h
  | case3 l _ s hs u hu =>
    cases h
    obtain ⟨n, r, hmatch, rfl⟩ := step?_eq_some_iff.1 hs
    obtain ⟨kind, hkind, rfl⟩ := Option.map_eq_some_iff.1 hu
    obtain rfl : kind = .punct .openBracket := ht
    have hmeaning : r.meaning = .token (.punct .openBracket) := by
      cases hm : r.meaning with
      | token kind => rw [hm] at hkind; cases hkind; rfl
      | nothing | pragma | lineMarker => rw [hm] at hkind; cases hkind
      | word =>
        rw [hm] at hkind
        simp only [Meaning.kind?, wordKind] at hkind
        split at hkind <;> cases hkind
      | number =>
        rw [hm] at hkind
        simp only [Meaning.kind?, decimalKind] at hkind
        split at hkind
        · cases hkind
        · split at hkind <;> cases hkind
    obtain ⟨hmode, hchange⟩ :=
      hrules l.mode (Mode.mem_all _) r (Rule.longestMatch_mem hmatch).1 hmeaning
    have hnext := modes_read_of_not_isKeyword (l := l) (n := n) (r := r) (by rw [hmeaning]; rfl)
    rw [hchange] at hnext
    exact hnext.1.trans hmode
  | case4 l _ s hs hu ih => exact ih h

end Lexer

namespace TokenStream

/-- Where `s` reads some text, `s'` reads the same text and then `x`. In both, `n` template
    brackets are open. -/
structure Extends (x : Text) (n : Nat) (s s' : TokenStream) : Prop where
  lexer : s.lexer.Extends x s'.lexer
  ahead : Option.Rel Token.Alike s.ahead s'.ahead
  openAngles : s.openAngles = n
  openAngles' : s'.openAngles = n
  bracket : ∀ t ∈ s.ahead, t.kind = .punct .openBracket → s.lexer.mode = .ordinary

/-- The text is over, in front of `x`. No token is ahead but perhaps a native type, which the
    other stream reads on. -/
structure Spent (x : Text) (s : TokenStream) : Prop where
  ne_nil : x ≠ []
  rest : s.lexer.rest = []
  ahead : ∀ t ∈ s.ahead, t.kind = .nativeType

variable {x : Text} {n : Nat} {s s' : TokenStream}

/-- The other stream has the more left to read. -/
theorem Extends.unread_eq (h : s.Extends x n s') : s'.unread = s.unread + 6 * x.length := by
  have hweight : weight s'.ahead = weight s.ahead := by
    have hahead := h.ahead
    generalize s.ahead = a at hahead
    generalize s'.ahead = b at hahead
    cases hahead with
    | none => rfl
    | some halike =>
      obtain ⟨line, rfl⟩ := halike
      rfl
  rw [unread, unread, hweight, Lexer.work, Lexer.work, h.lexer.rest, h.lexer.mode,
    List.length_append]
  omega

end TokenStream

namespace Parser

variable {α β ι : Type} {x : Text} {n m k : Nat} {R : α → α → Prop} {S : β → β → Prop}
  {L L' : α → Prop} {M : β → Prop} {p q : Parser α}

/-! ## Relations between parsers -/

/-- A run of `p` that succeeds is a run of `q` on the longer text, with related results, or
    it reaches the end of the text. -/
def Keeps (x : Text) (n m : Nat) (R : α → α → Prop) (L : α → Prop) (p q : Parser α) : Prop :=
  ∀ (s s' : TokenStream) (a : α) (t : TokenStream), s.Extends x n s' → p.run s = (.ok a, t) →
    (∃ b t', q.run s' = (.ok b, t') ∧ R a b ∧ t.Extends x m t') ∨ t.Spent x ∧ L a

/-- Behind the end of the text, a run that succeeds has a result as described, and stays
    there. -/
def Fades (x : Text) (L : α → Prop) (p : Parser α) : Prop :=
  ∀ (s : TokenStream) (a : α) (t : TokenStream), s.Spent x → p.run s = (.ok a, t) → t.Spent x ∧ L a

/-- `q` does on the longer text what `p` does on the shorter one, whatever it is called
    within, and `k` template brackets are closed. At the end of the text the results of `p`
    are as `L` says. -/
structure Follows (x : Text) (k : Nat) (R : α → α → Prop) (L : α → Prop) (p q : Parser α) :
    Prop where
  keeps : ∀ n, Keeps x (n + k) n R L p q
  fades : Fades x L p

/-- `q` does on the longer text what `p` does on the shorter one. -/
abbrev Copies (x : Text) (p q : Parser α) : Prop := Follows x 0 Eq (fun _ => True) p q

/-- `q` does on the longer text what `p` does on the shorter one, and neither of them
    succeeds at the end of the text. -/
abbrev Closes (x : Text) (p q : Parser α) : Prop := Follows x 0 Eq (fun _ => False) p q

/-! ## Building blocks -/

theorem Follows.mono (hp : Follows x k R L p q) (h : ∀ a, L a → L' a) : Follows x k R L' p q where
  keeps n s s' a t hs hrun := (hp.keeps n s s' a t hs hrun).imp_right (.imp_right (h a))
  fades s a t hs hrun := (hp.fades s a t hs hrun).imp_right (h a)

theorem Follows.copies (hp : Follows x 0 Eq L p q) : Copies x p q := hp.mono fun _ _ => True.intro

theorem Keeps.bind {f g : α → Parser β} (hp : Keeps x n k R L p q)
    (hf : ∀ a b, R a b → Keeps x k m S M (f a) (g b)) (hl : ∀ a, L a → Fades x M (f a)) :
    Keeps x n m S M (p >>= f) (q >>= g) := by
  intro s s' b u hs hrun
  rw [run_bind] at hrun
  rcases hpr : p.run s with ⟨e | a, t⟩
  · rw [hpr] at hrun
    cases hrun
  rw [hpr] at hrun
  rcases hp s s' a t hs hpr with ⟨a', t', hq, hR, ht⟩ | ⟨ht, ha⟩
  · rw [run_bind, hq]
    exact hf a a' hR t t' b u ht hrun
  · exact .inr (hl a ha t b u ht hrun)

theorem Fades.bind {f : α → Parser β} (hp : Fades x L p) (hl : ∀ a, L a → Fades x M (f a)) :
    Fades x M (p >>= f) := by
  intro s b u hs hrun
  rw [run_bind] at hrun
  rcases hpr : p.run s with ⟨e | a, t⟩
  · rw [hpr] at hrun
    cases hrun
  · rw [hpr] at hrun
    obtain ⟨ht, ha⟩ := hp s a t hs hpr
    exact hl a ha t b u ht hrun

/-- Parsers one after the other, where the end of the text leaves only some results. -/
theorem Follows.bind_of {f g : α → Parser β} (hp : Follows x 0 R L p q)
    (hf : ∀ a b, R a b → ∀ n, Keeps x (n + k) n S M (f a) (g b)) (hl : ∀ a, L a → Fades x M (f a)) :
    Follows x k S M (p >>= f) (q >>= g) where
  keeps n := (hp.keeps (n + k)).bind (fun a b h => hf a b h n) hl
  fades := hp.fades.bind hl

/-- Parsers one after the other, where some results of the first one are never found at the
    end of the text. -/
theorem Follows.bind_or {f g : α → Parser β} (hp : Follows x 0 Eq L p q)
    (hf : ∀ a, L a → Follows x k S M (f a) (g a))
    (hk : ∀ a, ¬L a → ∀ n, Keeps x (n + k) n S M (f a) (g a)) :
    Follows x k S M (p >>= f) (q >>= g) := by
  refine hp.bind_of (fun a _ h => h ▸ ?_) fun a h => (hf a h).fades
  by_cases ha : L a
  · exact (hf a ha).keeps
  · exact hk a ha

/-- Parsers one after the other. -/
theorem Follows.bind {f g : α → Parser β} (hp : Follows x 0 Eq L p q)
    (hf : ∀ a, Follows x k S M (f a) (g a)) : Follows x k S M (p >>= f) (q >>= g) :=
  hp.bind_of (fun a _ h => h ▸ (hf a).keeps) fun a _ => (hf a).fades

/-- Parsers one after the other, of which the first one closes template brackets. -/
theorem Follows.bind_closed {f g : α → Parser β} (hp : Follows x k Eq L p q)
    (hf : ∀ a, Follows x 0 S M (f a) (g a)) : Follows x k S M (p >>= f) (q >>= g) where
  keeps n := (hp.keeps n).bind (fun a _ h => h ▸ (hf a).keeps n) fun a _ => (hf a).fades
  fades := hp.fades.bind fun a _ => (hf a).fades

/-- A token, and what is done with it. Its line does not matter. -/
theorem Follows.bind_token {p q : Parser Token} {L : Token → Prop} {f g : Token → Parser β}
    (hp : Follows x 0 Token.Alike L p q)
    (hf : ∀ kind text line line', Follows x k S M (f ⟨kind, text, line⟩) (g ⟨kind, text, line'⟩)) :
    Follows x k S M (p >>= f) (q >>= g) := by
  refine hp.bind_of (fun t u h => ?_) fun t _ => (hf t.kind t.text t.line t.line).fades
  obtain ⟨line, rfl⟩ := h
  exact (hf t.kind t.text t.line line).keeps

theorem keeps_pure {a b : α} (h : R a b) : Keeps x n n R L (pure a) (pure b) := by
  intro s s' c t hs hrun
  rw [run_pure] at hrun
  cases hrun
  exact .inl ⟨b, s', run_pure b s', h, hs⟩

theorem fades_pure {a : α} (h : L a) : Fades x L (pure a) := by
  intro s c t hs hrun
  rw [run_pure] at hrun
  cases hrun
  exact ⟨hs, h⟩

theorem follows_pure {a b : α} (hR : R a b) (hL : L a) : Follows x 0 R L (pure a) (pure b) where
  keeps _ := keeps_pure hR
  fades := fades_pure hL

theorem copies_pure (a : α) : Copies x (pure a) (pure a) := follows_pure rfl True.intro

/-- What is returned behind a parser that does not succeed at the end of the text. -/
theorem Follows.close {f : α → β} (hp : Follows x 0 Eq (fun _ => False) p q) :
    Closes x (p >>= fun a => pure (f a)) (q >>= fun a => pure (f a)) :=
  hp.bind_of (fun _ _ h _ => h ▸ keeps_pure rfl) fun _ h => h.elim

theorem Follows.map {f : α → β} (hp : Follows x 0 Eq L p q) : Copies x (f <$> p) (f <$> q) := by
  rw [← bind_pure_comp, ← bind_pure_comp]
  exact hp.bind fun a => copies_pure (f a)

theorem follows_ite {c : Prop} [Decidable c] {p' q' : Parser α} (hp : c → Follows x k R L p q)
    (hq : ¬c → Follows x k R L p' q') :
    Follows x k R L (if c then p else p') (if c then q else q') := by
  split
  next h => exact hp h
  next h => exact hq h

/-- Both branches hand on what the rest needs. -/
theorem follows_ite_bind {c : Prop} [Decidable c] {p' q' : Parser α} {f g : α → Parser β}
    (hp : c → Copies x p q) (hq : ¬c → Copies x p' q') (hf : ∀ a, Follows x k S M (f a) (g a)) :
    Follows x k S M (if c then p >>= f else p' >>= f) (if c then q >>= g else q' >>= g) :=
  follows_ite (fun h => (hp h).bind hf) fun h => (hq h).bind hf

/-- A parser that never succeeds. -/
def Fails (p : Parser α) : Prop := ∀ s a t, p.run s ≠ (.ok a, t)

theorem keeps_of_fails (h : p.Fails) : Keeps x n m R L p q :=
  fun _ _ _ _ _ hrun => absurd hrun (h _ _ _)

theorem fades_of_fails (h : p.Fails) : Fades x L p := fun _ _ _ _ hrun => absurd hrun (h _ _ _)

theorem follows_of_fails (h : p.Fails) : Follows x k R L p q where
  keeps _ := keeps_of_fails h
  fades := fades_of_fails h

theorem Fails.bind {f : α → Parser β} (h : p.Fails) : (p >>= f).Fails := by
  intro s b u hrun
  rw [run_bind] at hrun
  rcases hpr : p.run s with ⟨e | a, t⟩
  · rw [hpr] at hrun
    cases hrun
  · exact h _ _ _ hpr

theorem fails_bind {f : α → Parser β} (h : ∀ a, (f a).Fails) : (p >>= f).Fails := by
  intro s b u hrun
  rw [run_bind] at hrun
  rcases hpr : p.run s with ⟨e | a, t⟩
  · rw [hpr] at hrun
    cases hrun
  · rw [hpr] at hrun
    exact h _ _ _ _ hrun

theorem fails_throw (e : ParseError) : Fails (throw e : Parser α) := by
  intro s a t hrun
  rw [run_throw] at hrun
  cases hrun

theorem fails_fail (fault : SyntaxFault) : Fails (fail fault : Parser α) :=
  fails_bind fun _ => fails_throw _

theorem fails_failAtEnd : Fails (failAtEnd : Parser α) := fails_throw _

theorem fails_unexpected (expected : Expectation) : Fails (unexpected expected : Parser α) :=
  fails_bind fun _ => fails_fail _

/-- Behind a check that fails alike, what passes it. -/
theorem follows_unless {c : Prop} [Decidable c] {fault : SyntaxFault} {f g : PUnit → Parser β}
    (h : ¬c → Follows x k S M (f ⟨⟩) (g ⟨⟩)) :
    Follows x k S M (if c then fail fault >>= f else f ⟨⟩) (if c then fail fault >>= g else g ⟨⟩) :=
  follows_ite (fun _ => follows_of_fails (fails_fail fault).bind) h

/-! ## The stream -/

theorem follows_modify {f : TokenStream → TokenStream}
    (hkeeps : ∀ n s s', s.Extends x (n + k) s' → (f s).Extends x n (f s'))
    (hfades : ∀ s, s.Spent x → (f s).Spent x) :
    Follows x k Eq (fun _ => True) (modify f) (modify f) where
  keeps n s s' a t hs hrun := by
    rw [run_modify] at hrun
    cases hrun
    exact .inl ⟨⟨⟩, f s', run_modify f s', rfl, hkeeps n s s' hs⟩
  fades s a t hs hrun := by
    rw [run_modify] at hrun
    cases hrun
    exact ⟨hfades s hs, True.intro⟩

/-- What is asked of the stream besides its tokens. -/
theorem copies_get {f g : TokenStream → Parser β}
    (hf : ∀ s s' : TokenStream, s'.openAngles = s.openAngles → s'.lexer.dialect = s.lexer.dialect →
      Copies x (f s) (g s')) : Copies x (get >>= f) (get >>= g) where
  keeps n s s' a t hs hrun :=
    (hf s s' (hs.openAngles'.trans hs.openAngles.symm) hs.lexer.dialect).keeps n s s' a t hs hrun
  fades s a t hs hrun := (hf s s rfl rfl).fades s a t hs hrun

/-! ## Tokens -/

theorem run_peek?_of_ahead {s : TokenStream} {t : Token} (h : s.ahead = some t) :
    run peek? s = (.ok (some t), s) := by
  rw [run_peek?, h]

theorem keeps_peek? (n : Nat) :
    Keeps x n n (Option.Rel Token.Alike) (fun t? => ∀ t ∈ t?, t.kind = .nativeType) peek?
      peek? := by
  intro s s' t? u hs hrun
  have hrel := hs.ahead
  rw [run_peek?] at hrun ⊢
  cases hahead : s.ahead with
  | some t =>
    rw [hahead] at hrun hrel
    cases hrun
    cases hahead' : s'.ahead with
    | none => rw [hahead'] at hrel; cases hrel
    | some t' => exact .inl ⟨some t', s', rfl, hahead' ▸ hrel, hs⟩
  | none =>
    rw [hahead] at hrun hrel
    have hahead' : s'.ahead = none := by
      cases hahead' : s'.ahead with
      | none => rfl
      | some t' => rw [hahead'] at hrel; cases hrel
    rw [hahead']
    have halong := hs.lexer.next
    have hbracket (t : Token) (m : Lexer) (h : s.lexer.next = (.ok (some t), m))
        (ht : t.kind = .punct .openBracket) : m.mode = .ordinary := Lexer.mode_of_openBracket h ht
    generalize s.lexer.next = r at halong hrun hbracket
    cases halong with
    | failed => cases hrun
    | @token t t' m m' hnext halike hm =>
      cases hrun
      rw [hnext]
      refine .inl ⟨_, _, rfl, .some halike, ⟨hm, .some halike, hs.openAngles, hs.openAngles', ?_⟩⟩
      intro u hu
      cases hu
      exact hbracket t m rfl
    | @nativeType t m hkind hrest hx =>
      cases hrun
      have hnative : ∀ u ∈ some t, u.kind = .nativeType := fun u hu => by cases hu; exact hkind
      exact .inr ⟨⟨hx, hrest, hnative⟩, hnative⟩
    | @ended m hrest hmeets =>
      cases hrun
      have hnone : ∀ u ∈ (none : Option Token), u.kind = .nativeType := fun u hu => by cases hu
      by_cases hx : x = []
      · subst hx
        obtain ⟨m', hnext, hm⟩ := hmeets fun _ h => by cases h
        have hrest' : m'.rest = [] ∧ m'.atLineStart = m.atLineStart := by
          rcases hm.rest with h | ⟨h, -⟩
          · exact h
          · cases h
        have hextends : m.Extends [] m' :=
          ⟨hm.toAgrees, by rw [hrest'.1, hrest]; rfl, hrest'.2, hm.lawful, nofun,
            fun h => absurd rfl h⟩
        rw [hnext, Lexer.next_of_rest_eq_nil hrest'.1]
        exact .inl ⟨none, _, rfl, .none, ⟨hextends, .none, hs.openAngles, hs.openAngles',
          fun _ h => by cases h⟩⟩
      · exact .inr ⟨⟨hx, hrest, hnone⟩, hnone⟩

theorem fades_peek? : Fades x (fun t? => ∀ t ∈ t?, t.kind = .nativeType) peek? := by
  intro s t? u hs hrun
  rw [run_peek?] at hrun
  cases hahead : s.ahead with
  | some t =>
    rw [hahead] at hrun
    cases hrun
    exact ⟨hs, hahead ▸ hs.ahead⟩
  | none =>
    rw [hahead, Lexer.next_of_rest_eq_nil hs.rest] at hrun
    cases hrun
    have hnone : ∀ u ∈ (none : Option Token), u.kind = .nativeType := fun u hu => by cases hu
    exact ⟨⟨hs.ne_nil, hs.rest, hnone⟩, hnone⟩

/-- The next token, if there is one. At the end of the text there is none but a native type. -/
theorem follows_peek? :
    Follows x 0 (Option.Rel Token.Alike) (fun t? => ∀ t ∈ t?, t.kind = .nativeType) peek? peek? :=
  ⟨keeps_peek?, fades_peek?⟩

theorem follows_peek : Follows x 0 Token.Alike (fun t => t.kind = .nativeType) peek peek := by
  refine follows_peek?.bind_of (fun t? u? h => ?_) fun t? h => ?_
  · cases h with
    | none => exact fun _ => keeps_of_fails fails_failAtEnd
    | some h => exact fun n => keeps_pure h
  · cases t? with
    | none => exact fades_of_fails fails_failAtEnd
    | some t => exact fades_pure (h t rfl)

theorem follows_kind? : Follows x 0 Eq (fun kind? => ∀ k ∈ kind?, k = .nativeType) kind? kind? := by
  refine follows_peek?.bind_of (fun t? u? h n => keeps_pure ?_) fun t? h => fades_pure ?_
  · cases h with
    | none => rfl
    | some h =>
      obtain ⟨line, rfl⟩ := h
      rfl
  · intro k hk
    obtain ⟨t, ht, rfl⟩ := Option.map_eq_some_iff.1 hk
    exact h t ht

/-- At the end of the text, a token of no kind is next but perhaps a native type. -/
theorem follows_isNext (kind : TokenKind) :
    Follows x 0 Eq (fun b => b = true → kind = .nativeType) (isNext kind) (isNext kind) := by
  refine follows_kind?.bind_of (fun _ _ h n => h ▸ keeps_pure rfl) fun k? h =>
    fades_pure fun hb => ?_
  exact h kind (beq_iff_eq.1 hb)

/-- Parsers are equal if they do the same with every stream. -/
theorem ext_run (h : ∀ s, p.run s = q.run s) : p = q := funext h

theorem run_peek?_again {s s₁ : TokenStream} {t : Token} (h : run peek? s = (.ok (some t), s₁)) :
    run peek? s₁ = (.ok (some t), s₁) := by
  have hahead := ahead_of_peek? (s := s) (t := some t) (by rw [h])
  rw [h] at hahead
  exact run_peek?_of_ahead hahead

/-- The stream behind a token that is taken. -/
def afterTake (t : Token) (s : TokenStream) :
    TokenStream := { s with ahead := none, lastLine := t.line }

theorem run_take_of_peek? {s s₁ : TokenStream} {t : Token} (h : run peek? s = (.ok (some t), s₁)) :
    run take s₁ = (.ok t, afterTake t s₁) := by
  rw [run_take, run_peek?_again h]
  rfl

/-- A token that comes next is looked at once, and taken if it is of the kind. -/
theorem isNext_take_eq (kind : TokenKind) (f : Token → Parser α) (p : Parser α) :
    (do if ← isNext kind then f (← take) else p) = (do
      match ← peek? with
      | some t => if t.kind = kind then do modify (afterTake t); f t else p
      | none => p) := by
  refine ext_run fun s => ?_
  rw [run_bind, run_bind, run_isNext]
  rcases hpeek : run peek? s with ⟨e | t?, s₁⟩
  · rfl
  cases t? with
  | none => rfl
  | some t =>
    dsimp only
    by_cases hkind : t.kind = kind
    · rw [if_pos (by simp [hkind]), if_pos hkind, run_bind, run_take_of_peek? hpeek]
      rfl
    · rw [if_neg (by simp [hkind]), if_neg hkind]

theorem keeps_afterTake {p q : Parser α} (h : Keeps x n m R L p q) (t t' : Token) :
    Keeps x n m R L (do modify (afterTake t); p) (do modify (afterTake t'); q) :=
  fun s s' a u hs hrun => h (afterTake t s) (afterTake t' s') a u
    ⟨hs.lexer, .none, hs.openAngles, hs.openAngles', nofun⟩ hrun

theorem fades_afterTake (h : Fades x L p) (t : Token) : Fades x L (do modify (afterTake t); p) :=
  fun s a u hs hrun => h (afterTake t s) a u ⟨hs.ne_nil, hs.rest, nofun⟩ hrun

theorem follows_take : Follows x 0 Token.Alike (fun _ => True) take take :=
  follows_peek.bind_of (fun t u h _ => keeps_afterTake (keeps_pure h) t u)
    fun t _ => fades_afterTake (fades_pure True.intro) t

/-- What is done with a token of a kind, and without it. At the end of the text there is
    none, unless it is a native type. -/
theorem follows_isNext_take {kind : TokenKind} {f g : Token → Parser α}
    (hf : ∀ text line line' n, Keeps x n n R L (f ⟨kind, text, line⟩) (g ⟨kind, text, line'⟩))
    (hl : kind = .nativeType → ∀ t, Fades x L (f t)) (hp : Follows x 0 R L p q) :
    Follows x 0 R L (do if ← isNext kind then f (← take) else p)
      (do if ← isNext kind then g (← take) else q) := by
  rw [isNext_take_eq, isNext_take_eq]
  refine follows_peek?.bind_of (fun t? u? h n => ?_) fun t? h => ?_
  · cases h with
    | none => exact hp.keeps n
    | @some t u h =>
      obtain ⟨line, rfl⟩ := h
      show Keeps x n n R L (if t.kind = kind then _ else _) (if t.kind = kind then _ else _)
      split
      next hkind =>
        subst hkind
        exact keeps_afterTake (hf t.text t.line line n) t _
      · exact hp.keeps n
  · cases t? with
    | none => exact hp.fades
    | some t =>
      show Fades x L (if t.kind = kind then _ else _)
      split
      next hkind => exact fades_afterTake (hl (hkind ▸ h t rfl) t) t
      · exact hp.fades

theorem follows_accept (kind : TokenKind) :
    Follows x 0 Eq (fun b => b = true → kind = .nativeType) (accept kind) (accept kind) :=
  follows_isNext_take (fun _ _ _ _ => keeps_pure rfl) (fun hkind _ => fades_pure fun _ => hkind)
    (follows_pure rfl nofun)

theorem follows_expect (kind : TokenKind) (place : String) :
    Follows x 0 Token.Alike (fun _ => kind = .nativeType) (expect kind place)
      (expect kind place) := by
  have hexpect : expect kind place =
      isNext kind >>= fun b => if b then take >>= pure else unexpected (.token kind place) := by
    rw [bind_pure]
    rfl
  rw [hexpect]
  exact follows_isNext_take (fun _ _ line' _ => keeps_pure ⟨line', rfl⟩)
    (fun hkind _ => fades_pure hkind) (follows_of_fails (fails_unexpected _))

theorem follows_isPunct (p : Punct) : Follows x 0 Eq (fun b => b = false) (isPunct p) (isPunct p) :=
  (follows_isNext _).mono fun b h => by cases b with
    | false => rfl
    | true => cases h rfl

theorem follows_isKeyword (k : Keyword) :
    Follows x 0 Eq (fun b => b = false) (isKeyword k) (isKeyword k) :=
  (follows_isNext _).mono fun b h => by cases b with
    | false => rfl
    | true => cases h rfl

theorem follows_acceptPunct (p : Punct) :
    Follows x 0 Eq (fun b => b = false) (acceptPunct p) (acceptPunct p) :=
  (follows_accept _).mono fun b h => by cases b with
    | false => rfl
    | true => cases h rfl

theorem follows_acceptKeyword (k : Keyword) :
    Follows x 0 Eq (fun b => b = false) (acceptKeyword k) (acceptKeyword k) :=
  (follows_accept _).mono fun b h => by cases b with
    | false => rfl
    | true => cases h rfl

/-- A token of another kind than a native type is not found at the end of the text. -/
theorem closes_discard_expect {kind : TokenKind} (hkind : kind ≠ .nativeType) (place : String) :
    Closes x (discard (expect kind place)) (discard (expect kind place)) := by
  show Closes x ((fun _ => ()) <$> expect kind place) ((fun _ => ()) <$> expect kind place)
  rw [← bind_pure_comp]
  exact (follows_expect kind place).bind_of (fun _ _ _ _ => keeps_pure rfl) fun _ h =>
    absurd h hkind

theorem closes_expectPunct (p : Punct) (place : String) :
    Closes x (expectPunct p place) (expectPunct p place) :=
  closes_discard_expect (by simp) place

theorem closes_expectKeyword (k : Keyword) (place : String) :
    Closes x (expectKeyword k place) (expectKeyword k place) :=
  closes_discard_expect (by simp) place

theorem closes_identifier (place : String) : Closes x (identifier place) (identifier place) := by
  refine (follows_expect _ _).bind_of (fun t u h n => ?_) fun _ h => nomatch h
  obtain ⟨line, rfl⟩ := h
  exact keeps_pure rfl

theorem copies_identifier? : Copies x identifier? identifier? :=
  (follows_isNext _).bind fun _ => follows_ite
    (fun _ => follows_take.bind_token fun _ text _ _ => copies_pure (some text)) fun _ =>
    copies_pure none

theorem run_expect_of_peek? {kind : TokenKind} {s s₁ : TokenStream} {t : Token}
    (h : run peek? s = (.ok (some t), s₁)) (hkind : t.kind = kind) (place : String) :
    run (expect kind place) s = (.ok t, afterTake t s₁) := by
  unfold expect
  rw [run_bind, run_isNext, h]
  dsimp only
  rw [if_pos (by simp [hkind]), run_take_of_peek? h]

theorem exists_of_run_expect {kind : TokenKind} {place : String} {s t : TokenStream} {a : Token}
    (h : run (expect kind place) s = (.ok a, t)) :
    ∃ s₁, run peek? s = (.ok (some a), s₁) ∧ a.kind = kind ∧ t = afterTake a s₁ := by
  unfold expect at h
  rw [run_bind, run_isNext] at h
  rcases hpeek : run peek? s with ⟨e | t?, s₁⟩
  · rw [hpeek] at h
    cases h
  rw [hpeek] at h
  dsimp only at h
  split at h
  next hnext =>
    obtain ⟨u, rfl, hkind⟩ := Option.map_eq_some_iff.1 (beq_iff_eq.1 hnext)
    rw [run_take_of_peek? hpeek] at h
    cases h
    exact ⟨s₁, rfl, hkind, rfl⟩
  · exact absurd h (fails_unexpected _ _ _ _)

theorem run_expectPunct_of_peek? {p : Punct} {s s₁ : TokenStream} {t : Token}
    (h : run peek? s = (.ok (some t), s₁)) (hkind : t.kind = .punct p) (place : String) :
    run (expectPunct p place) s = (.ok (), afterTake t s₁) := by
  show run ((fun _ => ()) <$> expect (.punct p) place) s = _
  rw [run_map, run_expect_of_peek? h hkind]
  rfl

theorem exists_of_run_expectPunct {p : Punct} {place : String} {s t : TokenStream} {u : Unit}
    (h : run (expectPunct p place) s = (.ok u, t)) :
    ∃ a s₁, run peek? s = (.ok (some a), s₁) ∧ a.kind = .punct p ∧ t = afterTake a s₁ := by
  change run ((fun _ => ()) <$> expect (.punct p) place) s = _ at h
  rw [run_map] at h
  rcases hexpect : run (expect (.punct p) place) s with ⟨e | a, v⟩
  · rw [hexpect] at h
    cases h
  · rw [hexpect] at h
    cases h
    exact ⟨a, exists_of_run_expect hexpect⟩

/-! ## Template brackets -/

/-- What stands in a template bracket, and closes it. -/
theorem copies_enterAngle {f g : PUnit → Parser α}
    (h : Follows x 1 Eq (fun _ => True) (f ⟨⟩) (g ⟨⟩)) :
    Copies x (enterAngle >>= f) (enterAngle >>= g) where
  keeps n s s' a t hs hrun :=
    h.keeps n { s with openAngles := s.openAngles + 1 }
      { s' with openAngles := s'.openAngles + 1 } a t
      ⟨hs.lexer, hs.ahead, congrArg (· + 1) hs.openAngles, congrArg (· + 1) hs.openAngles',
      hs.bracket⟩ hrun
  fades s a t hs hrun :=
    h.fades { s with openAngles := s.openAngles + 1 } a t ⟨hs.ne_nil, hs.rest, hs.ahead⟩ hrun

theorem follows_closeAngle (place : String) :
    Follows x 1 Eq (fun _ => True) (closeAngle place) (closeAngle place) := by
  have hclose : Follows x 1 Eq (fun _ => True)
      (modify fun s => { s with openAngles := s.openAngles - 1 })
      (modify fun s => { s with openAngles := s.openAngles - 1 }) := by
    refine follows_modify (fun n s s' hs => ?_) fun s hs => ⟨hs.ne_nil, hs.rest, hs.ahead⟩
    exact ⟨hs.lexer, hs.ahead, by simp [hs.openAngles], by simp [hs.openAngles'], hs.bracket⟩
  refine hclose.bind_closed fun _ => follows_peek?.bind_of (fun t? u? h n => ?_) fun t? h => ?_
  · cases h with
    | none => exact keeps_of_fails fails_failAtEnd
    | @some t u h =>
      obtain ⟨line, rfl⟩ := h
      show Keeps x n n Eq _ (if t.kind = .punct .shiftRight then _ else _)
        (if t.kind = .punct .shiftRight then _ else _)
      split
      · intro s s' a v hs hrun
        cases hrun
        exact .inl ⟨_, _, rfl, rfl, hs.lexer, .some ⟨line, rfl⟩, hs.openAngles, hs.openAngles',
          fun v hv => by cases hv; exact nofun⟩
      · exact (closes_expectPunct .greater place).copies.keeps n
  · cases t? with
    | none => exact fades_of_fails fails_failAtEnd
    | some t =>
      show Fades x _ (if t.kind = .punct .shiftRight then _ else _)
      rw [if_neg (by rw [h t rfl]; simp)]
      exact (closes_expectPunct .greater place).copies.fades

theorem run_shielded (p : Parser α) (s : TokenStream) :
    run (shielded p) s =
      match run p { s with openAngles := 0 } with
      | (.ok a, t) => (.ok a, { t with openAngles := s.openAngles })
      | (.error e, t) => (.error e, t) := by
  unfold shielded
  rw [run_bind, run_get]
  show run (p >>= _) { s with openAngles := 0 } = _
  rw [run_bind]
  rcases run p { s with openAngles := 0 } with ⟨e | a, t⟩ <;> rfl

theorem Follows.shielded (hp : Follows x 0 R L p q) :
    Follows x 0 R L (shielded p) (shielded q) where
  keeps n s s' a t hs hrun := by
    rw [run_shielded] at hrun ⊢
    rcases hpr : run p { s with openAngles := 0 } with ⟨e | b, u⟩
    · rw [hpr] at hrun
      cases hrun
    · rw [hpr] at hrun
      cases hrun
      rcases hp.keeps 0 { s with openAngles := 0 } { s' with openAngles := 0 } _ _ ⟨hs.lexer,
        hs.ahead, rfl, rfl, hs.bracket⟩ hpr with
        ⟨b, u', hq, hR, hu⟩ | ⟨hu, hL⟩
      · rw [hq]
        exact .inl ⟨b, _, rfl, hR, hu.lexer, hu.ahead, hs.openAngles, hs.openAngles', hu.bracket⟩
      · exact .inr ⟨⟨hu.ne_nil, hu.rest, hu.ahead⟩, hL⟩
  fades s a t hs hrun := by
    rw [run_shielded] at hrun
    rcases hpr : run p { s with openAngles := 0 } with ⟨e | b, u⟩
    · rw [hpr] at hrun
      cases hrun
    · rw [hpr] at hrun
      cases hrun
      obtain ⟨hu, hL⟩ := hp.fades { s with openAngles := 0 } _ _ ⟨hs.ne_nil, hs.rest, hs.ahead⟩ hpr
      exact ⟨⟨hu.ne_nil, hu.rest, hu.ahead⟩, hL⟩

/-! ## Recursion -/

/-- A recursion on the longer text has at least as many rounds. -/
theorem follows_unfold {body body' : (ι → Parser α) → ι → Parser α}
    (hbody : ∀ more more', (∀ j, Follows x 0 R L (more j) (more' j)) →
      ∀ i, Follows x 0 R L (body more i) (body' more' i)) {d d' : Nat} (hd : d ≤ d') (i : ι) :
    Follows x 0 R L (unfold body d i) (unfold body' d' i) := by
  induction d generalizing d' i with
  | zero => exact follows_of_fails fails_failAtEnd
  | succ d ih =>
    obtain ⟨e, rfl⟩ := Nat.exists_eq_add_of_le' hd
    exact hbody _ _ (fun j => ih (Nat.le_add_left d e) j) i

theorem run_recurse (body : (ι → Parser α) → ι → Parser α) (i : ι) (s : TokenStream) :
    run (recurse body i) s = run (body (unfold body s.unread) i) s := rfl

/-- If a round copies what it does around the rounds inside it, so does the recursion. -/
theorem follows_recurse {body body' : (ι → Parser α) → ι → Parser α}
    (hbody : ∀ more more', (∀ j, Follows x 0 R L (more j) (more' j)) →
      ∀ i, Follows x 0 R L (body more i) (body' more' i)) (i : ι) :
    Follows x 0 R L (recurse body i) (recurse body' i) where
  keeps n s s' a t hs hrun := by
    have hunread := hs.unread_eq
    have hrounds : s.unread + 1 ≤ s'.unread + 1 := by omega
    exact (follows_unfold hbody hrounds i).keeps n s s' a t hs hrun
  fades s a t hs hrun :=
    (follows_unfold hbody (Nat.le_refl (s.unread + 1)) i).fades s a t hs hrun

theorem copies_manyRound {item item' : Parser (Option α)} (h : Copies x item item')
    (more more' : Unit → Parser (List α)) (hmore : ∀ j, Copies x (more j) (more' j)) (i : Unit) :
    Copies x (manyRound item more i) (manyRound item' more' i) := by
  refine h.bind fun a? => ?_
  cases a? with
  | none => exact copies_pure []
  | some a => exact (hmore ()).bind fun as => copies_pure (a :: as)

theorem copies_many {item item' : Parser (Option α)} (h : Copies x item item') :
    Copies x (many item) (many item') :=
  follows_recurse (copies_manyRound h) ()

theorem copies_manyUntil (close : Punct) {item item' : Parser α} (h : Copies x item item') :
    Copies x (manyUntil close item) (manyUntil close item') :=
  copies_many <| (follows_acceptPunct close).bind fun _ =>
    follows_ite (fun _ => copies_pure none) fun _ => h.bind fun a => copies_pure (some a)

theorem copies_commaMore {item item' : Parser α} (h : Copies x item item') :
    Copies x (commaMore item) (commaMore item') :=
  copies_many <| (follows_acceptPunct .comma).bind fun _ =>
    follows_ite (fun _ => h.bind fun a => copies_pure (some a)) fun _ => copies_pure none

theorem copies_commaList {item item' : Parser α} (h : Copies x item item') :
    Copies x (commaList item) (commaList item') :=
  h.bind fun a => (copies_commaMore h).bind fun as => copies_pure (a :: as)

end Parser

end IdlFrontend
