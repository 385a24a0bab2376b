import IdlFrontend.Proofs.Lexer.Modes

/-!
# The tokens of a dialect

Whatever mode the lexer is in, an identifier begins like a word, and a keyword belongs
to the dialect that the lexer was started with.

Results:

* `dialect_of_step?`: the dialect of a lexer never changes.
* `regular_of_step?`, `regular_of_next`: the tokens that the lexer reads.
-/

namespace IdlFrontend

/-- Identifiers begin like words, and keywords belong to the dialect. -/
structure Token.Regular (dialect : Dialect) (t : Token) : Prop where
  word : t.kind = .identifier → ∃ c cs, t.text = c :: cs ∧ isWordStart c
  keyword : ∀ k, t.kind = .keyword k → k.isIn dialect

/-- An identifier or a keyword. -/
def Token.IsWord (t : Token) : Prop := t.kind = .identifier ∨ ∃ k, t.kind = .keyword k

/-- Punctuation is neither an identifier nor a keyword. -/
theorem Token.regular_of_punct {dialect : Dialect} {t : Token} {p : Punct} (h : t.kind = .punct p) :
    t.Regular dialect := by
  constructor
  · intro hkind
    rw [h] at hkind
    cases hkind
  · intro k hkind
    rw [h] at hkind
    cases hkind

namespace Lexer

/-! ## The dialect -/

@[simp] theorem dialect_pop (l : Lexer) : l.pop.dialect = l.dialect := by
  unfold pop
  split <;> rfl

@[simp] theorem dialect_change (l : Lexer) (c : ModeChange) : (l.change c).dialect = l.dialect := by
  cases c with
  | stay | enter => rfl
  | leave | switch => exact dialect_pop l

@[simp] theorem dialect_read (l : Lexer) (n : Nat) (r : Rule) :
    (l.read n r).next.dialect = l.dialect := by
  obtain ⟨line, pragmas, hnote⟩ := note_eq (l.skip n) (l.rest.take n) r.meaning
  show (change _ _).dialect = _
  rw [dialect_change, hnote]
  rfl

theorem dialect_of_step? {l : Lexer} {s : Step} (h : l.step? = some s) :
    s.next.dialect = l.dialect := by
  obtain ⟨n, r, -, rfl⟩ := step?_eq_some_iff.1 h
  exact dialect_read l n r

/-! ## The tokens -/

/-- Only the pattern of words finds identifiers, and only the ordinary mode keywords. -/
theorem pattern_of_identifier {mode : Mode} {r : Rule} (hr : r ∈ Rule.inMode mode)
    (h : r.meaning = .token .identifier ∨ r.meaning = .word) : r.pattern = .word := by
  have check : ∀ mode ∈ [Mode.ordinary, .properties, .native, .nativeType, .fragment, .fragmentEnd],
      ∀ r ∈ Rule.inMode mode, r.meaning = .token .identifier ∨ r.meaning = .word →
        r.pattern = .word := by decide
  exact check mode (by cases mode <;> decide) r hr h

theorem meaning_of_keyword {mode : Mode} {r : Rule} (hr : r ∈ Rule.inMode mode)
    (h : r.meaning.isKeyword) : r.meaning = .word := by
  have check : ∀ mode ∈ [Mode.ordinary, .properties, .native, .nativeType, .fragment, .fragmentEnd],
      ∀ r ∈ Rule.inMode mode, r.meaning.isKeyword → r.meaning = .word := by decide
  exact check mode (by cases mode <;> decide) r hr h

/-- A text that the pattern of words matches begins like a word. -/
theorem exists_take_of_word {lineStart : Bool} {cs : Text} {n : Nat}
    (h : Pattern.word.length? lineStart cs = some n) :
    ∃ c us, cs.take n = c :: us ∧ isWordStart c := by
  cases cs with
  | nil => cases h
  | cons c cs =>
    simp only [Pattern.length?, Pattern.wordLength?] at h
    split at h
    next hc =>
      cases h
      exact ⟨c, _, List.take_succ_cons, hc⟩
    · cases h

theorem meaning_of_keyword_token {l : Lexer} {n : Nat} {r : Rule} (hr : r ∈ Rule.inMode l.mode)
    {t : Token} {k : Keyword} (ht : (l.read n r).token? = some t) (hkind : t.kind = .keyword k) :
    r.meaning = .word := by
  obtain ⟨kind, hmeaning, rfl⟩ := Option.map_eq_some_iff.1 ht
  obtain rfl : kind = .keyword k := hkind
  cases hm : r.meaning.isKeyword with
  | true => exact meaning_of_keyword hr hm
  | false => exact absurd hmeaning (Meaning.kind?_ne_keyword hm _ _ _)

/-- Words are read by their own pattern. -/
theorem pattern_of_isWord {l : Lexer} {n : Nat} {r : Rule} (hr : r ∈ Rule.inMode l.mode) {t : Token}
    (ht : (l.read n r).token? = some t) (hkind : t.IsWord) : r.pattern = .word := by
  refine pattern_of_identifier hr ?_
  rcases hkind with hkind | ⟨k, hkind⟩
  · obtain ⟨kind, hmeaning, rfl⟩ := Option.map_eq_some_iff.1 ht
    obtain rfl : kind = .identifier := hkind
    cases hm : r.meaning with
    | nothing | pragma | lineMarker =>
      rw [hm] at hmeaning
      cases hmeaning
    | token =>
      rw [hm] at hmeaning
      cases hmeaning
      exact .inl rfl
    | word => exact .inr rfl
    | number =>
      rw [hm] at hmeaning
      simp only [Meaning.kind?, decimalKind, Option.some.injEq] at hmeaning
      split at hmeaning
      · cases hmeaning
      · split at hmeaning <;> cases hmeaning
  · exact .inr (meaning_of_keyword_token hr ht hkind)

theorem regular_of_step? {l : Lexer} {s : Step} (h : l.step? = some s) :
    ∀ t ∈ s.token?, t.Regular l.dialect := by
  obtain ⟨n, r, hmatch, rfl⟩ := step?_eq_some_iff.1 h
  obtain ⟨hr, hlen⟩ := Rule.longestMatch_mem hmatch
  intro t ht
  have hpattern (hkind : t.kind = .identifier) : r.pattern = .word :=
    pattern_of_isWord hr ht (.inl hkind)
  have hmeaning {k : Keyword} (hkind : t.kind = .keyword k) : r.meaning = .word :=
    meaning_of_keyword_token hr ht hkind
  obtain ⟨kind, hkind, rfl⟩ := Option.map_eq_some_iff.1 ht
  constructor
  · intro hidentifier
    rw [Rule.length?, hpattern hidentifier] at hlen
    exact exists_take_of_word hlen
  · rintro k rfl
    rw [hmeaning rfl, Meaning.kind?, Option.some.injEq] at hkind
    unfold wordKind at hkind
    split at hkind
    next hk =>
      cases hkind
      exact (Keyword.ofText?_eq_some_iff.1 hk).1
    · cases hkind

/-- The lexer behind its next token, and the token. -/
theorem regular_of_next (l : Lexer) :
    l.next.2.dialect = l.dialect ∧
      ∀ t?, l.next.1 = .ok t? → ∀ t ∈ t?, t.Regular l.dialect := by
  fun_induction next l with
  | case1 =>
    refine ⟨rfl, fun t? h t ht => ?_⟩
    cases h
    cases ht
  | case2 => exact ⟨rfl, fun t? h => by cases h⟩
  | case3 l _ s h t ht =>
    refine ⟨dialect_of_step? h, fun t? ht? u hu => ?_⟩
    cases ht?
    exact regular_of_step? h u (ht.trans hu)
  | case4 l _ s h ht ih => rwa [dialect_of_step? h] at ih

end Lexer

end IdlFrontend
