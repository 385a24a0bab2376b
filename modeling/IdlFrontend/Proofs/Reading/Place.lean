import IdlFrontend.Grammar.Type
import IdlFrontend.Proofs.Lexer.Run

/-!
# Where a parser stands

A parser sees a text as a sequence of words: tokens without their lines, of which the spelling
matters for names and literals only. A place says which words come next, up to some place in the
text, and how many template brackets are open. What is read ahead does not belong to it.

Two closing template brackets may have been lexed as one token. They are two words all the same,
so that a double angle can be seen as a shift or as two closing brackets.

Results:

* `Place.size_le_unread`: a place with words on it bounds what is left to read.
* `run_peek?_of_at`, `run_take_of_at`: looking at a word, and taking it.
-/

namespace IdlFrontend

/-! ## Words -/

/-- What the parser sees of a token. -/
inductive Word where
  | keyword (k : Keyword)
  | identifier (name : Text)
  | integer (text : Text)
  | floating (text : Text)
  | fixedPoint (text : Text)
  /-- The text between the quotes. -/
  | character (body : Text)
  /-- The text between the quotes. -/
  | string (body : Text)
  /-- The text between the parentheses. -/
  | propertyArgs (body : Text)
  | nativeType (text : Text)
  | fragment (text : Text)
  | punct (p : Punct)
  /-- An opening bracket behind which the parser has a property list read. -/
  | openProperties
deriving DecidableEq, Repr

/-- The kind of the tokens that are the word. -/
def Word.kind : Word → TokenKind
  | .keyword k => .keyword k
  | .identifier _ => .identifier
  | .integer _ => .integer
  | .floating _ => .floating
  | .fixedPoint _ => .fixedPoint
  | .character _ => .character
  | .string _ => .string
  | .propertyArgs _ => .propertyArgs
  | .nativeType _ => .nativeType
  | .fragment _ => .fragment
  | .punct p => .punct p
  | .openProperties => .punct .openBracket

/-- The word that a token is. -/
def Token.word (t : Token) : Word :=
  match t.kind with
  | .keyword k => .keyword k
  | .identifier => .identifier t.text
  | .integer => .integer t.text
  | .floating => .floating t.text
  | .fixedPoint => .fixedPoint t.text
  | .character => .character (quotedBody t.text)
  | .string => .string (quotedBody t.text)
  | .propertyArgs => .propertyArgs (parenthesizedBody t.text)
  | .nativeType => .nativeType t.text
  | .fragment => .fragment t.text
  | .punct p => .punct p

@[simp] theorem Token.kind_word (t : Token) : t.word.kind = t.kind := by
  obtain ⟨kind, text, line⟩ := t
  cases kind <;> rfl

/-- A closing template bracket. -/
abbrev Word.closing : Word := .punct .greater

/-- The kinds of the tokens that can come next where the word does. The other half of a double
    angle may be a word of its own. -/
def Word.kinds (w : Word) : List TokenKind :=
  if w = .closing then [.punct .greater, .punct .shiftRight] else [w.kind]

/-- The words of the items of a list, with a mark between them. -/
def separated {α : Type} (p : Punct) (f : α → List Word) : List α → List Word
  | [] => []
  | a :: as => f a ++ as.flatMap fun a => .punct p :: f a

theorem separated_singleton {α : Type} (p : Punct) (f : α → List Word) (a : α) :
    separated p f [a] = f a :=
  List.append_nil _

theorem separated_cons_cons {α : Type} (p : Punct) (f : α → List Word) (a b : α) (as : List α) :
    separated p f (a :: b :: as) = f a ++ .punct p :: separated p f (b :: as) :=
  rfl

/-- With the lexer `m` behind it, a token stands for the first of the words `ws`, or for the first
    two of them if it is a double angle and they are closing brackets. The words `us` that remain
    are read from `m'`, which differs from `m` where the parser changes the mode. -/
inductive Token.Offers (t : Token) (m : Lexer) (us : List Word) : List Word → Lexer → Prop
  | word : t.Offers m us (t.word :: us) m
  | closings : t.kind = .punct .shiftRight → t.Offers m us (.closing :: .closing :: us) m
  | properties : t.kind = .punct .openBracket →
    t.Offers m us (.openProperties :: us) (m.push .properties)

/-- From `l` the words are read, and then the lexer is `l'`. -/
inductive Lexer.Gives : Lexer → List Word → Lexer → Prop
  | nil (l : Lexer) : Gives l [] l
  | cons {l m m' l' : Lexer} {t : Token} {ws us : List Word} :
    l.next = (.ok (some t), m) → t.Offers m us ws m' → Gives m' us l' → Gives l ws l'

variable {s : TokenStream} {l l' m m' : Lexer} {t : Token} {ws us : List Word} {w : Word}

theorem Token.Offers.exists_cons (h : t.Offers m us ws m') :
    ∃ w vs, ws = w :: vs ∧ t.kind ∈ w.kinds := by
  cases h with
  | word =>
    refine ⟨_, _, rfl, ?_⟩
    rw [Word.kinds]
    split
    next hclosing => rw [← t.kind_word, hclosing]; decide
    · rw [t.kind_word]; exact List.mem_singleton_self _
  | closings hkind => exact ⟨_, _, rfl, by rw [hkind]; decide⟩
  | properties hkind => exact ⟨_, _, rfl, by rw [hkind]; decide⟩

/-- Most words are tokens of their own. -/
theorem Token.Offers.eq_word (h : t.Offers m us (w :: ws) m') (hclosing : w ≠ .closing)
    (hproperties : w ≠ .openProperties) : t.word = w ∧ us = ws ∧ m' = m := by
  cases h with
  | word => exact ⟨rfl, rfl, rfl⟩
  | closings => exact absurd rfl hclosing
  | properties => exact absurd rfl hproperties

/-- Behind the bracket of a property list the mode is another one. -/
theorem Token.Offers.eq_push (h : t.Offers m us (.openProperties :: ws) m') :
    us = ws ∧ m' = m.push .properties := by
  have hword : t.word ≠ .openProperties := by
    obtain ⟨kind, text, line⟩ := t
    cases kind <;> rintro ⟨⟩
  generalize hvs : Word.openProperties :: ws = vs at h
  cases h with
  | word => exact absurd (List.cons.inj hvs).1.symm hword
  | closings => cases hvs
  | properties => exact ⟨(List.cons.inj hvs).2.symm, rfl⟩

/-- A closing bracket is a token of its own, or the first half of a double angle. -/
theorem Token.Offers.closing_cases (h : t.Offers m us (.closing :: ws) m') :
    m' = m ∧ (t.kind = .punct .greater ∧ us = ws ∨
      t.kind = .punct .shiftRight ∧ ws = .closing :: us) := by
  generalize hvs : Word.closing :: ws = vs at h
  cases h with
  | word =>
    obtain ⟨hword, rfl⟩ := List.cons.inj hvs
    exact ⟨rfl, .inl ⟨by rw [← t.kind_word, ← hword]; rfl, rfl⟩⟩
  | closings hkind => exact ⟨rfl, .inr ⟨hkind, (List.cons.inj hvs).2⟩⟩
  | properties => cases hvs

theorem Token.Offers.append (h : t.Offers m us ws m') (vs : List Word) :
    t.Offers m (us ++ vs) (ws ++ vs) m' := by
  cases h with
  | word => exact .word
  | closings hkind => exact .closings hkind
  | properties hkind => exact .properties hkind

theorem Lexer.work_push_le (l : Lexer) : (l.push .properties).work ≤ l.work := by
  unfold Lexer.work
  rw [if_neg (show (l.push .properties).mode ≠ .fragment from (by rintro ⟨⟩)), Lexer.rest_push]
  omega

theorem Token.Offers.bounds (h : t.Offers m us ws m') :
    ws.length ≤ us.length + TokenStream.weight (some t) ∧ m'.work ≤ m.work := by
  have hpos : 1 ≤ TokenStream.weight (some t) := by
    unfold TokenStream.weight
    dsimp only
    split <;> omega
  cases h with
  | word => exact ⟨by rw [List.length_cons]; omega, Nat.le_refl _⟩
  | closings hkind =>
    have htwo : TokenStream.weight (some t) = 2 := if_pos hkind
    exact ⟨by rw [List.length_cons, List.length_cons]; omega, Nat.le_refl _⟩
  | properties => exact ⟨by rw [List.length_cons]; omega, m.work_push_le⟩

theorem Lexer.Gives.trans {l'' : Lexer} (h : l.Gives ws l') (h' : l'.Gives us l'') :
    l.Gives (ws ++ us) l'' := by
  induction h with
  | nil => exact h'
  | cons hnext hoffers _ ih => exact .cons hnext (hoffers.append us) (ih h')

theorem Lexer.Gives.eq_of_nil (h : l.Gives [] l') : l = l' := by
  cases h with
  | nil => rfl
  | cons _ hoffers _ => cases hoffers

theorem Lexer.Gives.work_le (h : l.Gives ws l') : 3 * l'.work + ws.length ≤ 3 * l.work := by
  induction h with
  | nil => exact Nat.le_refl _
  | @cons l m m' l' t ws us hnext hoffers _ ih =>
    have hlt := Lexer.work_next_lt (l := l) (t := t) (by rw [hnext])
    have hbounds := hoffers.bounds
    have hweight := Parser.weight_le_two (some t)
    rw [hnext] at hlt
    dsimp only at hlt
    omega

/-- Where there is no token left, the text is over. -/
theorem Lexer.rest_of_next_none (h : l.next = (.ok none, m)) : m.rest = [] := by
  fun_induction Lexer.next l with
  | case1 l hrest =>
    cases h
    exact List.isEmpty_iff.1 hrest
  | case2 => cases h
  | case3 => cases h
  | case4 l _ s hs ht ih => exact ih h

/-! ## Streams at a place -/

/-- The stream supplies the words, and behind them its lexer is `l`. Perhaps the first token has
    been read ahead, or the one behind the last word. -/
inductive TokenStream.Supplies (s : TokenStream) (l : Lexer) : List Word → Prop
  | unread {ws : List Word} : s.ahead = none → s.lexer.Gives ws l → s.Supplies l ws
  | ahead {t : Token} {ws us : List Word} {m : Lexer} :
    s.ahead = some t → t.Offers s.lexer us ws m → m.Gives us l → s.Supplies l ws
  | beyond : l.next = (.ok s.ahead, s.lexer) → s.Supplies l []

/-- The words that come next up to a place in the text, with template brackets open. -/
structure Place where
  openAngles : Nat
  words : List Word
  lexer : Lexer

/-- The stream stands at the place. -/
structure TokenStream.At (s : TokenStream) (P : Place) : Prop where
  openAngles : s.openAngles = P.openAngles
  supplies : s.Supplies P.lexer P.words

/-- A bound for what is left to read at the place. -/
def Place.size (P : Place) : Nat :=
  if P.words = [] then 0 else 3 * P.lexer.work + P.words.length

/-- Fewer words up to the same place in the text. -/
theorem Place.size_lt {n k : Nat} (hws : ws ≠ []) (us : List Word) (l : Lexer) :
    Place.size ⟨n, us, l⟩ < Place.size ⟨k, ws ++ us, l⟩ := by
  have hpos := List.length_pos_iff.2 hws
  unfold Place.size
  rw [if_neg (List.append_ne_nil_of_left_ne_nil hws us), List.length_append]
  dsimp only
  split <;> omega

theorem Place.size_lt_append_cons {n k : Nat} (ws : List Word) (w : Word) (us : List Word)
    (l : Lexer) :
    Place.size ⟨n, us, l⟩ < Place.size ⟨k, ws ++ w :: us, l⟩ := by
  rw [List.append_cons]
  exact size_lt (List.append_ne_nil_of_right_ne_nil ws (List.cons_ne_nil w [])) us l

theorem Place.size_le_unread {P : Place} (h : s.At P) : P.size ≤ s.unread := by
  obtain ⟨n, ws, l⟩ := P
  unfold Place.size
  split
  · exact Nat.zero_le _
  next hne =>
    unfold TokenStream.unread
    cases h.supplies with
    | unread hahead hgives =>
      have := hgives.work_le
      dsimp only at this ⊢
      omega
    | ahead hahead hoffers hgives =>
      have hwork := hgives.work_le
      have hbounds := hoffers.bounds
      rw [hahead]
      dsimp only at hwork hbounds ⊢
      omega
    | beyond => exact absurd rfl hne

/-- The number of open brackets does not matter for what the stream supplies. -/
theorem TokenStream.At.setAngles {n : Nat} (h : s.At ⟨n, ws, l⟩) (k : Nat) :
    { s with openAngles := k }.At ⟨k, ws, l⟩ := by
  refine ⟨rfl, ?_⟩
  cases h.supplies with
  | unread hahead hgives => exact .unread hahead hgives
  | ahead hahead hoffers hgives => exact .ahead hahead hoffers hgives
  | beyond hnext => exact .beyond hnext

/-! ## Looking ahead -/

/-- The token that can be looked at: one that offers the words, or behind them the next one of the
    text. -/
def Place.Sees (P : Place) (t? : Option Token) : Prop :=
  match P.words with
  | [] => P.lexer.next.1 = .ok t?
  | w :: _ => ∃ t, t? = some t ∧ t.kind ∈ w.kinds ∧
    (w ≠ .closing → w ≠ .openProperties → t.word = w)

/-- The next token can be looked at, if there is one. Where words come next, it always can. -/
def Place.CanLook (P : Place) : Prop := P.words = [] → ∃ t?, P.lexer.next.1 = .ok t?

/-- The next token can be looked at, and it is none of those kinds. -/
structure Place.Avoids (K : TokenKind → Prop) (P : Place) : Prop where
  canLook : P.CanLook
  not_sees : ∀ t, P.Sees (some t) → ¬K t.kind

theorem Place.canLook_cons (n : Nat) (w : Word) (ws : List Word) (l : Lexer) :
    Place.CanLook ⟨n, w :: ws, l⟩ := by rintro ⟨⟩

theorem Place.avoids_cons {K : TokenKind → Prop} {n : Nat} (h : ∀ k ∈ w.kinds, ¬K k) :
    Place.Avoids K ⟨n, w :: ws, l⟩ := by
  refine ⟨canLook_cons n w ws l, fun t hsees => ?_⟩
  obtain ⟨u, hu, hkind, -⟩ := hsees
  obtain rfl := Option.some.inj hu
  exact h _ hkind

theorem Word.kinds_of_ne (hw : w ≠ .closing) : w.kinds = [w.kind] := if_neg hw

theorem Place.avoids_word {K : TokenKind → Prop} {n : Nat} (hw : w ≠ .closing) (h : ¬K w.kind) :
    Place.Avoids K ⟨n, w :: ws, l⟩ := by
  refine avoids_cons fun k hk => ?_
  rw [Word.kinds_of_ne hw, List.mem_singleton] at hk
  rwa [hk]

theorem Token.Offers.sees {n : Nat} (h : t.Offers m us ws m') : Place.Sees ⟨n, ws, l⟩ (some t) := by
  obtain ⟨w, vs, rfl, hkind⟩ := h.exists_cons
  exact ⟨t, rfl, hkind, fun hclosing hproperties => (h.eq_word hclosing hproperties).1⟩

namespace Parser

theorem run_peek?_of_at {P : Place} (h : s.At P) (hlook : P.CanLook) :
    ∃ t? s', run peek? s = (.ok t?, s') ∧ P.Sees t? ∧ s'.At P ∧ s'.ahead = t? := by
  obtain ⟨n, ws, l⟩ := P
  obtain ⟨hangles, hsupplies⟩ := h
  dsimp only at hangles hsupplies
  rw [run_peek?]
  cases hsupplies with
  | unread hahead hgives =>
    rw [hahead]
    dsimp only
    cases hgives with
    | nil =>
      obtain ⟨t?, ht?⟩ := hlook rfl
      dsimp only at ht?
      rcases hnext : s.lexer.next with ⟨e | u?, m⟩
      · rw [hnext] at ht?
        cases ht?
      · rw [hnext] at ht?
        obtain rfl : u? = t? := Except.ok.inj ht?
        refine ⟨u?, _, rfl, ?_, ⟨hangles, .beyond hnext⟩, rfl⟩
        show s.lexer.next.1 = _
        rw [hnext]
    | @cons _ m _ _ t _ us hnext hoffers hgives =>
      rw [hnext]
      exact ⟨some t, _, rfl, hoffers.sees, ⟨hangles, .ahead rfl hoffers hgives⟩, rfl⟩
  | @ahead t _ us _ hahead hoffers hgives =>
    rw [hahead]
    exact ⟨some t, s, rfl, hoffers.sees, ⟨hangles, .ahead hahead hoffers hgives⟩, hahead⟩
  | beyond hnext =>
    have hsees : Place.Sees ⟨n, [], l⟩ s.ahead := by
      show l.next.1 = _
      rw [hnext]
    cases hahead : s.ahead with
    | some t =>
      rw [hahead] at hsees
      exact ⟨some t, s, rfl, hsees, ⟨hangles, .beyond hnext⟩, hahead⟩
    | none =>
      -- The text is over, and stays so.
      have hrest : s.lexer.rest = [] := by
        rw [hahead] at hnext
        exact Lexer.rest_of_next_none hnext
      rw [hahead] at hsees
      rw [Lexer.next_of_rest_eq_nil hrest]
      have hagain : { s with lexer := s.lexer, ahead := none } = s := by rw [← hahead]
      exact ⟨none, s, Prod.ext rfl hagain, hsees, ⟨hangles, .beyond hnext⟩, hahead⟩

/-- What stands ahead when the next word is looked at. -/
theorem exists_offers_of_ahead {n : Nat} (h : s.At ⟨n, w :: ws, l⟩) (hahead : s.ahead = some t) :
    ∃ us m, t.Offers s.lexer us (w :: ws) m ∧ m.Gives us l := by
  cases h.supplies with
  | unread hnone => rw [hahead] at hnone; cases hnone
  | ahead hsome hoffers hgives =>
    obtain rfl := Option.some.inj (hahead.symm.trans hsome)
    exact ⟨_, _, hoffers, hgives⟩

/-- A token is taken with the words that it offers. Then the lexer stands right behind it. -/
theorem run_take_of_at {n : Nat} (h : s.At ⟨n, w :: ws, l⟩) :
    ∃ t s' us m, run take s = (.ok t, s') ∧ t.Offers s'.lexer us (w :: ws) m ∧ m.Gives us l ∧
      s'.ahead = none ∧ s'.openAngles = n := by
  obtain ⟨t?, s', hrun, ⟨t, rfl, -⟩, hat, hahead⟩ :=
    run_peek?_of_at h (Place.canLook_cons n w ws l)
  obtain ⟨us, m, hoffers, hgives⟩ := exists_offers_of_ahead hat hahead
  rw [run_take, hrun]
  exact ⟨t, _, us, m, rfl, hoffers, hgives, rfl, hat.openAngles⟩

end Parser

end IdlFrontend
