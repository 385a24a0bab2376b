import IdlFrontend.Proofs.Lexer.Numeral
import IdlFrontend.Proofs.Reading.Written

/-!
# Tokens that are read alone

A token is the longest match at the place where it stands, with the text behind it in sight. The
lexer reads the same characters as the same token when nothing stands behind them: no rule needs
more than it matches, and a rule that came before would have matched in the text as well.

Results:

* `Pattern.Stable`: what a pattern matches, it matches alone and in front of any text.
* `Rule.longestMatch_take`: the longest match alone is found by the same rule.
* `Lexer.isToken_of_step?`: every token outside of native declarations and fragments is read alone.
-/

namespace IdlFrontend

namespace Pattern

/-- The characters that the pattern matches are a match without the text behind them, and in
    front of another text there is a match that is at least as long. -/
structure Stable (p : Pattern) : Prop where
  take : ∀ {lineStart : Bool} {cs : Text} {n : Nat}, p.length? lineStart cs = some n →
    ∀ lineStart', p.length? lineStart' (cs.take n) = some n
  append : ∀ {lineStart : Bool} {cs : Text}, p.length? lineStart cs = some cs.length →
    ∀ lineStart' x, ∃ n, cs.length ≤ n ∧ p.length? lineStart' (cs ++ x) = some n

theorem runLength_take (p : Char → Bool) (cs : Text) :
    runLength p (cs.take (runLength p cs)) = runLength p cs := by
  have hall : ∀ c ∈ cs.take (runLength p cs), p c := forall_mem_take_of_le_runLength (Nat.le_refl _)
  have hrun := (munches_runLength hall).eq [] fun c hc => by cases hc
  rw [List.append_nil] at hrun
  rw [hrun, List.length_take, Nat.min_eq_left (runLength_le p cs)]

theorem le_runLength_append {p : Char → Bool} {cs : Text} (h : runLength p cs = cs.length)
    (x : Text) :
    cs.length ≤ runLength p (cs ++ x) := by
  have hall : ∀ c ∈ cs, p c := by
    have htake := forall_mem_take_of_le_runLength (Nat.le_of_eq h.symm)
    rwa [List.take_length] at htake
  exact (munches_runLength hall).le x

theorem stable_blanks : Stable .blanks := by
  constructor
  · intro lineStart cs n h lineStart'
    obtain ⟨rfl, hpos⟩ := nonzero_eq_some.1 h
    exact nonzero_eq_some.2 ⟨runLength_take isBlank cs, hpos⟩
  · intro lineStart cs h lineStart' x
    obtain ⟨hrun, hpos⟩ := nonzero_eq_some.1 h
    have hle := le_runLength_append hrun x
    exact ⟨_, hle, nonzero_eq_some.2 ⟨rfl, Nat.lt_of_lt_of_le hpos hle⟩⟩

theorem stable_mark (c : Char) (m : Text) : Stable (.mark c m) := by
  have hiff {lineStart : Bool} {cs : Text} {n : Nat} :
      (mark c m).length? lineStart cs = some n ↔ c :: m <+: cs ∧ n = m.length + 1 := by
    simp only [length?]
    split
    next h => simp [List.isPrefixOf_iff_prefix.1 h, eq_comm]
    next h =>
      rw [List.isPrefixOf_iff_prefix] at h
      simp [h]
  constructor
  · intro lineStart cs n h lineStart'
    obtain ⟨⟨x, rfl⟩, rfl⟩ := hiff.1 h
    exact hiff.2 ⟨⟨[], by simp⟩, rfl⟩
  · intro lineStart cs h lineStart' x
    obtain ⟨hpre, hlen⟩ := hiff.1 h
    exact ⟨_, Nat.le_refl _, hiff.2 ⟨hpre.trans (List.prefix_append cs x), hlen⟩⟩

theorem stable_word : Stable .word := by
  constructor
  · intro lineStart cs n h lineStart'
    cases cs with
    | nil => cases h
    | cons c cs =>
      simp only [length?, wordLength?] at h
      split at h
      next hc =>
        cases h
        rw [List.take_succ_cons, length?, wordLength?, if_pos hc, runLength_take]
      · cases h
  · intro lineStart cs h lineStart' x
    cases cs with
    | nil => cases h
    | cons c cs =>
      simp only [length?, wordLength?] at h
      split at h
      next hc =>
        have hrun : runLength isWordPart cs = cs.length := Nat.succ.inj (Option.some.inj h)
        refine ⟨runLength isWordPart (cs ++ x) + 1,
          Nat.succ_le_succ (le_runLength_append hrun x), ?_⟩
        rw [List.cons_append, length?, wordLength?, if_pos hc]
      · cases h

theorem stable_number {p : Pattern} (hp : p ∈ [octal, hexadecimal, decimal]) : Stable p := by
  constructor
  · intro lineStart cs n h lineStart'
    obtain ⟨v, hv, rfl, htext⟩ := Numeral.exists_of_length? hp h
    have hlen : v.text.length = n := by
      have hle := length?_le h
      rw [htext, List.length_take]
      omega
    obtain ⟨k, hk, hle⟩ := Numeral.exists_length? hv (List.prefix_refl v.text) lineStart'
    have hkn := length?_le hk
    rw [← htext, hk]
    exact congrArg some (by omega)
  · intro lineStart cs h lineStart' x
    obtain ⟨v, hv, rfl, htext⟩ := Numeral.exists_of_length? hp h
    rw [List.take_length] at htext
    rw [← htext]
    obtain ⟨k, hk, hle⟩ := Numeral.exists_length? hv (List.prefix_append v.text x) lineStart'
    exact ⟨k, hle, hk⟩

theorem stable_quoted (quote : Char) : Stable (.quoted quote) := by
  have hiff {lineStart : Bool} {cs : Text} {n : Nat} : (quoted quote).length? lineStart cs =
      some n ↔
      ∃ w k, cs = quote :: w ∧ quotedLength? quote w = some k ∧ n = k + 1 := by
    constructor
    · intro h
      cases cs with
      | nil => cases h
      | cons c w =>
        simp only [length?] at h
        split at h
        next hc =>
          obtain rfl := beq_iff_eq.1 hc
          obtain ⟨k, hk, rfl⟩ := Option.map_eq_some_iff.1 h
          exact ⟨w, k, rfl, hk, rfl⟩
        · cases h
    · rintro ⟨w, k, rfl, hk, rfl⟩
      simp [length?, hk]
  constructor
  · intro lineStart cs n h lineStart'
    obtain ⟨w, k, rfl, hk, rfl⟩ := hiff.1 h
    exact hiff.2 ⟨w.take k, k, rfl, quotedLength?_take hk, rfl⟩
  · intro lineStart cs h lineStart' x
    obtain ⟨w, k, rfl, hk, hlen⟩ := hiff.1 h
    exact ⟨_, Nat.le_refl _, hiff.2 ⟨w ++ x, k, rfl, quotedLength?_append hk x, hlen⟩⟩

/-- The arguments of a property go up to the first closing parenthesis. -/
theorem propertyArgsLength?_eq_some_iff {cs : Text} {n : Nat} : propertyArgsLength? cs = some n ↔
    ∃ body x, cs = '(' :: (body ++ ')' :: x) ∧ ')' ∉ body ∧ n = body.length + 2 := by
  constructor
  · intro h
    unfold propertyArgsLength? at h
    split at h
    next rest =>
      dsimp only at h
      split at h
      next hlt =>
        cases h
        have hbody := @forall_mem_take_of_le_runLength (· != ')') rest _ (Nat.le_refl _)
        obtain ⟨c, x, hdrop⟩ := List.exists_cons_of_length_pos
            (l := rest.drop (runLength (· != ')') rest)) (by
          rw [List.length_drop]
          omega)
        obtain rfl : c = ')' := by
          have hmem : c ∈ (rest.drop (runLength (· != ')') rest)).head? := by
            rw [hdrop]
            rfl
          have hstop := not_of_mem_head?_drop (p := (· != ')')) hmem
          simpa using hstop
        refine ⟨rest.take (runLength (· != ')') rest), x, ?_, fun hmem => ?_, ?_⟩
        · rw [← hdrop, List.take_append_drop]
        · cases hbody ')' hmem
        · rw [List.length_take, Nat.min_eq_left (Nat.le_of_lt hlt)]
      · cases h
    · cases h
  · rintro ⟨body, x, rfl, hbody, rfl⟩
    have hrun : runLength (· != ')') (body ++ ')' :: x) = body.length := by
      refine (munches_runLength fun c hc => ?_).eq _ fun c hc => ?_
      · rw [bne_iff_ne]
        rintro rfl
        exact hbody hc
      · cases hc
        rfl
    rw [propertyArgsLength?, hrun, if_pos (by simp)]

theorem stable_propertyArgs : Stable .propertyArgs := by
  constructor
  · intro lineStart cs n h lineStart'
    obtain ⟨body, x, rfl, hbody, rfl⟩ := propertyArgsLength?_eq_some_iff.1 h
    have htake : ('(' :: (body ++ ')' :: x)).take (body.length + 2) = '(' :: (body ++ [')']) := by
      rw [List.take_succ_cons, List.take_length_add_append]
      rfl
    exact propertyArgsLength?_eq_some_iff.2 ⟨body, [], htake, hbody, rfl⟩
  · intro lineStart cs h lineStart' x
    obtain ⟨body, y, rfl, hbody, hlen⟩ := propertyArgsLength?_eq_some_iff.1 h
    have happend : '(' :: (body ++ ')' :: y) ++ x = '(' :: (body ++ ')' :: (y ++ x)) := by
      rw [List.cons_append, List.append_assoc, List.cons_append]
    exact ⟨_, Nat.le_refl _, propertyArgsLength?_eq_some_iff.2 ⟨body, y ++ x, happend, hbody, hlen⟩⟩

/-- The rules of a mode that are not for raw text have stable patterns. -/
theorem stable_of_ofMode {mode : Mode} (hmode : mode ∈ Lexer.writing) {r : Rule}
    (hr : r ∈ Rule.ofMode mode) :
    r.pattern.Stable := by
  have hall : ∀ mode ∈ Lexer.writing, ∀ r ∈ Rule.ofMode mode,
      r.pattern ∉ [nativeType, fragmentBody, pragma, lineMarker, lineBreak, lineComment,
        blockComment] := by
    decide
  have hp := hall mode hmode r hr
  generalize r.pattern = p at hp
  cases p with
  | mark c m => exact stable_mark c m
  | blanks => exact stable_blanks
  | word => exact stable_word
  | octal | hexadecimal | decimal => exact stable_number (by decide)
  | quoted quote => exact stable_quoted quote
  | propertyArgs => exact stable_propertyArgs
  | nativeType | fragmentBody | pragma | lineMarker | lineBreak | lineComment | blockComment =>
    exact absurd hp (by decide)

end Pattern

namespace Rule

/-- The first rule whose match is as long as any other one. -/
theorem longestMatch_of_first {lineStart : Bool} {cs : Text} {before after : List Rule}
    {r : Rule} {n : Nat} (hr : r.length? lineStart cs = some n)
    (hbefore : ∀ q ∈ before, ∀ k, q.length? lineStart cs = some k → k < n)
    (hafter : ∀ q ∈ after, ∀ k, q.length? lineStart cs = some k → k ≤ n) :
    longestMatch lineStart cs (before ++ r :: after) = some (n, r) := by
  induction before with
  | nil =>
    rw [List.nil_append, longestMatch, hr]
    cases hmatch : longestMatch lineStart cs after with
    | none => rfl
    | some best =>
      obtain ⟨k, q⟩ := best
      obtain ⟨hq, hk⟩ := longestMatch_mem hmatch
      have hle := hafter q hq k hk
      show (if n < k then some (k, q) else some (n, r)) = some (n, r)
      rw [if_neg (by omega)]
  | cons q before ih =>
    rw [List.forall_mem_cons] at hbefore
    rw [List.cons_append, longestMatch, ih hbefore.2]
    cases hq : q.length? lineStart cs with
    | none => rfl
    | some k =>
      have hlt := hbefore.1 k hq
      show (if k < n then some (n, r) else some (k, q)) = some (n, r)
      rw [if_pos hlt]

/-- A longest match that is found by a rule of the mode is the longest one alone, by the same
    rule. A rule that comes before and matches it as a whole matches as much in the text. -/
theorem longestMatch_take {mode : Mode} (hmode : mode ∈ Lexer.writing) {lineStart : Bool}
    {cs : Text} {n : Nat} {r : Rule} (hr : r ∈ ofMode mode)
    (h : longestMatch lineStart cs (inMode mode) = some (n, r))
    (lineStart' : Bool) : longestMatch lineStart' (cs.take n) (inMode mode) = some (n, r) := by
  have hlen := (longestMatch_mem h).2
  have htake : (cs.take n).length = n := by
    have hle := Pattern.length?_le hlen
    rw [List.length_take]
    omega
  obtain ⟨before, after, hrules, hfirst⟩ := List.eq_append_cons_of_mem hr
  have hin : inMode mode = before ++ r :: (after ++ general) := by
    rw [inMode, hrules, List.append_assoc, List.cons_append]
  rw [hin] at h ⊢
  refine longestMatch_of_first ((Pattern.stable_of_ofMode hmode hr).take hlen lineStart')
    (fun q hq k hk => ?_) fun q _ k hk => htake ▸ Pattern.length?_le hk
  refine Nat.lt_of_le_of_ne (htake ▸ Pattern.length?_le hk) fun heq => ?_
  have hqmode : q ∈ ofMode mode := hrules ▸ List.mem_append_left _ hq
  have hwhole : q.length? lineStart' (cs.take n) = some (cs.take n).length := by rw [hk, heq, htake]
  obtain ⟨m, hle, hm⟩ := (Pattern.stable_of_ofMode hmode hqmode).append hwhole lineStart (cs.drop n)
  rw [List.take_append_drop] at hm
  have hlt := lt_of_longestMatch_append h hfirst hq hm
  omega

end Rule

namespace Lexer

/-- Only the rules of a mode read tokens. -/
theorem mem_ofMode_of_kind? {mode : Mode} {r : Rule} (hr : r ∈ Rule.inMode mode) {d : Dialect}
    {cs : Text} {kind : TokenKind} (hkind : r.meaning.kind? d cs = some kind) :
    r ∈ Rule.ofMode mode := by
  have hgeneral : ∀ r ∈ Rule.general, r.meaning ∈ [.nothing, .pragma, .lineMarker] := by decide
  rcases List.mem_append.1 hr with hr | hr
  · exact hr
  · exact absurd (hgeneral r hr) (meaning_of_kind? hkind)

/-- A token that the lexer reads outside of native declarations and fragments is the token that
    is read from its text alone. -/
theorem isToken_of_step? {l : Lexer} (hmode : l.mode ∈ writing) {s : Step} (hs : l.step? = some s)
    {t : Token} (ht : s.token? = some t) : IsToken l.dialect l.mode t.kind t.text := by
  obtain ⟨n, r, hmatch, rfl⟩ := step?_eq_some_iff.1 hs
  obtain ⟨kind, hkind, rfl⟩ := Option.map_eq_some_iff.1 ht
  have hr := mem_ofMode_of_kind? (Rule.longestMatch_mem hmatch).1 hkind
  have halone := Rule.longestMatch_take hmode hr hmatch true
  have hstep : ({ ofText l.dialect (l.rest.take n) with mode := l.mode } : Lexer).step? =
      some (({ ofText l.dialect (l.rest.take n) with mode := l.mode } : Lexer).read n r) :=
    step?_eq_some_iff.2 ⟨n, r, halone, rfl⟩
  have htake : (l.rest.take n).take n = l.rest.take n := by rw [List.take_take, Nat.min_self]
  unfold IsToken
  rw [hstep]
  simp only [read, ofText, htake, hkind, Option.map_some]

end Lexer

end IdlFrontend
