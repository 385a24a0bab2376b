import IdlFrontend.Proofs.Lexer.Maximal
import IdlFrontend.Proofs.Lexer.Regular
import IdlFrontend.Proofs.Reading.Consumes

/-!
# Tokens that are written and read again

Outside of native declarations and code fragments a token does not depend on the tokens around
it. So the tokens of a text can be written with single spaces between them, and the lexer reads
the same ones.

Results:

* `Lexer.isToken_of_tokenize`: all tokens of a run are read alone.
* `Lexer.tokenize_join`: tokens that are read alone are read with spaces between them.
* `Token.ofText_join`: the tokens of a text are those of the text that is made of them.
-/

namespace IdlFrontend

/-- The token without its line. -/
def Token.unplaced (t : Token) : Unplaced := ⟨t.kind, t.text⟩

namespace Lexer

/-! ## The tokens of a run -/

/-- A fragment that is not closed has no token, and none follows it. -/
theorem tokenize_of_fragment (l : Lexer) (hmode : l.mode = .fragment) :
    l.tokenize.1 = [] ∨ ∃ t ∈ l.tokenize.1, t.kind = .fragment := by
  have hrules : ∀ r ∈ Rule.inMode .fragment, r.meaning = .token .fragment ∨
      r.meaning ∈ [.nothing, .pragma, .lineMarker] ∧ r.change = .stay := by decide
  fun_induction steps l with
  | case1 l hrest => exact .inl (by rw [tokenize_of_rest_eq_nil (by simpa using hrest)])
  | case2 l hrest h => exact .inl (by rw [tokenize_of_no_step (by simpa using hrest) h])
  | case3 l hrest s h ih =>
    rw [tokenize_of_step (by simpa using hrest) h]
    obtain ⟨n, r, hmatch, rfl⟩ := step?_eq_some_iff.1 h
    have hr := (Rule.longestMatch_mem hmatch).1
    rw [hmode] at hr
    rcases hrules r hr with hm | ⟨hm, hstay⟩
    · refine .inr ⟨⟨.fragment, l.rest.take n, l.line⟩, List.mem_append_left _ ?_, rfl⟩
      simp [read, hm, Meaning.kind?]
    · have hkind : r.meaning.kind? l.dialect (l.rest.take n) = none := by
        simp only [List.mem_cons, List.not_mem_nil, or_false] at hm
        rcases hm with hm | hm | hm <;> rw [hm] <;> rfl
      have htoken : (l.read n r).token? = none := by
        show Option.map _ _ = none
        rw [hkind]
        rfl
      have hnext := (modes_read l n r).1
      rw [hkind, if_neg (by simp), hstay] at hnext
      rw [htoken]
      exact ih (hnext.trans hmode)

/-- Without native declarations and fragments, all tokens of a run are read alone. -/
theorem isToken_of_tokenize (l : Lexer) (hmode : l.mode = .ordinary)
    (hnative : ∀ t ∈ l.tokenize.1, t.kind ≠ .keyword .native)
    (hfragment : ['%', '{'] <:+: l.rest → ∀ t ∈ l.tokenize.1, t.kind ≠ .fragment) :
    ∀ t ∈ l.tokenize.1, IsToken l.dialect .ordinary t.kind t.text := by
  have hrules : ∀ r ∈ Rule.inMode .ordinary, r.change = .stay ∨
      r = ⟨.mark '%' ['{'], .nothing, .enter .fragment⟩ := by decide
  fun_induction steps l with
  | case1 l hrest =>
    rw [tokenize_of_rest_eq_nil (by simpa using hrest)]
    exact List.forall_mem_nil _
  | case2 l hrest h =>
    rw [tokenize_of_no_step (by simpa using hrest) h]
    exact List.forall_mem_nil _
  | case3 l hrest s h ih =>
    have hsplit := congrArg Prod.fst (tokenize_of_step (by simpa using hrest) h)
    obtain ⟨n, r, hmatch, hs⟩ := step?_eq_some_iff.1 h
    obtain ⟨hr, hlen⟩ := Rule.longestMatch_mem hmatch
    rw [hmode] at hr
    rw [hsplit] at hnative hfragment ⊢
    rw [List.forall_mem_append] at hnative
    intro t ht
    rcases List.mem_append.1 ht with ht | ht
    · have htoken := isToken_of_step? (by rw [hmode]; decide) h (Option.mem_toList.1 ht)
      rwa [hmode] at htoken
    rcases hrules r hr with hstay | rfl
    · -- The step leaves the mode as it is, for it reads no keyword that would change it.
      have hkind : r.meaning.kind? l.dialect (l.rest.take n) ≠ some (.keyword .native) := by
        intro hkind
        refine hnative.1 ⟨.keyword .native, l.rest.take n, l.line⟩ ?_ rfl
        simp [hs, read, hkind]
      have hnext : s.next.mode = .ordinary := by
        have hmodes := (modes_read l n r).1
        rw [if_neg hkind, hstay] at hmodes
        rw [hs, hmodes]
        exact hmode
      have hrest' : s.next.rest <:+: l.rest := by
        rw [hs, rest_read]
        exact (List.drop_suffix n l.rest).isInfix
      have htokens := ih hnext hnative.2 fun hin u hu =>
        hfragment (hin.trans hrest') u (List.mem_append_right _ hu)
      rw [dialect_of_step? h] at htokens
      exact htokens t ht
    · have hopen : ['%', '{'] <:+: l.rest := by
        have hprefix : ['%', '{'] <+: l.rest := by
          rw [Rule.length?, Pattern.length?] at hlen
          split at hlen
          next hpre => exact List.isPrefixOf_iff_prefix.1 hpre
          · cases hlen
        exact hprefix.isInfix
      have hnext : s.next.mode = .fragment := by
        rw [hs]
        rfl
      rcases tokenize_of_fragment s.next hnext with hnil | ⟨u, hu, hkind⟩
      · rw [hnil] at ht
        cases ht
      · exact absurd hkind (hfragment hopen u (List.mem_append_right _ hu))

/-! ## Tokens with spaces between them -/

variable {d : Dialect} {below : List Mode} {l : Lexer}

/-- Whether the lexer fails is decided behind the token. -/
theorem failure_of_next {l m : Lexer} {t? : Option Token} (h : l.next = (.ok t?, m)) :
    l.tokenize.2.1 = m.tokenize.2.1 := by
  cases t? with
  | some t =>
    rw [tokenize]
    split <;> rename_i heq <;> rw [h] at heq <;> cases heq
    rfl
  | none =>
    rw [tokenize_of_rest_eq_nil (rest_of_next_none h), tokenize]
    split <;> rename_i heq <;> rw [h] at heq <;> cases heq

/-- Tokens that are read alone are read with spaces between them. -/
theorem tokenize_join {ts : List Token} (hts : ∀ t ∈ ts, IsToken d .ordinary t.kind t.text)
    (hnative : ∀ t ∈ ts, t.kind ≠ .keyword .native) {gap : Text} (hgap : ∀ c ∈ gap, isBlank c)
    (h : l.Faces d (.ordinary :: below) (gap ++ Text.join [' '] (ts.map Token.text))) :
    l.tokenize.2.1 = none ∧ l.tokenize.1.map Token.unplaced = ts.map Token.unplaced := by
  induction ts generalizing l gap with
  | nil =>
    obtain ⟨m, hm, hnext⟩ := h.skipBlanks (by decide) hgap (by rintro _ ⟨⟩)
    rw [next_of_rest_eq_nil hm.rest] at hnext
    rw [failure_of_next hnext, tokenize_of_next hnext, tokenize_of_rest_eq_nil hm.rest]
    exact ⟨rfl, rfl⟩
  | cons t ts ih =>
    rw [List.forall_mem_cons] at hts hnative
    obtain ⟨gap', hgap', hne, hjoin⟩ : ∃ gap' : Text, (∀ c ∈ gap', isBlank c) ∧
        (gap' = [] → ts = []) ∧
        Text.join [' '] ((t :: ts).map Token.text) =
          t.text ++ (gap' ++ Text.join [' '] (ts.map Token.text)) := by
      cases ts with
      | nil => exact ⟨[], List.forall_mem_nil _, fun _ => rfl, by simp [Text.join]⟩
      | cons u ts =>
        refine ⟨[' '], List.forall_mem_singleton.2 rfl, by rintro ⟨⟩, ?_⟩
        rw [List.map_cons, Text.join, List.intercalate_cons_of_ne_nil (by simp), List.append_assoc]
        rfl
    rw [hjoin] at h
    obtain ⟨c, v, htext, hc⟩ := hts.1.exists_cons (by decide)
    obtain ⟨m, hm, hskip⟩ := h.skipBlanks (by decide) hgap (by
      rw [htext]
      rintro c ⟨⟩
      exact hc)
    obtain ⟨l', hl', hnext⟩ := hm.token (by decide) hts.1 hnative.1 (by rintro ⟨⟩)
      (head?_gap hgap' fun hnil => by rw [hne hnil]; rfl)
    obtain ⟨hok, htokens⟩ := ih hts.2 hnative.2 hgap' hl'
    rw [← hskip] at hnext
    rw [failure_of_next hnext, tokenize_of_next hnext]
    exact ⟨hok, congrArg (_ :: ·) htokens⟩

end Lexer

/-- Of a text without native declarations and without code fragments, the tokens are read again if
    they are written with single spaces between them. -/
theorem Token.ofText_join {d : Dialect} {cs : Text} {ts : List Token}
    (h : Token.ofText d cs = .ok ts) (hnative : ∀ t ∈ ts, t.kind ≠ .keyword .native)
    (hfragment : ['%', '{'] <:+: cs → ∀ t ∈ ts, t.kind ≠ .fragment) :
    ∃ us, Token.ofText d (Text.join [' '] (ts.map Token.text)) = .ok us ∧
      us.map Token.unplaced = ts.map Token.unplaced := by
  obtain ⟨rfl, -⟩ := Lexer.tokenize_of_ofText_ok h
  have htokens := Lexer.isToken_of_tokenize (Lexer.ofText d cs) rfl hnative hfragment
  have hstart (x : Text) : (Lexer.ofText d x).Faces d [.ordinary] ([] ++ x) := ⟨rfl, rfl, rfl⟩
  obtain ⟨hok, hsame⟩ := Lexer.tokenize_join htokens hnative (List.forall_mem_nil _) (hstart _)
  exact ⟨_, Lexer.ofText_of_tokenize_ok hok, hsame⟩

/-- A number whose exponent is half-written, a slash that opens no comment, and the mark of a
    fragment inside a literal. -/
theorem Token.ofText_join_half_exponent :
    let cs : Text := "012.5e-y/ /\"%\x7b\"".toList
    let ts : List Token := [⟨.integer, ['0', '1', '2'], 1⟩, ⟨.floating, ['.', '5'], 1⟩,
      ⟨.identifier, ['e'], 1⟩, ⟨.punct .minus, ['-'], 1⟩, ⟨.identifier, ['y'], 1⟩,
      ⟨.punct .slash, ['/'], 1⟩, ⟨.punct .slash, ['/'], 1⟩, ⟨.string, ['"', '%', '{', '"'], 1⟩]
    Token.ofText .omg cs = .ok ts ∧
      ∃ us, Token.ofText .omg (Text.join [' '] (ts.map Token.text)) = .ok us ∧
        us.map Token.unplaced = ts.map Token.unplaced := by
  intro cs ts
  have hsteps : ((Lexer.ofText .omg cs).stepsWithin 16).map (·.filterMap Step.token?) =
      some ts := by
    decide +kernel
  obtain ⟨ss, hss, hts⟩ := Option.map_eq_some_iff.1 hsteps
  have htokens : Token.ofText .omg cs = .ok ts := hts ▸ Lexer.ofText_of_stepsWithin hss
  exact ⟨htokens, Token.ofText_join htokens (by decide) fun _ => by decide⟩

end IdlFrontend
