import IdlFrontend.Proofs.Lexer.Extension
import IdlFrontend.Proofs.Lexer.Termination

/-!
# The stack of modes

The lexer enters a mode from the ordinary one only, and a parser that drives it does so too.
So at most one mode is open above the ordinary one. Behind a token of some kinds it is known
which mode that is: a bracket, a semicolon and the body of a code fragment are such tokens.

Results:

* `Lawful.flat`: the stack of a lexer that a parser drives.
* `lawful_of_call`: every stretch of a call leaves a lawful lexer.
* `modeBehind_of_call`: the mode behind a token of such a kind.
* `outer_of_call`: what a call finds outside of property lists and native types.
* `openFragment_of_call`, `OpenFragment.mode_eq`: at the end of a text, the mode of fragments means
  an open one.
-/

namespace IdlFrontend

namespace Lexer

/-- The open modes, the outermost one first. -/
def stack (l : Lexer) : List Mode := (l.mode :: l.below).reverse

/-- Nothing is open but the ordinary mode, or one other mode above it. -/
def Flat (l : Lexer) : Prop := l.stack = [.ordinary] ∨ ∃ mode, mode ≠ .ordinary ∧
    l.stack = [.ordinary, mode]

variable {l m : Lexer} {s : Step} {ss : List Step} {t : Token} {mode : Mode}
  {r : Except LexicalError (Option Token) × Lexer}

theorem stack_eq_singleton_iff : l.stack = [.ordinary] ↔ l.mode = .ordinary ∧ l.below = [] := by
  rw [stack, List.reverse_eq_iff]
  simp

theorem stack_eq_pair_iff :
    l.stack = [.ordinary, mode] ↔ l.mode = mode ∧ l.below = [.ordinary] := by
  rw [stack, List.reverse_eq_iff]
  simp

/-! ## Lawful lexers -/

theorem Lawful.below_of_ne (h : l.Lawful) (hmode : l.mode ≠ .ordinary) : l.below = [.ordinary] := by
  rcases h with ⟨read, h⟩ | h
  · exact h.below_of_mode hmode
  · exact h.2

theorem Lawful.flat (h : l.Lawful) : l.Flat := by
  by_cases hmode : l.mode = .ordinary
  · exact .inl (stack_eq_singleton_iff.2 ⟨hmode, h.below_eq_nil hmode⟩)
  · exact .inr ⟨l.mode, hmode, stack_eq_pair_iff.2 ⟨rfl, h.below_of_ne hmode⟩⟩

theorem Lawful.fragmentEnd (h : l.Lawful) (hmode : l.mode = .fragmentEnd) :
    ∃ cs, l.rest = '%' :: '}' :: cs := by
  rcases h with ⟨read, h⟩ | h
  · exact h.fragmentEnd hmode
  · rw [hmode] at h
    cases h.1

theorem Lawful.mode_pop (h : l.Lawful) : l.pop.mode = .ordinary := by
  by_cases hmode : l.mode = .ordinary
  · rw [pop, h.below_eq_nil hmode]
    exact hmode
  · rw [pop, h.below_of_ne hmode]

/-- The parser enters the mode of property lists from the ordinary one. -/
theorem Lawful.push_properties (h : l.Lawful) (hmode : l.mode = .ordinary) :
    (l.push .properties).Lawful := by
  refine .inr ⟨rfl, ?_⟩
  show l.mode :: l.below = _
  rw [hmode, h.below_eq_nil hmode]

theorem Lawful.takePragma (h : l.Lawful) (name : Text) : (l.takePragma name).2.Lawful := by
  unfold Lexer.takePragma
  split
  · exact h.imp_left fun ⟨read, hread⟩ =>
      ⟨read, hread.lineStart, hread.modes, hread.nativeType, hread.fragment, hread.fragmentEnd⟩
  · exact h

/-- A call leaves a lawful lexer, and so does each of its stretches. -/
theorem lawful_of_call (h : Call l ss r) (hl : l.Lawful) :
    (∀ s ∈ ss, s.next.Lawful) ∧ r.2.Lawful := by
  induction h with
  | atEnd | stuck => exact ⟨List.forall_mem_nil _, hl⟩
  | token _ hstep => exact ⟨List.forall_mem_singleton.2 (hl.step hstep), hl.step hstep⟩
  | skip _ hstep _ _ ih =>
    have hmore := ih (hl.step hstep)
    exact ⟨List.forall_mem_cons.2 ⟨hl.step hstep, hmore.1⟩, hmore.2⟩

theorem rest_suffix_of_call (h : Call l ss r) : r.2.rest <:+ l.rest := by
  have hstep {l : Lexer} {s : Step} (hs : l.step? = some s) : s.next.rest <:+ l.rest :=
    ⟨s.text, Step.text_append_rest hs⟩
  induction h with
  | atEnd | stuck => exact List.suffix_rfl
  | token _ hs => exact hstep hs
  | skip _ hs _ _ ih => exact ih.trans (hstep hs)

/-! ## The mode behind a token -/

/-- What mode the lexer is in behind a token, for the kinds where it is always the same. -/
def knownMode? : TokenKind → Option Mode
  | .punct .openBracket | .punct .closeBracket | .punct .semicolon => some .ordinary
  | .fragment => some .fragmentEnd
  | _ => none

/-- The punctuation behind which the lexer is in the ordinary mode. -/
def ordinaryMarks : List TokenKind := [.punct .openBracket, .punct .closeBracket, .punct .semicolon]

theorem cases_of_knownMode? {kind : TokenKind} (h : knownMode? kind = some mode) :
    kind ∈ ordinaryMarks ∧ mode = .ordinary ∨ kind = .fragment ∧ mode = .fragmentEnd := by
  unfold knownMode? at h
  split at h <;> cases h <;> decide

theorem meaning_of_knownMode? {meaning : Meaning} {dialect : Dialect} {cs : Text} {kind : TokenKind}
    (h : meaning.kind? dialect cs = some kind) (hkind : knownMode? kind = some mode) :
    meaning = .token kind := by
  cases meaning with
  | token => cases h; rfl
  | nothing | pragma | lineMarker => cases h
  | word =>
    simp only [Meaning.kind?, wordKind, Option.some.injEq] at h
    split at h <;> subst h <;> cases hkind
  | number =>
    simp only [Meaning.kind?, decimalKind, Option.some.injEq] at h
    split at h
    · subst h
      cases hkind
    · split at h <;> subst h <;> cases hkind

theorem modeBehind_of_step (hl : l.Lawful) (hs : l.step? = some s) (ht : s.token? = some t)
    (hmode : knownMode? t.kind = some mode) : s.next.mode = mode := by
  have hmarks : ∀ mode ∈ [Mode.ordinary, .properties, .native, .nativeType, .fragment,
      .fragmentEnd], ∀ r ∈ Rule.inMode mode, ∀ kind ∈ ordinaryMarks, r.meaning = .token kind →
        r.meaning.isKeyword = false ∧
          (mode = .ordinary ∧ r.change = .stay ∨ r.change = .leave) := by
    decide +kernel
  have hfragment : ∀ mode ∈ [Mode.ordinary, .properties, .native, .nativeType, .fragment,
      .fragmentEnd],
      ∀ r ∈ Rule.inMode mode, r.meaning = .token .fragment → r.change = .switch .fragmentEnd := by
    decide +kernel
  obtain ⟨n, r, hmatch, rfl⟩ := step?_eq_some_iff.1 hs
  obtain ⟨kind, hkind, rfl⟩ := Option.map_eq_some_iff.1 ht
  have hmem := (Rule.longestMatch_mem hmatch).1
  have hmeaning := meaning_of_knownMode? hkind hmode
  rcases cases_of_knownMode? hmode with ⟨hmark, rfl⟩ | ⟨rfl, rfl⟩
  · obtain ⟨hword, hchange⟩ := hmarks l.mode (Mode.mem_all _) r hmem kind hmark hmeaning
    rw [(modes_read_of_not_isKeyword hword).1]
    rcases hchange with ⟨hm, hc⟩ | hc <;> rw [hc]
    · exact hm
    · exact hl.mode_pop
  · have hword : r.meaning.isKeyword = false := by
      rw [hmeaning]
      rfl
    rw [(modes_read_of_not_isKeyword hword).1, hfragment l.mode (Mode.mem_all _) r hmem hmeaning]
    rfl

theorem modeBehind_of_call (h : Call l ss (.ok (some t), m)) (hl : l.Lawful)
    (hmode : knownMode? t.kind = some mode) : m.mode = mode := by
  generalize hr : (Except.ok (some t), m) = r at h
  induction h with
  | atEnd | stuck => cases hr
  | token _ hs ht =>
    cases hr
    exact modeBehind_of_step hl hs ht hmode
  | skip _ hs _ _ ih => exact ih (hl.step hs) hr

/-- An opening bracket is the last character that has been read. -/
theorem suffix_of_openBracket (h : Call l ss (.ok (some t), m))
    (ht : t.kind = .punct .openBracket) :
    '[' :: m.rest <:+ l.rest := by
  have hrules : ∀ mode ∈ [Mode.ordinary, .properties, .native, .nativeType, .fragment,
      .fragmentEnd],
      ∀ r ∈ Rule.inMode mode, r.meaning = .token (.punct .openBracket) →
        r.pattern = .mark '[' [] := by
    decide +kernel
  generalize hr : (Except.ok (some t), m) = r at h
  induction h with
  | atEnd | stuck => cases hr
  | @token l s u _ hs hu =>
    cases hr
    have hread := Step.text_append_rest hs
    obtain ⟨n, r, hmatch, rfl⟩ := step?_eq_some_iff.1 hs
    obtain ⟨kind, hkind, rfl⟩ := Option.map_eq_some_iff.1 hu
    obtain rfl : kind = .punct .openBracket := ht
    obtain ⟨hmem, hlength⟩ := Rule.longestMatch_mem hmatch
    have hpattern := hrules l.mode (Mode.mem_all _) r hmem (meaning_of_knownMode? hkind rfl)
    rw [Rule.length?, hpattern] at hlength
    have htext : (l.read n r).text = ['['] := Pattern.take_of_mark hlength
    rw [htext] at hread
    exact ⟨[], hread⟩
  | @skip l s ss r _ hs _ _ ih => exact (ih hr).trans ⟨s.text, Step.text_append_rest hs⟩

/-! ## Outside of property lists and native types -/

/-- The modes in which the lexer is neither in a property list nor in a native type. -/
def outerModes : List Mode := [.ordinary, .fragment, .fragmentEnd]

/-- The mode behind a token that is read in one of these modes. -/
def outerMode : TokenKind → Mode
  | .keyword .native => .native
  | .fragment => .fragmentEnd
  | _ => .ordinary

/-- The kind of token that a meaning names, if it names one. -/
def namedKind : Meaning → List TokenKind
  | .token kind => [kind]
  | _ => []

/-- The rules of these modes for stretches that are no tokens. -/
theorem change_of_silent : ∀ mode ∈ outerModes, ∀ r ∈ Rule.inMode mode,
    r.meaning ∈ [.nothing, .pragma, .lineMarker] →
      r.change ∈ [.stay, .enter .fragment, .leave] := by
  decide +kernel

/-- Words and numbers are read in the ordinary mode. -/
theorem change_of_word : ∀ mode ∈ outerModes, ∀ r ∈ Rule.inMode mode,
    r.meaning ∈ [.word, .number] → mode = .ordinary ∧ r.change = .stay := by
  decide +kernel

/-- So are other tokens, but for the body of a fragment. -/
theorem change_of_namedKind :
    ∀ mode ∈ outerModes, ∀ r ∈ Rule.inMode mode, ∀ kind ∈ namedKind r.meaning,
    r.meaning.isKeyword = false ∧
      (mode = .ordinary ∧ r.change = .stay ∧ outerMode kind = .ordinary ∨
        r.change = .switch .fragmentEnd ∧ outerMode kind = .fragmentEnd) := by
  decide +kernel

theorem outerMode_of_ne {kind : TokenKind} (hnative : kind ≠ .keyword .native)
    (hfragment : kind ≠ .fragment) :
    outerMode kind = .ordinary := by
  unfold outerMode
  split
  · exact absurd rfl hnative
  · exact absurd rfl hfragment
  · rfl

theorem outerMode_of_step (houter : l.mode ∈ outerModes) (hs : l.step? = some s)
    (ht : s.token? = some t) :
    s.next.mode = outerMode t.kind := by
  obtain ⟨n, r, hmatch, rfl⟩ := step?_eq_some_iff.1 hs
  obtain ⟨kind, hkind, rfl⟩ := Option.map_eq_some_iff.1 ht
  have hmem := (Rule.longestMatch_mem hmatch).1
  have hmodes := (modes_read (l := l) n r).1
  rw [hkind] at hmodes
  rw [hmodes]
  cases hmeaning : r.meaning with
  | nothing | pragma | lineMarker =>
    rw [hmeaning] at hkind
    cases hkind
  | token named =>
    have hnamed := change_of_namedKind l.mode houter r hmem
    rw [hmeaning] at hkind hnamed
    cases hkind
    obtain ⟨hword, hchange⟩ := hnamed kind (List.mem_singleton.2 rfl)
    have hne : kind ≠ .keyword .native := by
      rintro rfl
      cases hword
    rw [if_neg fun h => hne (Option.some.inj h)]
    rcases hchange with ⟨hm, hc, hout⟩ | ⟨hc, hout⟩ <;> rw [hc, hout]
    · exact hm
    · rfl
  | word =>
    obtain ⟨hm, hc⟩ := change_of_word l.mode houter r hmem (by rw [hmeaning]; decide)
    rw [hmeaning] at hkind
    by_cases hnative : kind = .keyword .native
    · rw [if_pos (congrArg some hnative), hnative]
      rfl
    · have hfragment : kind ≠ .fragment := by
        rintro rfl
        simp only [Meaning.kind?, wordKind, Option.some.injEq] at hkind
        split at hkind <;> cases hkind
      rw [if_neg fun h => hnative (Option.some.inj h), hc, outerMode_of_ne hnative hfragment]
      exact hm
  | number =>
    obtain ⟨hm, hc⟩ := change_of_word l.mode houter r hmem (by rw [hmeaning]; decide)
    rw [hmeaning] at hkind
    have hnumber : kind ∈ [.fixedPoint, .floating, .integer] := by
      cases hkind
      unfold decimalKind
      split
      · decide
      · split <;> decide
    have hne : kind ≠ .keyword .native ∧ kind ≠ .fragment := by
      constructor <;> rintro rfl <;> exact absurd hnumber (by decide)
    rw [if_neg fun h => hne.1 (Option.some.inj h), hc, outerMode_of_ne hne.1 hne.2]
    exact hm

/-- The rule of a stretch that is no token. -/
theorem exists_rule_of_silent_step (hs : l.step? = some s) (hnone : s.token? = none) :
    ∃ n, ∃ r ∈ Rule.inMode l.mode, r.length? l.atLineStart l.rest = some n ∧ s = l.read n r ∧
      r.meaning ∈ [.nothing, .pragma, .lineMarker] ∧ s.next.mode = (l.change r.change).mode := by
  obtain ⟨n, r, hmatch, rfl⟩ := step?_eq_some_iff.1 hs
  obtain ⟨hmem, hlength⟩ := Rule.longestMatch_mem hmatch
  have hkind : r.meaning.kind? l.dialect (l.rest.take n) = none := Option.map_eq_none_iff.1 hnone
  have hmode := (modes_read (l := l) n r).1
  rw [hkind, if_neg nofun] at hmode
  refine ⟨n, r, hmem, hlength, rfl, ?_, hmode⟩
  cases hmeaning : r.meaning with
  | nothing | pragma | lineMarker => decide
  | token | word | number =>
    rw [hmeaning] at hkind
    cases hkind

/-- A stretch that is no token stays in these modes. It enters a code fragment at its mark only. -/
theorem outer_of_silent_step (hl : l.Lawful) (houter : l.mode ∈ outerModes) (hs : l.step? = some s)
    (hnone : s.token? = none) :
    s.next.mode ∈ outerModes ∧
      (s.next.mode = .fragment → l.mode = .fragment ∨ '%' :: '\x7b' :: s.next.rest = l.rest) := by
  have hread := Step.text_append_rest hs
  obtain ⟨n, r, hmem, hlength, rfl, hmeaning, hmode⟩ := exists_rule_of_silent_step hs hnone
  rw [hmode]
  have hchange := change_of_silent l.mode houter r hmem hmeaning
  simp only [List.mem_cons, List.not_mem_nil, or_false] at hchange
  rcases hchange with hc | hc | hc <;> rw [hc]
  · exact ⟨houter, .inl⟩
  · have hpattern : ∀ mode ∈ outerModes, ∀ r ∈ Rule.inMode mode, r.change = .enter .fragment →
        r.pattern = .mark '%' ['\x7b'] := by decide +kernel
    rw [Rule.length?, hpattern l.mode houter r hmem hc] at hlength
    have htext : (l.read n r).text = ['%', '\x7b'] := Pattern.take_of_mark hlength
    rw [htext] at hread
    exact ⟨(by decide : Mode.fragment ∈ outerModes), fun _ => .inr hread⟩
  · rw [show (l.change .leave).mode = .ordinary from hl.mode_pop]
    exact ⟨by decide, fun h => by cases h⟩

/-- What a call finds: a token with its mode behind it, or the end of the text. -/
theorem outer_of_call {t? : Option Token} (h : Call l ss (.ok t?, m)) (hl : l.Lawful)
    (houter : l.mode ∈ outerModes) :
    (∀ t, t? = some t → m.mode = outerMode t.kind) ∧
      (t? = none → m.rest = [] ∧ (m.mode = .ordinary ∨ m.mode = .fragment)) := by
  generalize hr : (Except.ok t?, m) = r at h
  induction h with
  | atEnd hrest =>
    cases hr
    refine ⟨nofun, fun _ => ⟨hrest, ?_⟩⟩
    simp only [outerModes, List.mem_cons, List.not_mem_nil, or_false] at houter
    rcases houter with hm | hm | hm
    · exact .inl hm
    · exact .inr hm
    · obtain ⟨cs, hcs⟩ := hl.fragmentEnd hm
      rw [hrest] at hcs
      cases hcs
  | stuck => cases hr
  | token _ hs ht =>
    cases hr
    refine ⟨fun t h => ?_, nofun⟩
    cases h
    exact outerMode_of_step houter hs ht
  | skip _ hs ht _ ih => exact ih (hl.step hs) (outer_of_silent_step hl houter hs ht).1 hr

/-- A code fragment is open at the end of a text: behind its mark there is no token. -/
def OpenFragment (cs : Text) (l : Lexer) : Prop :=
  ∃ start ss, start.mode = .fragment ∧ '%' :: '\x7b' :: start.rest <:+ cs ∧
    Call start ss (.ok none, l)

/-- The body of a fragment is a token, so without one the fragment stays open. -/
theorem OpenFragment.mode_eq {cs : Text} (h : OpenFragment cs l) : l.mode = .fragment := by
  have hrules : ∀ r ∈ Rule.inMode .fragment, r.meaning ∈ [.nothing, .pragma, .lineMarker] →
      r.change = .stay := by
    decide +kernel
  obtain ⟨start, ss, hmode, -, hcall⟩ := h
  generalize hr : (Except.ok none, l) = r at hcall
  induction hcall with
  | atEnd =>
    cases hr
    exact hmode
  | stuck | token => cases hr
  | skip _ hs ht _ ih =>
    obtain ⟨n, r, hmem, -, -, hmeaning, hnext⟩ := exists_rule_of_silent_step hs ht
    rw [hmode] at hmem
    rw [hrules r hmem hmeaning] at hnext
    exact ih (hnext.trans hmode) hr

theorem OpenFragment.mono {cs ds : Text} (h : OpenFragment cs l) (hsuffix : cs <:+ ds) :
    OpenFragment ds l := by
  obtain ⟨start, ss, hmode, hstart, hcall⟩ := h
  exact ⟨start, ss, hmode, hstart.trans hsuffix, hcall⟩

theorem openFragment_of_call (h : Call l ss (.ok none, m)) (hl : l.Lawful)
    (houter : l.mode ∈ outerModes) (hstart : l.mode ≠ .fragment) (hend : m.mode = .fragment) :
    OpenFragment l.rest m := by
  generalize hr : (Except.ok none, m) = r at h
  induction h with
  | atEnd =>
    cases hr
    exact absurd hend hstart
  | stuck | token => cases hr
  | @skip l s ss r _ hs ht hmore ih =>
    obtain ⟨hnext, hmark⟩ := outer_of_silent_step hl houter hs ht
    by_cases hm : s.next.mode = .fragment
    · subst hr
      exact ⟨s.next, ss, hm, ⟨[], (hmark hm).resolve_left hstart⟩, hmore⟩
    · obtain ⟨start, ss', hfragment, hsuffix, hcall⟩ := ih (hl.step hs) hnext hm hr
      exact ⟨start, ss', hfragment, hsuffix.trans ⟨s.text, Step.text_append_rest hs⟩, hcall⟩

end Lexer

end IdlFrontend
