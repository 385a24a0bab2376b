import IdlFrontend.Proofs.Lexer.Extension
import IdlFrontend.Proofs.Lexer.LineCount

/-!
# Pragmas that are recorded

A pragma is recorded where the lexer reads a pragma line, and a later one with the same name takes
its place. What is recorded under a name is the last pragma with the name that was read since the
name was forgotten.

Results:

* `PragmaLine.exists_ofLine?_eq`: the pragma in a pragma line.
* `pragmas_of_step?`: what one stretch records.
* `exists_step?_pragmaLine`: the stretch that is read where a pragma line begins.
* `find?_next`: what the stretches up to the next token record.
-/

namespace IdlFrontend

/-! ## Pragma lines -/

/-- What a pragma line says behind the blanks that follow its word: a name up to the first blank,
    and a value behind the blanks. -/
def Pragma.ofBody? (body : Text) : Option Pragma :=
  match Text.splitAtFirst isBlank body with
  | some (name, value) => some ⟨name, some (value.dropWhile isBlank)⟩
  | none => if body.isEmpty then none else some ⟨body, none⟩

theorem trimEnd_append_lineEnds {tail ending : Text} (htail : ∀ c ∈ tail, Pattern.isInline c)
    (hending : ∀ c ∈ ending, isLineEnd c) : Text.trimEnd isLineEnd (tail ++ ending) = tail := by
  rw [Text.trimEnd, List.reverse_append,
    List.dropWhile_append_of_pos fun c hc => hending c (List.mem_reverse.1 hc)]
  cases htail' : tail.reverse with
  | nil => exact (List.reverse_eq_nil_iff.1 htail').symm
  | cons c cs =>
    have hc : Pattern.isInline c := htail c (List.mem_reverse.1 (htail' ▸ List.mem_cons_self))
    rw [List.dropWhile_cons_of_neg (by simpa [Pattern.isInline] using hc), ← htail',
      List.reverse_reverse]

/-- The line break of a pragma line and the blanks in it, but for those behind the name, do not
    count. -/
theorem Pragma.ofLine?_eq {before between tail ending : Text} (hbefore : ∀ c ∈ before, isBlank c)
    (hbetween : ∀ c ∈ between, isBlank c) (htail : ∀ c ∈ tail, Pattern.isInline c)
    (hending : ∀ c ∈ ending, isLineEnd c) :
    Pragma.ofLine? (before ++ '#' :: (between ++ ("pragma".toList ++ (tail ++ ending)))) =
      Pragma.ofBody? (tail.dropWhile isBlank) := by
  have hafter : Pattern.afterPragma?
      (before ++ '#' :: (between ++ ("pragma".toList ++ (tail ++ ending)))) =
      some (tail ++ ending) := by
    rw [Pattern.afterPragma?, Pattern.afterNumberSign?_append hbefore hbetween
      fun c hc => by cases hc; rfl]
    rfl
  rw [Pragma.ofLine?, hafter]
  show (match Text.splitAtFirst isBlank ((Text.trimEnd isLineEnd (tail ++ ending)).dropWhile
    isBlank) with
    | some (name, value) => _
    | none => _) = _
  rw [trimEnd_append_lineEnds htail hending]
  rfl

theorem isLineEnd_of_isLineBreak {cs : Text} (h : IsLineBreak cs) : ∀ c ∈ cs, isLineEnd c := by
  simp only [IsLineBreak, List.mem_cons, List.not_mem_nil, or_false] at h
  rcases h with rfl | rfl | rfl <;> exact List.all_eq_true.1 rfl

theorem PragmaLine.exists_ofLine?_eq {cs rest : Text} (h : PragmaLine cs rest) :
    ∃ tail, tail <:+: cs ∧ (∀ c ∈ tail, Pattern.isInline c) ∧
      Pragma.ofLine? cs = Pragma.ofBody? (tail.dropWhile isBlank) := by
  obtain ⟨before, between, tail, ending, rfl, hbefore, hbetween, htail, hending⟩ := h
  have hends : ∀ c ∈ ending, isLineEnd c := by
    rcases hending with hbreak | ⟨rfl, -⟩
    · exact isLineEnd_of_isLineBreak hbreak
    · exact List.forall_mem_nil _
  refine ⟨tail, ⟨before ++ '#' :: (between ++ "pragma".toList), ending, ?_⟩, htail,
    Pragma.ofLine?_eq hbefore hbetween htail hends⟩
  simp

namespace Pattern

theorem isInline_of_mem_pragmaLine {between tail : Text} (hbetween : ∀ c ∈ between, isBlank c)
    (htail : ∀ c ∈ tail, isInline c) :
    ∀ c ∈ '#' :: (between ++ ("pragma".toList ++ tail)), isInline c := by
  refine List.forall_mem_cons.2 ⟨rfl, List.forall_mem_append.2 ⟨?_, ?_⟩⟩
  · exact fun c hc => isInline_of_isBlank c (hbetween c hc)
  · exact List.forall_mem_append.2 ⟨List.all_eq_true.1 rfl, htail⟩

/-- The pattern of pragmas matches a pragma line up to its end. -/
theorem length?_pragma {between rest : Text} (hbetween : ∀ c ∈ between, isBlank c) :
    pragma.length? true ('#' :: (between ++ ("pragma".toList ++ rest))) =
      some (lineLength ('#' :: (between ++ ("pragma".toList ++ rest)))) := by
  have hsign : afterNumberSign? ('#' :: (between ++ ("pragma".toList ++ rest))) =
      some ("pragma".toList ++ rest) :=
    afterNumberSign?_append (List.forall_mem_nil _ : ∀ c ∈ ([] : Text), isBlank c) hbetween
      fun c hc => by cases hc; rfl
  rw [length?, if_pos rfl, afterPragma?, hsign]
  rfl

/-- Only a line feed is left of a line that has been read up to its end. -/
theorem take_lineLength_of_end {rest : Text} (hend : ∀ c ∈ rest.head?, c = '\n') :
    rest.take (lineLength rest) = rest.take 1 := by
  cases rest with
  | nil => rfl
  | cons c rest =>
    obtain rfl := hend c rfl
    simp [lineLength, runLength, lineBreakLength, isLineEnd]

/-- A pragma line is no marker. -/
theorem length?_lineMarker_of_pragma {lineStart : Bool} {between rest : Text}
    (hbetween : ∀ c ∈ between, isBlank c) :
    lineMarker.length? lineStart ('#' :: (between ++ ("pragma".toList ++ rest))) = none := by
  have hsign : afterNumberSign? ('#' :: (between ++ ("pragma".toList ++ rest))) =
      some ("pragma".toList ++ rest) :=
    afterNumberSign?_append (List.forall_mem_nil _ : ∀ c ∈ ([] : Text), isBlank c) hbetween
      fun c hc => by cases hc; rfl
  have hnumber : afterLineWord? ('#' :: (between ++ ("pragma".toList ++ rest))) =
      some ("pragma".toList ++ rest) := by
    rw [afterLineWord?, hsign]
    rfl
  rw [length?]
  split
  · rw [lineMarkerLength?, hnumber]
    rfl
  · rfl

end Pattern

/-- Only the rule for pragmas reads a pragma line where a line begins. -/
theorem Rule.longestMatch_pragmaLine {between rest : Text} (hbetween : ∀ c ∈ between, isBlank c) :
    longestMatch true ('#' :: (between ++ ("pragma".toList ++ rest))) (inMode .ordinary) =
      some (Pattern.lineLength ('#' :: (between ++ ("pragma".toList ++ rest))), ⟨.pragma, .pragma,
        .stay⟩) := by
  have hpragma : (⟨.pragma, .pragma, .stay⟩ : Rule).length? true
      ('#' :: (between ++ ("pragma".toList ++ rest))) =
      some (Pattern.lineLength ('#' :: (between ++ ("pragma".toList ++ rest)))) :=
    Pattern.length?_pragma hbetween
  cases hmatch : longestMatch true ('#' :: (between ++ ("pragma".toList ++ rest)))
    (inMode .ordinary) with
  | none =>
    have hmem : (⟨.pragma, .pragma, .stay⟩ : Rule) ∈ inMode .ordinary := by decide
    have hnone := longestMatch_eq_none_iff.1 hmatch _ hmem
    rw [hpragma] at hnone
    cases hnone
  | some best =>
    obtain ⟨n, r⟩ := best
    obtain ⟨hr, hlen⟩ := longestMatch_mem hmatch
    -- Two rules can begin with a number sign, and the line is no marker.
    have hrules : ∀ r ∈ inMode .ordinary, r.pattern.canBegin '#' →
        r = ⟨.pragma, .pragma, .stay⟩ ∨ r.pattern = .lineMarker := by decide
    rcases hrules r hr (Pattern.canBegin_of_length? hlen) with rfl | hmarker
    · rw [hpragma] at hlen
      rw [Option.some.inj hlen]
    · rw [length?, hmarker, Pattern.length?_lineMarker_of_pragma hbetween] at hlen
      cases hlen

/-! ## Stretches -/

/-- The pragma that the stretch records. -/
def Step.pragma? (s : Step) : Option Pragma :=
  if s.rule.meaning = .pragma then Pragma.ofLine? s.text else none

/-- The last pragma with the name that one of the stretches records. -/
def lastPragma? (name : Text) (ss : List Step) : Option Pragma :=
  ((ss.filterMap Step.pragma?).filter (·.name = name)).getLast?

theorem lastPragma?_append (name : Text) (ss ts : List Step) :
    lastPragma? name (ss ++ ts) = (lastPragma? name ts).or (lastPragma? name ss) := by
  rw [lastPragma?, List.filterMap_append, List.filter_append, List.getLast?_append]
  rfl

/-- Only the rule for pragma lines records pragmas. -/
theorem Rule.pattern_of_pragma {mode : Mode} {r : Rule} (hr : r ∈ Rule.inMode mode)
    (h : r.meaning = .pragma) : r.pattern = .pragma := by
  have hrules : ∀ mode ∈ [Mode.ordinary, .properties, .native, .nativeType, .fragment,
      .fragmentEnd], ∀ r ∈ Rule.inMode mode, r.meaning = .pragma → r.pattern = .pragma := by decide
  exact hrules mode (by cases mode <;> decide) r hr h

namespace Lexer

variable {l : Lexer} {s : Step}

theorem pragmas_of_step? (h : l.step? = some s) :
    s.next.pragmas = s.pragma?.elim l.pragmas l.pragmas.record := by
  obtain ⟨n, r, -, rfl⟩ := step?_eq_some_iff.1 h
  show (change _ _).pragmas = _
  rw [pragmas_change, Step.pragma?]
  show ((l.skip n).note (l.rest.take n) r.meaning).pragmas =
    (if r.meaning = .pragma then Pragma.ofLine? (l.rest.take n) else none).elim _ _
  cases r.meaning with
  | nothing | token | word | number => rfl
  | pragma =>
    rw [if_pos rfl]
    dsimp only [note]
    cases Pragma.ofLine? (l.rest.take n) <;> rfl
  | lineMarker =>
    dsimp only [note]
    cases markedLine? (l.rest.take n) <;> rfl

/-- Where a pragma line begins, the lexer in its ordinary mode reads the line up to its end. -/
theorem exists_step?_pragmaLine (hmode : l.mode = .ordinary) (hstart : l.atLineStart)
    {between tail rest : Text} (hbetween : ∀ c ∈ between, isBlank c)
    (htail : ∀ c ∈ tail, Pattern.isInline c) (hend : ∀ c ∈ rest.head?, c = '\n')
    (hrest : l.rest = '#' :: (between ++ ("pragma".toList ++ tail)) ++ rest) :
    ∃ s, l.step? = some s ∧ s.text = '#' :: (between ++ ("pragma".toList ++ tail)) ++ rest.take 1 ∧
      s.token? = none ∧ s.next.mode = .ordinary ∧
      s.pragma? = Pragma.ofBody? (tail.dropWhile isBlank) := by
  have hmatch : Rule.longestMatch l.atLineStart l.rest (Rule.inMode l.mode) =
      some (Pattern.lineLength l.rest, ⟨.pragma, .pragma, .stay⟩) := by
    have hshape :
        l.rest = '#' :: (between ++ ("pragma".toList ++ (tail ++ rest))) := by simp [hrest]
    rw [hmode, hstart, hshape]
    exact Rule.longestMatch_pragmaLine hbetween
  have htext : l.rest.take (Pattern.lineLength l.rest) =
      '#' :: (between ++ ("pragma".toList ++ tail)) ++ rest.take 1 := by
    rw [hrest, Pattern.take_lineLength_append (Pattern.isInline_of_mem_pragmaLine hbetween htail),
      Pattern.take_lineLength_of_end hend]
  refine ⟨_, step?_eq_some_iff.2 ⟨_, _, hmatch, rfl⟩, htext, rfl, ?_, ?_⟩
  · have hnext := (modes_read (l := l) (Pattern.lineLength l.rest) ⟨.pragma, .pragma, .stay⟩).1
    rw [if_neg (by rintro ⟨⟩)] at hnext
    exact hnext.trans hmode
  · show (if Meaning.pragma = .pragma then Pragma.ofLine? (l.rest.take _) else none) = _
    have hends : ∀ c ∈ rest.take 1, isLineEnd c := by
      intro c hc
      cases rest with
      | nil => cases hc
      | cons d rest =>
        obtain rfl := hend d rfl
        cases List.mem_singleton.1 hc
        rfl
    have hline := Pragma.ofLine?_eq (List.forall_mem_nil _ : ∀ c ∈ ([] : Text), isBlank c) hbetween
      htail hends
    rw [if_pos rfl, htext, ← hline]
    simp

/-- A stretch with a token records nothing. -/
theorem pragma?_of_token? (h : l.step? = some s) (ht : s.token?.isSome) : s.pragma? = none := by
  obtain ⟨n, r, -, rfl⟩ := step?_eq_some_iff.1 h
  refine if_neg fun hpragma => ?_
  change r.meaning = .pragma at hpragma
  change ((r.meaning.kind? l.dialect (l.rest.take n)).map _).isSome at ht
  rw [hpragma] at ht
  cases ht

theorem find?_of_step? (h : l.step? = some s) (name : Text) :
    s.next.pragmas.find? name = (lastPragma? name [s]).or (l.pragmas.find? name) := by
  rw [pragmas_of_step? h, lastPragma?]
  cases hp : s.pragma? with
  | none => simp [hp]
  | some p =>
    by_cases hname : p.name = name
    · subst hname
      simp [hp, Pragmas.find?_record_self]
    · simp [hp, hname, Pragmas.find?_record_of_ne _ (Ne.symm hname)]

/-- What is recorded under a name behind the next token. -/
theorem find?_next (l : Lexer) (name : Text) :
    l.next.2.pragmas.find? name = (lastPragma? name l.stretches).or (l.pragmas.find? name) := by
  fun_induction stretches l with
  | case1 l hrest =>
    rw [next_of_rest_eq_nil (by simpa using hrest)]
    rfl
  | case2 l hrest hnone =>
    rw [next_of_no_step (by simpa using hrest) hnone]
    rfl
  | case3 l hrest s hs htoken =>
    obtain ⟨t, ht⟩ := Option.isSome_iff_exists.1 htoken
    rw [next_of_step (by simpa using hrest) hs, ht]
    exact find?_of_step? hs name
  | case4 l hrest s hs htoken ih =>
    have hnone : s.token? = none := by simpa using htoken
    rw [next_of_step (by simpa using hrest) hs, hnone, ← List.singleton_append, lastPragma?_append]
    dsimp only
    rw [ih, find?_of_step? hs name, Option.or_assoc]

/-- A pragma that is taken is forgotten. -/
theorem find?_takePragma (l : Lexer) (name : Text) :
    (l.takePragma name).1 = l.pragmas.find? name ∧
      (l.takePragma name).2.pragmas.find? name = none := by
  unfold takePragma
  cases hp : l.pragmas.find? name with
  | none => exact ⟨rfl, hp⟩
  | some p => exact ⟨rfl, Pragmas.find?_erase_self _ _⟩

end Lexer

end IdlFrontend
