import IdlFrontend.Proofs.Lexer.FirstChar
import IdlFrontend.Proofs.Lexer.LineFeeds
import IdlFrontend.Proofs.Lexer.Run

/-!
# The modes of a run

The raw text of a native type or of a code fragment is read in one step, so the
lexer is hardly ever at the start of a line in one of these modes, and if it is,
the raw text is over or the lexer cannot go on.

Results:

* `lt_of_longestMatch_append`: a later rule is used only if its match is longer.
* `Coherent.step`: every step preserves what is known about modes.
-/

namespace IdlFrontend

namespace Rule

/-- A rule behind others is used only if it matches more characters than they do. -/
theorem lt_of_longestMatch_append {lineStart : Bool} {cs : Text} {rs₁ rs₂ : List Rule} {n k : Nat}
    {r s : Rule} (h : longestMatch lineStart cs (rs₁ ++ rs₂) = some (n, r)) (hr : r ∉ rs₁)
    (hs : s ∈ rs₁) (hk : s.length? lineStart cs = some k) : k < n := by
  induction rs₁ with
  | nil => cases hs
  | cons t rs₁ ih =>
    rw [List.mem_cons, not_or] at hr
    simp only [List.cons_append, longestMatch] at h
    split at h
    next ht =>
      rcases List.mem_cons.1 hs with rfl | hs
      · rw [ht] at hk
        cases hk
      · exact ih h hr.2 hs
    next =>
      cases h
      exact absurd rfl hr.1
    next m k' s' ht hbest =>
      split at h
      next hlt =>
        cases h
        rcases List.mem_cons.1 hs with rfl | hs
        · rw [ht] at hk
          cases hk
          exact hlt
        · exact ih hbest hr.2 hs
      · cases h
        exact absurd rfl hr.1

end Rule

namespace Pattern

theorem drop_of_lengthBefore? {a b : Char} {cs : Text} {n : Nat}
    (h : lengthBefore? a b cs = some n) : cs.drop n = a :: b :: cs.drop (n + 2) := by
  induction cs generalizing n with
  | nil => cases h
  | cons c cs ih =>
    simp only [lengthBefore?, Bool.and_eq_true, beq_iff_eq] at h
    split at h
    next hc =>
      cases h
      cases cs with
      | nil => simp at hc
      | cons d cs =>
        obtain ⟨rfl, hd⟩ := hc
        cases hd
        rfl
    · obtain ⟨k, hk, rfl⟩ := Option.map_eq_some_iff.1 h
      exact ih hk

theorem lengthBefore?_drop {a b : Char} {cs : Text} (h : lengthBefore? a b cs = none) (n : Nat) :
    lengthBefore? a b (cs.drop n) = none := by
  induction cs generalizing n with
  | nil => rw [List.drop_nil, h]
  | cons c cs ih =>
    cases n with
    | zero => exact h
    | succ n =>
      simp only [lengthBefore?] at h
      split at h
      · cases h
      · exact ih (Option.map_eq_none_iff.1 h) n

/-- No match of a pair begins among characters that are not its first one. -/
theorem le_of_lengthBefore? {p : Char → Bool} {a b : Char} (ha : p a = false) {cs : Text} {n : Nat}
    (h : lengthBefore? a b cs = some n) : runLength p cs ≤ n := by
  induction cs generalizing n with
  | nil => cases h
  | cons c cs ih =>
    rw [runLength_cons]
    by_cases hc : p c
    · have hne : c ≠ a := by
        rintro rfl
        rw [ha] at hc
        cases hc
      simp only [lengthBefore?, beq_eq_false_iff_ne.2 hne, Bool.false_and] at h
      obtain ⟨k, hk, rfl⟩ := Option.map_eq_some_iff.1 h
      rw [if_pos hc]
      exact Nat.add_le_add_right (ih hk) 1
    · rw [if_neg hc]
      exact Nat.zero_le _

theorem lineBreakLength_le_runLength (cs : Text) : lineBreakLength cs ≤ runLength isLineEnd cs := by
  unfold lineBreakLength
  split
  · exact le_runLength_cons rfl (le_runLength_cons rfl (Nat.zero_le _))
  · split
    next hc => exact le_runLength_cons hc (Nat.zero_le _)
    · exact Nat.zero_le _
  · exact Nat.zero_le _

theorem not_of_mem_head?_drop {p : Char → Bool} {cs : Text} {c : Char}
    (h : c ∈ (cs.drop (runLength p cs)).head?) : p c = false := by
  induction cs with
  | nil => cases h
  | cons d cs ih =>
    rw [runLength_cons] at h
    by_cases hd : p d
    · rw [if_pos hd] at h
      exact ih h
    · rw [if_neg hd] at h
      cases h
      exact Bool.eq_false_iff.2 hd

theorem take_of_mark {lineStart : Bool} {c : Char} {cs rest : Text} {n : Nat}
    (h : (mark c cs).length? lineStart rest = some n) : rest.take n = c :: cs := by
  simp only [length?] at h
  split at h
  next hpre =>
    cases h
    exact (List.prefix_iff_eq_take.1 (List.isPrefixOf_iff_prefix.1 hpre)).symm
  · cases h

/-- A comment does not end in a line break. -/
theorem getLast?_take_comment {lineStart : Bool} {cs : Text} {p : Pattern} {n : Nat}
    (hp : p = lineComment ∨ p = blockComment) (h : p.length? lineStart cs = some n) :
    ∃ c, (cs.take n).getLast? = some c ∧ isLineEnd c = false := by
  have hpos : 0 < n := length?_pos h (by rcases hp with rfl | rfl <;> simp)
  have hle := length?_le h
  rcases hp with rfl | rfl
  · have hinline := forall_mem_take_of_le_runLength (length?_le_inline rfl (by simp) h)
    have hne : cs.take n ≠ [] := by
      intro hnil
      have := congrArg List.length hnil
      rw [List.length_take_of_le hle, List.length_nil] at this
      omega
    refine ⟨_, List.getLast?_eq_some_getLast hne, ?_⟩
    simpa [isInline] using hinline _ (List.getLast_mem hne)
  · simp only [length?, blockCommentLength?] at h
    split at h
    next rest =>
      obtain ⟨k, hk, rfl⟩ := Option.map_eq_some_iff.1 h
      refine ⟨'/', ?_, rfl⟩
      have htake : ('/' :: '*' :: rest).take (k + 4) = ('/' :: '*' :: rest.take k ++ ['*']) ++
          ['/'] := by
        rw [List.take_succ_cons, List.take_succ_cons, List.take_add, drop_of_lengthBefore? hk]
        simp
      rw [htake, List.getLast?_concat]
    · cases h

end Pattern

/-! ## Single steps -/

namespace Lexer

variable (l : Lexer)

@[simp] theorem atLineStart_change (c : ModeChange) : (l.change c).atLineStart = l.atLineStart := by
  have hpop : l.pop.atLineStart = l.atLineStart := by
    unfold pop
    split <;> rfl
  cases c with
  | stay | enter => rfl
  | leave | switch => exact hpop

theorem note_eq (text : Text) (m : Meaning) :
    ∃ line pragmas, l.note text m = { l with line, pragmas } := by
  unfold note
  split
  · split <;> exact ⟨_, _, rfl⟩
  · split <;> exact ⟨_, _, rfl⟩
  · exact ⟨_, _, rfl⟩

theorem atLineStart_read (n : Nat) (r : Rule) :
    (l.read n r).next.atLineStart =
      ((l.rest.take n).getLast?.map isLineEnd).getD l.atLineStart := by
  obtain ⟨line, pragmas, hnote⟩ := note_eq (l.skip n) (l.rest.take n) r.meaning
  show (change _ _).atLineStart = _
  rw [atLineStart_change, hnote]
  rfl

/-- The mode behind a step depends on the modes before it and the change alone. -/
theorem modes_read (n : Nat) (r : Rule) :
    let c := if r.meaning.kind? l.dialect (l.rest.take n) =
      some (.keyword .native) then .enter .native
      else r.change
    (l.read n r).next.mode = (l.change c).mode ∧ (l.read n r).next.below = (l.change c).below := by
  intro c
  obtain ⟨line, pragmas, hnote⟩ := note_eq (l.skip n) (l.rest.take n) r.meaning
  have hpop : ((l.skip n).note (l.rest.take n) r.meaning).pop.mode = l.pop.mode ∧
      ((l.skip n).note (l.rest.take n) r.meaning).pop.below = l.pop.below := by
    rw [hnote]
    obtain ⟨dialect, rest, start, line', mode, below, pragmas'⟩ := l
    cases below <;> exact ⟨rfl, rfl⟩
  show (change _ c).mode = _ ∧ (change _ c).below = _
  cases c with
  | stay | enter mode =>
    rw [hnote]
    exact ⟨rfl, rfl⟩
  | leave => exact hpop
  | switch mode =>
    refine ⟨rfl, ?_⟩
    show _ :: _ = _ :: _
    rw [hpop.1, hpop.2]

end Lexer

/-- Whether a meaning is that of keywords. -/
def Meaning.isKeyword : Meaning → Bool
  | .word | .token (.keyword _) => true
  | _ => false

theorem Meaning.kind?_ne_keyword {m : Meaning} (hm : m.isKeyword = false) (dialect : Dialect)
    (cs : Text) (k : Keyword) : m.kind? dialect cs ≠ some (.keyword k) := by
  cases m with
  | nothing | pragma | lineMarker => simp [kind?]
  | token kind =>
    cases kind with
    | keyword => cases hm
    | _ => simp [kind?]
  | word => cases hm
  | number =>
    simp only [kind?, decimalKind]
    split
    · simp
    · split <;> simp

/-! ## Coherence -/

namespace Lexer

/-- What is known about a lexer behind the text `read`. -/
structure Coherent (read : Text) (l : Lexer) : Prop where
  lineStart : l.atLineStart = (read.getLast?.map isLineEnd).getD true
  /-- Modes are nested at most one deep, and the lexer never enters a property list. -/
  modes : (l.mode = .ordinary ∧ l.below = []) ∨
    (l.mode ∈ [.native, .nativeType, .fragment, .fragmentEnd] ∧ l.below = [.ordinary])
  nativeType : l.mode = .nativeType → l.atLineStart → ∀ c ∈ l.rest.head?, c = ')' ∨ c = ';'
  fragment : l.mode = .fragment → l.atLineStart → Pattern.lengthBefore? '%' '}' l.rest = none
  fragmentEnd : l.mode = .fragmentEnd → ∃ cs, l.rest = '%' :: '}' :: cs

variable {read : Text} {l : Lexer}

/-- Nothing has been read at the start of a line in the ordinary mode. -/
theorem coherent_nil (hstart : l.atLineStart) (hmode : l.mode = .ordinary) (hbelow : l.below = []) :
    Coherent [] l where
  lineStart := hstart
  modes := Or.inl ⟨hmode, hbelow⟩
  nativeType h := by
    rw [hmode] at h
    cases h
  fragment h := by
    rw [hmode] at h
    cases h
  fragmentEnd h := by
    rw [hmode] at h
    cases h

theorem coherent_ofText (dialect : Dialect) (cs : Text) : Coherent [] (ofText dialect cs) :=
  coherent_nil rfl rfl rfl

theorem Coherent.lineStart_read (h : Coherent read l) (n : Nat) (r : Rule) :
    (l.read n r).next.atLineStart = ((read ++ l.rest.take n).getLast?.map isLineEnd).getD true := by
  rw [atLineStart_read, h.lineStart, List.getLast?_append]
  cases (l.rest.take n).getLast? <;> rfl

/-- A step to a mode of which nothing more is known. -/
theorem Coherent.of_modes (h : Coherent read l) {n : Nat} {r : Rule}
    (hmodes : ((l.read n r).next.mode = .ordinary ∧ (l.read n r).next.below = []) ∨
      ((l.read n r).next.mode = .native ∧ (l.read n r).next.below = [.ordinary])) :
    Coherent (read ++ l.rest.take n) (l.read n r).next := by
  have hmode : (l.read n r).next.mode = .ordinary ∨ (l.read n r).next.mode = .native := by
    rcases hmodes with h | h
    · exact Or.inl h.1
    · exact Or.inr h.1
  refine ⟨h.lineStart_read n r, ?_, ?_, ?_, ?_⟩
  · rcases hmodes with ⟨hm, hb⟩ | ⟨hm, hb⟩
    · exact Or.inl ⟨hm, hb⟩
    · exact Or.inr ⟨by rw [hm]; decide, hb⟩
  all_goals
    intro hm
    rw [hm] at hmode
    rcases hmode with h | h <;> cases h

/-- A step that does not end a line, to a mode that is about to read raw text. -/
theorem Coherent.of_not_lineStart (h : Coherent read l) {n : Nat} {r : Rule}
    (hmode : (l.read n r).next.mode = .nativeType ∨ (l.read n r).next.mode = .fragment)
    (hbelow : (l.read n r).next.below = [.ordinary])
    (hlast : ∃ c, (l.rest.take n).getLast? = some c ∧ isLineEnd c = false) :
    Coherent (read ++ l.rest.take n) (l.read n r).next := by
  obtain ⟨c, hc, hend⟩ := hlast
  have hstart : (l.read n r).next.atLineStart = false := by
    rw [atLineStart_read, hc]
    exact hend
  refine ⟨h.lineStart_read n r, Or.inr ⟨?_, hbelow⟩, ?_, ?_, ?_⟩
  · rcases hmode with hm | hm <;> rw [hm] <;> decide
  · intro _ hs
    rw [hstart] at hs
    cases hs
  · intro _ hs
    rw [hstart] at hs
    cases hs
  · intro hm
    rw [hm] at hmode
    rcases hmode with h | h <;> cases h

theorem Coherent.below_of_mode (h : Coherent read l) (hmode : l.mode ≠ .ordinary) :
    l.below = [.ordinary] := by
  rcases h.modes with h | h
  · exact absurd h.1 hmode
  · exact h.2

/-- The modes behind a step of a rule that is not for keywords. -/
theorem modes_read_of_not_isKeyword {n : Nat} {r : Rule} (hr : r.meaning.isKeyword = false) :
    (l.read n r).next.mode = (l.change r.change).mode ∧
      (l.read n r).next.below = (l.change r.change).below := by
  have hnext := modes_read l n r
  rwa [if_neg (Meaning.kind?_ne_keyword hr _ _ _)] at hnext

/-! ## The steps of each mode -/

theorem Coherent.step_ordinary (h : Coherent read l) (hmode : l.mode = .ordinary) {n : Nat}
    {r : Rule} (hr : r ∈ Rule.inMode .ordinary) (hlen : r.length? l.atLineStart l.rest = some n) :
    Coherent (read ++ l.rest.take n) (l.read n r).next := by
  have hbelow : l.below = [] := by
    rcases h.modes with h | h
    · exact h.2
    · rw [hmode] at h
      exact absurd h.1 (by decide)
  have hchange : ∀ r ∈ Rule.inMode .ordinary, r.change = .stay ∨
      r = ⟨.mark '%' ['{'], .nothing, .enter .fragment⟩ := by decide
  have hnext := modes_read l n r
  by_cases hnative : r.meaning.kind? l.dialect (l.rest.take n) = some (.keyword .native)
  · rw [if_pos hnative] at hnext
    refine h.of_modes (Or.inr ⟨hnext.1, ?_⟩)
    rw [hnext.2]
    show l.mode :: l.below = _
    rw [hmode, hbelow]
  · rw [if_neg hnative] at hnext
    rcases hchange r hr with hstay | rfl
    · rw [hstay] at hnext
      exact h.of_modes (Or.inl ⟨hnext.1.trans hmode, hnext.2.trans hbelow⟩)
    · refine h.of_not_lineStart (Or.inr hnext.1) ?_ ⟨'{', ?_, rfl⟩
      · rw [hnext.2]
        show l.mode :: l.below = _
        rw [hmode, hbelow]
      · rw [Pattern.take_of_mark hlen]
        rfl

theorem Coherent.step_native (h : Coherent read l) (hmode : l.mode = .native) {n : Nat}
    {r : Rule} (hr : r ∈ Rule.inMode .native) (hlen : r.length? l.atLineStart l.rest = some n) :
    Coherent (read ++ l.rest.take n) (l.read n r).next := by
  have hbelow := h.below_of_mode (by rw [hmode]; decide)
  have hrule : ∀ r ∈ Rule.inMode .native, r.meaning.isKeyword = false ∧
      (r.change = .stay ∨ r.change = .leave ∨
        (r.pattern = .mark '(' [] ∧ r.change = .switch .nativeType)) := by decide
  obtain ⟨hkeyword, hchange⟩ := hrule r hr
  have hnext := modes_read_of_not_isKeyword (l := l) (n := n) hkeyword
  have hpop : l.pop = { l with mode := .ordinary, below := [] } := by
    unfold pop
    rw [hbelow]
  rcases hchange with hc | hc | ⟨hpattern, hc⟩
  · rw [hc] at hnext
    exact h.of_modes (Or.inr ⟨hnext.1.trans hmode, hnext.2.trans hbelow⟩)
  · rw [hc] at hnext
    simp only [change, hpop] at hnext
    exact h.of_modes (Or.inl hnext)
  · rw [hc] at hnext
    simp only [change, push, hpop] at hnext
    refine h.of_not_lineStart (Or.inl hnext.1) hnext.2 ⟨'(', ?_, rfl⟩
    rw [Rule.length?, hpattern] at hlen
    rw [Pattern.take_of_mark hlen]
    rfl

theorem Rule.of_mem_general {r : Rule} (hr : r ∈ Rule.general) :
    r.meaning.isKeyword = false ∧ r.change = .stay ∧
      r.pattern ∈ [.pragma, .lineMarker, .lineBreak, .lineComment, .blockComment] := by
  have hrules : ∀ r ∈ Rule.general, r.meaning.isKeyword = false ∧ r.change = .stay ∧
    r.pattern ∈ [.pragma, .lineMarker, .lineBreak, .lineComment, .blockComment] := by decide
  exact hrules r hr

/-- The rules of all modes keep the mode. Comments, which end no line, can always be
    read; for the others it has to be said what is known behind them. -/
theorem Coherent.step_general (h : Coherent read l)
    (hmode : l.mode = .nativeType ∨ l.mode = .fragment) {n : Nat} {r : Rule} (hr : r ∈ Rule.general)
    (hlen : r.length? l.atLineStart l.rest = some n)
    (hline : r.pattern ∈ [.pragma, .lineMarker, .lineBreak] →
      (l.mode = .nativeType → ∀ c ∈ (l.rest.drop n).head?, c = ')' ∨ c = ';') ∧
      (l.mode = .fragment → Pattern.lengthBefore? '%' '}' (l.rest.drop n) = none)) :
    Coherent (read ++ l.rest.take n) (l.read n r).next := by
  have hbelow := h.below_of_mode (by rcases hmode with hm | hm <;> rw [hm] <;> decide)
  obtain ⟨hkeyword, hc, hpattern⟩ := Rule.of_mem_general hr
  have hnext := modes_read_of_not_isKeyword (l := l) (n := n) hkeyword
  rw [hc] at hnext
  have hm : (l.read n r).next.mode = l.mode := hnext.1
  have hb : (l.read n r).next.below = l.below := hnext.2
  by_cases hcomment : r.pattern = .lineComment ∨ r.pattern = .blockComment
  · exact h.of_not_lineStart (by rwa [hm]) (hb.trans hbelow)
      (Pattern.getLast?_take_comment hcomment hlen)
  · have hlines : r.pattern ∈ [.pragma, .lineMarker, .lineBreak] := by
      simp only [List.mem_cons, List.not_mem_nil, or_false] at hpattern ⊢
      rcases hpattern with hp | hp | hp | hp | hp
      · exact Or.inl hp
      · exact Or.inr (Or.inl hp)
      · exact Or.inr (Or.inr hp)
      · exact absurd (Or.inl hp) hcomment
      · exact absurd (Or.inr hp) hcomment
    obtain ⟨hnative, hfragment⟩ := hline hlines
    refine ⟨h.lineStart_read n r, Or.inr ⟨?_, hb.trans hbelow⟩, ?_, ?_, ?_⟩
    · rw [hm]
      rcases hmode with hm' | hm' <;> rw [hm'] <;> decide
    · intro hn _
      rw [rest_read]
      exact hnative (hm ▸ hn)
    · intro hn _
      rw [rest_read]
      exact hfragment (hm ▸ hn)
    · intro hn
      rw [hm] at hn
      rw [hn] at hmode
      rcases hmode with hm' | hm' <;> cases hm'

theorem Coherent.step_nativeType (h : Coherent read l) (hmode : l.mode = .nativeType) {n : Nat}
    {r : Rule}
    (hmatch : Rule.longestMatch l.atLineStart l.rest (Rule.inMode .nativeType) = some (n, r)) :
    Coherent (read ++ l.rest.take n) (l.read n r).next := by
  obtain ⟨hr, hlen⟩ := Rule.longestMatch_mem hmatch
  have hbelow := h.below_of_mode (by rw [hmode]; decide)
  by_cases hown : r ∈ Rule.ofMode .nativeType
  · have hrule : ∀ r ∈ Rule.ofMode .nativeType, r.meaning.isKeyword = false ∧
        (r.change = .leave ∨ (r.pattern = .nativeType ∧ r.change = .stay)) := by decide
    obtain ⟨hkeyword, hchange⟩ := hrule r hown
    have hnext := modes_read_of_not_isKeyword (l := l) (n := n) hkeyword
    rcases hchange with hc | ⟨hpattern, hc⟩
    · rw [hc] at hnext
      simp only [change, pop, hbelow] at hnext
      exact h.of_modes (Or.inl hnext)
    · rw [hc] at hnext
      have hn := hnext.1.trans hmode
      refine ⟨h.lineStart_read n r, Or.inr ⟨by rw [hn]; decide, hnext.2.trans hbelow⟩, ?_, ?_, ?_⟩
      · intro _ _ c hc
        rw [Rule.length?, hpattern] at hlen
        obtain ⟨hrun, -⟩ := Pattern.nonzero_eq_some.1 hlen
        rw [rest_read, ← hrun] at hc
        have := Pattern.not_of_mem_head?_drop hc
        simpa [Decidable.or_iff_not_imp_left] using this
      · intro hm
        rw [hn] at hm
        cases hm
      · intro hm
        rw [hn] at hm
        cases hm
  · have hgeneral : r ∈ Rule.general := (List.mem_append.1 hr).resolve_left hown
    refine h.step_general (Or.inl hmode) hgeneral hlen fun hpattern => ?_
    exfalso
    simp only [List.mem_cons, List.not_mem_nil, or_false] at hpattern
    rw [← or_assoc] at hpattern
    rcases hpattern with hp | hp
    · -- A pragma or a marker would begin where the raw text is over.
      obtain ⟨hstart, hsign⟩ := Pattern.lineStart_of_length? hp hlen
      obtain ⟨c, hc, hblank⟩ := Pattern.exists_head_of_sign hsign
      rcases h.nativeType hmode hstart c hc with rfl | rfl
      · exact absurd hblank (by decide)
      · exact absurd hblank (by decide)
    · -- The raw text begins with the line break and is at least as long.
      rw [Rule.length?, hp] at hlen
      obtain ⟨hbreak, hpos⟩ := Pattern.nonzero_eq_some.1 hlen
      have hrun := Pattern.runLength_mono (p := isLineEnd) (q := fun c => c != ')' && c != ';')
        (by
          intro c hc
          simp only [isLineEnd, Bool.or_eq_true, beq_iff_eq] at hc
          rcases hc with rfl | rfl <;> rfl) l.rest
      have hle := Pattern.lineBreakLength_le_runLength l.rest
      have hlt := Rule.lt_of_longestMatch_append (s := ⟨.nativeType, .token .nativeType, .stay⟩)
        hmatch hown (by decide) (Pattern.nonzero_eq_some.2 ⟨rfl, by omega⟩)
      omega

theorem Coherent.step_fragment (h : Coherent read l) (hmode : l.mode = .fragment) {n : Nat}
    {r : Rule}
    (hmatch : Rule.longestMatch l.atLineStart l.rest (Rule.inMode .fragment) = some (n, r)) :
    Coherent (read ++ l.rest.take n) (l.read n r).next := by
  obtain ⟨hr, hlen⟩ := Rule.longestMatch_mem hmatch
  have hbelow := h.below_of_mode (by rw [hmode]; decide)
  by_cases hown : r ∈ Rule.ofMode .fragment
  · obtain rfl : r = ⟨.fragmentBody, .token .fragment, .switch .fragmentEnd⟩ := by
      simpa [Rule.ofMode] using hown
    have hnext := modes_read_of_not_isKeyword (l := l) (n := n)
      (r := ⟨.fragmentBody, .token .fragment, .switch .fragmentEnd⟩) rfl
    simp only [change, push, pop, hbelow] at hnext
    refine ⟨h.lineStart_read n _, Or.inr ⟨by rw [hnext.1]; decide, hnext.2⟩, ?_, ?_, ?_⟩
    · intro hm
      rw [hnext.1] at hm
      cases hm
    · intro hm
      rw [hnext.1] at hm
      cases hm
    · intro _
      rw [rest_read]
      exact ⟨_, Pattern.drop_of_lengthBefore? hlen⟩
  · have hgeneral : r ∈ Rule.general := (List.mem_append.1 hr).resolve_left hown
    refine h.step_general (Or.inr hmode) hgeneral hlen fun hpattern => ⟨?_, fun _ => ?_⟩
    · intro hm
      rw [hmode] at hm
      cases hm
    refine Pattern.lengthBefore?_drop ?_ n
    simp only [List.mem_cons, List.not_mem_nil, or_false] at hpattern
    rw [← or_assoc] at hpattern
    rcases hpattern with hp | hp
    · exact h.fragment hmode (Pattern.lineStart_of_length? hp hlen).1
    · -- A fragment whose end is ahead is at least as long as the line break it begins with.
      cases hbody : Pattern.lengthBefore? '%' '}' l.rest with
      | none => rfl
      | some k =>
        rw [Rule.length?, hp] at hlen
        obtain ⟨hbreak, hpos⟩ := Pattern.nonzero_eq_some.1 hlen
        have hle := Pattern.lineBreakLength_le_runLength l.rest
        have hbound := Pattern.le_of_lengthBefore? (p := isLineEnd) rfl hbody
        have hlt := Rule.lt_of_longestMatch_append
          (s := ⟨.fragmentBody, .token .fragment, .switch .fragmentEnd⟩) hmatch hown
          (by decide) hbody
        omega

theorem Coherent.step_fragmentEnd (h : Coherent read l) (hmode : l.mode = .fragmentEnd) {n : Nat}
    {r : Rule} (hr : r ∈ Rule.inMode .fragmentEnd)
    (hlen : r.length? l.atLineStart l.rest = some n) :
    Coherent (read ++ l.rest.take n) (l.read n r).next := by
  have hbelow := h.below_of_mode (by rw [hmode]; decide)
  obtain ⟨cs, hcs⟩ := h.fragmentEnd hmode
  rw [hcs] at hlen
  rcases List.mem_append.1 hr with hown | hgeneral
  · obtain rfl : r = ⟨.mark '%' ['}'], .nothing, .leave⟩ := by simpa [Rule.ofMode] using hown
    have hnext := modes_read_of_not_isKeyword (l := l) (n := n)
      (r := ⟨.mark '%' ['}'], .nothing, .leave⟩) rfl
    simp only [change, pop, hbelow] at hnext
    exact h.of_modes (Or.inl hnext)
  · exfalso
    have hpattern := (Rule.of_mem_general hgeneral).2.2
    simp only [List.mem_cons, List.not_mem_nil, or_false] at hpattern
    rw [← or_assoc] at hpattern
    rcases hpattern with hp | hp | hp | hp
    · obtain ⟨c, hc, hblank⟩ := Pattern.exists_head_of_sign (Pattern.lineStart_of_length? hp hlen).2
      cases hc
      exact absurd hblank (by decide)
    all_goals
      rw [Rule.length?, hp] at hlen
      simp [Pattern.length?, Pattern.lineBreakLength, Pattern.nonzero, isLineEnd,
        Pattern.lineCommentLength?, Pattern.blockCommentLength?] at hlen

/-- Every step preserves what is known about modes. -/
theorem Coherent.step (h : Coherent read l) {s : Step} (hs : l.step? = some s) :
    Coherent (read ++ s.text) s.next := by
  obtain ⟨n, r, hmatch, rfl⟩ := step?_eq_some_iff.1 hs
  obtain ⟨hr, hlen⟩ := Rule.longestMatch_mem hmatch
  show Coherent (read ++ l.rest.take n) (l.read n r).next
  cases hmode : l.mode with
  | ordinary => exact h.step_ordinary hmode (hmode ▸ hr) hlen
  | properties =>
    have := h.modes
    rw [hmode] at this
    exact absurd this (by simp)
  | native => exact h.step_native hmode (hmode ▸ hr) hlen
  | nativeType => exact h.step_nativeType hmode (hmode ▸ hmatch)
  | fragment => exact h.step_fragment hmode (hmode ▸ hmatch)
  | fragmentEnd => exact h.step_fragmentEnd hmode (hmode ▸ hr) hlen

end Lexer

end IdlFrontend
