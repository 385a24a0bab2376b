import IdlFrontend.Proofs.Lexer.Continuation
import IdlFrontend.Proofs.Lexer.Modes
import IdlFrontend.Proofs.Lexer.Regular
import IdlFrontend.Proofs.Lexer.Run

/-!
# A lexer whose text goes on

Two lexers stand at the same place, but behind the text of the first one, the second
one has another text, which begins with a line feed. They take the same steps up to the
end of the first text. There, the first lexer can be in the middle of a native type or of
a code fragment, which the second one goes on to read; and the line feed can belong to
the last line.

Results:

* `Extends.step`: what the second lexer does when the first one takes a step.
* `Extends.next`: the same up to the next token.
-/

namespace IdlFrontend

open Pattern (runLength lengthBefore?)

/-- The same token, perhaps on another line. -/
def Token.Alike (t u : Token) : Prop := ∃ line, u = { t with line }

theorem Token.Alike.refl (t : Token) : t.Alike t := ⟨t.line, rfl⟩

namespace Lexer

variable {x : Text} {l l' : Lexer} {n n' : Nat} {r : Rule} {s : Step}

/-! ## The modes of a parser -/

/-- What can be known about the modes of a lexer while a parser reads: those of a run of
    its own, or a property list, which the parser has entered. -/
def Lawful (l : Lexer) : Prop :=
  (∃ read, Coherent read l) ∨ l.mode = .properties ∧ l.below = [.ordinary]

theorem lawful_of_ordinary (hmode : l.mode = .ordinary) (hbelow : l.below = []) : l.Lawful := by
  have hnot {mode : Mode} (hm : mode ≠ .ordinary) : l.mode ≠ mode := by
    rw [hmode]
    exact hm.symm
  refine .inl ⟨if l.atLineStart then [] else [' '], ?_, .inl ⟨hmode, hbelow⟩, fun h => ?_,
    fun h => ?_, fun h => ?_⟩
  · cases l.atLineStart <;> rfl
  · exact absurd h (hnot (by decide))
  · exact absurd h (hnot (by decide))
  · exact absurd h (hnot (by decide))

theorem Lawful.below_eq_nil (h : l.Lawful) (hmode : l.mode = .ordinary) : l.below = [] := by
  rcases h with ⟨read, h⟩ | h
  · rcases h.modes with h | h
    · exact h.2
    · rw [hmode] at h
      exact absurd h.1 (by decide)
  · rw [hmode] at h
    cases h.1

theorem Lawful.nativeType (h : l.Lawful) (hmode : l.mode = .nativeType) (hstart : l.atLineStart) :
    ∀ c ∈ l.rest.head?, c = ')' ∨ c = ';' := by
  rcases h with ⟨read, h⟩ | h
  · exact h.nativeType hmode hstart
  · rw [hmode] at h
    cases h.1

theorem Lawful.fragment (h : l.Lawful) (hmode : l.mode = .fragment) (hstart : l.atLineStart) :
    lengthBefore? '%' '}' l.rest = none := by
  rcases h with ⟨read, h⟩ | h
  · exact h.fragment hmode hstart
  · rw [hmode] at h
    cases h.1

theorem Lawful.step (h : l.Lawful) (hs : l.step? = some s) : s.next.Lawful := by
  rcases h with ⟨read, h⟩ | ⟨hmode, hbelow⟩
  · exact .inl ⟨_, h.step hs⟩
  · obtain ⟨n, r, hmatch, rfl⟩ := step?_eq_some_iff.1 hs
    rw [hmode] at hmatch
    have hrules : ∀ r ∈ Rule.inMode .properties,
        r.meaning.isKeyword = false ∧ (r.change = .stay ∨ r.change = .leave) := by decide
    obtain ⟨hkeyword, hchange⟩ := hrules r (Rule.longestMatch_mem hmatch).1
    have hnext := modes_read_of_not_isKeyword (l := l) (n := n) hkeyword
    rcases hchange with hc | hc
    · rw [hc] at hnext
      exact .inr ⟨hnext.1.trans hmode, hnext.2.trans hbelow⟩
    · rw [hc] at hnext
      simp only [change, pop, hbelow] at hnext
      exact lawful_of_ordinary hnext.1 hnext.2

/-! ## Agreement -/

/-- Two lexers agree in all that is left to them but the text, lines apart. Of the pragmas
    only those with the prefix of a module are ever looked for. -/
structure Agrees (l l' : Lexer) : Prop where
  dialect : l'.dialect = l.dialect
  mode : l'.mode = l.mode
  below : l'.below = l.below
  modulePrefix : l'.pragmas.find? "prefix".toList = l.pragmas.find? "prefix".toList

theorem change_congr (hmode : l'.mode = l.mode) (hbelow : l'.below = l.below) (c : ModeChange) :
    (l'.change c).mode = (l.change c).mode ∧ (l'.change c).below = (l.change c).below := by
  have hpop : l'.pop.mode = l.pop.mode ∧ l'.pop.below = l.pop.below := by
    unfold pop
    rw [hbelow]
    split
    next hnil => exact ⟨hmode, hbelow⟩
    next => exact ⟨rfl, rfl⟩
  cases c with
  | stay => exact ⟨hmode, hbelow⟩
  | enter mode => exact ⟨rfl, by rw [change, push, change, push, hmode, hbelow]⟩
  | leave => exact hpop
  | switch mode => exact ⟨rfl, by rw [change, push, change, push, hpop.1, hpop.2]⟩

@[simp] theorem pragmas_change (l : Lexer) (c : ModeChange) : (l.change c).pragmas = l.pragmas := by
  have hpop : l.pop.pragmas = l.pragmas := by
    unfold pop
    split <;> rfl
  cases c with
  | stay | enter => rfl
  | leave | switch => exact hpop

theorem find?_note {name text text' : Text} {m : Meaning}
    (h : l'.pragmas.find? name = l.pragmas.find? name)
    (hm : m = .pragma → Pragma.ofLine? text' = Pragma.ofLine? text) :
    (l'.note text' m).pragmas.find? name = (l.note text m).pragmas.find? name := by
  cases m with
  | pragma =>
    simp only [note, hm rfl]
    cases Pragma.ofLine? text with
    | none => exact h
    | some p =>
      show Pragmas.find? (.record _ p) name = Pragmas.find? (.record _ p) name
      by_cases hname : name = p.name
      · subst hname
        rw [Pragmas.find?_record_self, Pragmas.find?_record_self]
      · rw [Pragmas.find?_record_of_ne _ hname, Pragmas.find?_record_of_ne _ hname, h]
  | lineMarker =>
    simp only [note]
    split <;> split <;> exact h
  | nothing | token | word | number => exact h

/-- Lexers that agree still agree behind the same stretch, up to what it says. -/
theorem Agrees.read (h : l.Agrees l')
    (hkind : r.meaning.kind? l.dialect (l'.rest.take n') = r.meaning.kind? l.dialect
      (l.rest.take n))
    (hpragma : r.meaning = .pragma →
      Pragma.ofLine? (l'.rest.take n') = Pragma.ofLine? (l.rest.take n)) :
    (l.read n r).next.Agrees (l'.read n' r).next := by
  have hmodes := modes_read l n r
  have hmodes' := modes_read l' n' r
  rw [h.dialect, hkind] at hmodes'
  obtain ⟨hmode, hbelow⟩ := change_congr h.mode h.below
    (if r.meaning.kind? l.dialect (l.rest.take n) = some (.keyword .native) then .enter .native
    else r.change)
  refine ⟨?_, ?_, ?_, ?_⟩
  · rw [dialect_read, dialect_read, h.dialect]
  · exact hmodes'.1.trans (hmode.trans hmodes.1.symm)
  · exact hmodes'.2.trans (hbelow.trans hmodes.2.symm)
  · simp only [Lexer.read, pragmas_change]
    exact find?_note h.modulePrefix hpragma

/-- Where `l` reads some text, `l'` reads the same text and then `x`. A block comment that
    is not closed is excluded, for it could be closed in `x`. -/
structure Extends (x : Text) (l l' : Lexer) : Prop extends Agrees l l' where
  rest : l'.rest = l.rest ++ x
  atLineStart : l'.atLineStart = l.atLineStart
  lawful : l.Lawful
  onNewLine : OnNewLine x
  uncommented : x ≠ [] → ¬['/', '*'] <:+: l.rest

/-- The same stretch is read from both texts. -/
theorem Extends.read (h : l.Extends x l') (hs : l.step? = some (l.read n r))
    (hn : n ≤ l.rest.length) :
    (l.read n r).next.Extends x (l'.read n r).next ∧
      Option.Rel Token.Alike (l.read n r).token? (l'.read n r).token? := by
  have htake : l'.rest.take n = l.rest.take n := by
    rw [h.rest, List.take_append_of_le_length hn]
  refine ⟨⟨h.toAgrees.read (by rw [htake]) fun _ => by rw [htake], ?_, ?_, h.lawful.step hs,
    h.onNewLine, fun hx hinside => ?_⟩, ?_⟩
  · rw [rest_read, rest_read, h.rest, List.drop_append_of_le_length hn]
  · rw [atLineStart_read, atLineStart_read, htake, h.atLineStart]
  · rw [rest_read] at hinside
    exact h.uncommented hx (hinside.trans (List.drop_suffix _ _).isInfix)
  · simp only [Lexer.read, htake, h.dialect]
    cases r.meaning.kind? l.dialect (l.rest.take n) with
    | none => exact .none
    | some kind => exact .some ⟨l'.line, rfl⟩

theorem rest_takePragma (l : Lexer) (name : Text) : (l.takePragma name).2.rest = l.rest := by
  unfold Lexer.takePragma
  split <;> rfl

theorem mode_takePragma (l : Lexer) (name : Text) : (l.takePragma name).2.mode = l.mode := by
  unfold Lexer.takePragma
  split <;> rfl

/-- The prefix of the next module is taken from both. -/
theorem Extends.takePragma (h : l.Extends x l') :
    (l'.takePragma "prefix".toList).1 = (l.takePragma "prefix".toList).1 ∧
      (l.takePragma "prefix".toList).2.Extends x (l'.takePragma "prefix".toList).2 := by
  have hpragma := h.modulePrefix
  unfold Lexer.takePragma
  cases hfound : l.pragmas.find? "prefix".toList with
  | none =>
    rw [hfound] at hpragma
    rw [hpragma]
    exact ⟨rfl, h⟩
  | some p =>
    rw [hfound] at hpragma
    rw [hpragma]
    refine ⟨rfl, ⟨h.dialect, h.mode, h.below, ?_⟩, h.rest, h.atLineStart, ?_, h.onNewLine,
      h.uncommented⟩
    · exact (Pragmas.find?_erase_self _ _).trans (Pragmas.find?_erase_self _ _).symm
    · exact h.lawful.imp_left fun ⟨read, hread⟩ =>
        ⟨read, hread.lineStart, hread.modes, hread.nativeType, hread.fragment, hread.fragmentEnd⟩

/-! ## The rules at the end of the text -/

/-- Every mode. -/
theorem Mode.mem_all (mode : Mode) :
    mode ∈ [Mode.ordinary, .properties, .native, .nativeType, .fragment, .fragmentEnd] := by
  cases mode <;> decide

/-- The raw text of a native type. -/
def isRaw (c : Char) : Bool := c != ')' && c != ';'

/-- What a literal or an argument list begins with, and no other pattern of its modes. -/
def opening? : Pattern → Option Char
  | .quoted quote => some quote
  | .propertyArgs => some '('
  | _ => none

theorem Rule.pattern_eq_of_opening? {mode : Mode} {q r : Rule} (hq : q ∈ Rule.inMode mode)
    (hr : r ∈ Rule.inMode mode) {c : Char} (hc : opening? q.pattern = some c)
    (hbegin : r.pattern.canBegin c) : r.pattern = q.pattern := by
  have hrules : ∀ mode ∈ [Mode.ordinary, .properties, .native, .nativeType, .fragment,
      .fragmentEnd], ∀ q ∈ Rule.inMode mode, ∀ r ∈ Rule.inMode mode,
        (opening? q.pattern).any r.pattern.canBegin → r.pattern = q.pattern := by decide +kernel
  exact hrules mode (Mode.mem_all mode) q hq r hr (by rw [hc]; exact hbegin)

/-- The patterns of a mode that depend on more than what they match. -/
theorem Rule.pattern_of_not_isLinewise {mode : Mode} {q : Rule} (hq : q ∈ Rule.inMode mode)
    (hline : q.pattern.isLinewise = false) :
    q.pattern.isShort ∨ (opening? q.pattern).isSome ∨ q.pattern = .blockComment ∨
      mode = .nativeType ∧ q.pattern = .nativeType ∨ mode = .fragment ∧
        q.pattern = .fragmentBody := by
  have hrules : ∀ mode ∈ [Mode.ordinary, .properties, .native, .nativeType, .fragment,
      .fragmentEnd], ∀ q ∈ Rule.inMode mode, q.pattern.isLinewise = false →
        q.pattern.isShort ∨ (opening? q.pattern).isSome ∨ q.pattern = .blockComment ∨
          mode = .nativeType ∧ q.pattern = .nativeType ∨
          mode = .fragment ∧ q.pattern = .fragmentBody := by decide +kernel
  exact hrules mode (Mode.mem_all mode) q hq hline

/-- At the front of a line, or at the end of one, there is little that a rule can match. -/
theorem Rule.pattern_of_line {mode : Mode} {q : Rule} (hq : q ∈ Rule.inMode mode) {c : Char}
    (hc : c ∈ [' ', '\t', '\x0b', '\x0c', '#', '\n', '\r']) (hbegin : q.pattern.canBegin c) :
    q.pattern = .blanks ∨ q.pattern.isLinewise ∨ mode = .nativeType ∧ q.pattern = .nativeType ∨
      mode = .fragment ∧ q.pattern = .fragmentBody := by
  have hrules : ∀ mode ∈ [Mode.ordinary, .properties, .native, .nativeType, .fragment,
      .fragmentEnd],
      ∀ q ∈ Rule.inMode mode, [' ', '\t', '\x0b', '\x0c', '#', '\n', '\r'].any q.pattern.canBegin →
        q.pattern = .blanks ∨ q.pattern.isLinewise ∨ mode = .nativeType ∧ q.pattern = .nativeType ∨
          mode = .fragment ∧ q.pattern = .fragmentBody := by decide +kernel
  exact hrules mode (Mode.mem_all mode) q hq (List.any_eq_true.2 ⟨c, hc, hbegin⟩)

theorem Rule.meaning_of_isLinewise {mode : Mode} {q : Rule} (hq : q ∈ Rule.inMode mode)
    (hline : q.pattern.isLinewise) :
    q.change = .stay ∧ q.meaning ∈ [.nothing, .pragma, .lineMarker] ∧
      (q.meaning = .pragma ↔ q.pattern = .pragma) := by
  have hrules : ∀ mode ∈ [Mode.ordinary, .properties, .native, .nativeType, .fragment,
      .fragmentEnd], ∀ q ∈ Rule.inMode mode, q.pattern.isLinewise →
        q.change = .stay ∧ q.meaning ∈ [.nothing, .pragma, .lineMarker] ∧
          (q.meaning = .pragma ↔ q.pattern = .pragma) := by decide +kernel
  exact hrules mode (Mode.mem_all mode) q hq hline

variable {c : Char} {w : Text}

/-- A rule that does not match whole lines matches the same in both texts, unless it is one
    of raw text that has no end yet. -/
theorem Extends.length?_eq (h : l.Extends x l') (hrest : l.rest = c :: w) (hx : x ≠ [])
    (hr : r ∈ Rule.inMode l.mode) (hlen : r.length? l.atLineStart (c :: w) = some n)
    (hnative : l.mode = .nativeType → runLength isRaw (c :: w) < (c :: w).length)
    (hfragment : l.mode = .fragment → lengthBefore? '%' '}' (c :: w) = none → '%' ∉ x)
    {q : Rule} (hq : q ∈ Rule.inMode l.mode) (hline : q.pattern.isLinewise = false) :
    q.length? l.atLineStart (c :: w ++ x) = q.length? l.atLineStart (c :: w) := by
  rcases Rule.pattern_of_not_isLinewise hq hline with hp | hp | hp | ⟨hmode, hp⟩ | ⟨hmode, hp⟩
  · exact Pattern.length?_append_of_isShort h.onNewLine hp
  · obtain ⟨d, hd⟩ := Option.isSome_iff_exists.1 hp
    by_cases hc : c = d
    · -- `q` is the rule that is used
      subst hc
      have hpattern := Rule.pattern_eq_of_opening? hq hr hd (Pattern.canBegin_of_length? hlen)
      have hsome : q.pattern.length? l.atLineStart (c :: w) ≠ none := by
        rw [← hpattern]
        exact fun hnone => by rw [Rule.length?, hnone] at hlen; cases hlen
      rw [Rule.length?, Rule.length?]
      cases hqp : q.pattern with
      | quoted => rw [hqp] at hsome; exact Pattern.length?_quoted_append hsome
      | propertyArgs => rw [hqp] at hsome; exact Pattern.length?_propertyArgs_append hsome
      | _ => rw [hqp] at hd; cases hd
    · have hbegin : q.pattern.canBegin c = false := by
        cases hqp : q.pattern with
        | quoted => rw [hqp] at hd; cases hd; exact beq_eq_false_iff_ne.2 (Ne.symm hc)
        | propertyArgs => rw [hqp] at hd; cases hd; exact beq_eq_false_iff_ne.2 hc
        | _ => rw [hqp] at hd; cases hd
      exact (Pattern.length?_of_not_canBegin hbegin _ _).trans
        (Pattern.length?_of_not_canBegin hbegin _ _).symm
  · obtain ⟨hlong, hshort⟩ := Pattern.blockComment_append l.atLineStart h.onNewLine
      (hrest ▸ h.uncommented hx)
    rw [Rule.length?, Rule.length?, hp, hlong, hshort]
  · rw [Rule.length?, Rule.length?, hp]
    exact congrArg Pattern.nonzero (Pattern.runLength_append_of_lt (hnative hmode) x)
  · rw [Rule.length?, Rule.length?, hp]
    show lengthBefore? '%' '}' (c :: w ++ x) = lengthBefore? '%' '}' (c :: w)
    cases hbody : lengthBefore? '%' '}' (c :: w) with
    | some k => exact Pattern.lengthBefore?_append hbody x
    | none =>
      refine Pattern.lengthBefore?_append_eq_none hbody ?_ (hfragment hmode hbody)
      intro hhead
      exact absurd (h.onNewLine _ hhead) (by decide)

/-! ## The last line of the text -/

/-- The lexer is about to read a line as a whole, or a line break that ends the text. -/
def AtLine (l : Lexer) : Prop :=
  l.atLineStart ∧ (l.rest.dropWhile isBlank).head? = some '#' ∨
    (∃ c ∈ l.rest.head?, isLineEnd c) ∧ l.rest.length ≤ runLength isLineEnd l.rest

theorem head?_of_opensMarker {cs : Text} (h : Pattern.opensMarker cs) :
    (cs.dropWhile isBlank).head? = some '#' := by
  simp only [Pattern.opensMarker, Pattern.afterLineWord?, Option.bind_eq_bind] at h
  cases hbody : Pattern.afterNumberSign? cs with
  | none => rw [hbody] at h; cases h
  | some body => exact Pattern.head?_of_afterNumberSign? hbody

/-- A rule for whole lines that matches more in the longer text. -/
theorem atLine_of_ne (hx : OnNewLine x) (hrest : l.rest = c :: w) {q : Rule}
    (hline : q.pattern.isLinewise)
    (hne : q.length? l.atLineStart (c :: w ++ x) ≠ q.length? l.atLineStart (c :: w)) :
    l.AtLine ∧ (q.length? l.atLineStart (c :: w) = some (c :: w).length ∨
      l.atLineStart ∧ Pattern.HalfMarker (c :: w)) := by
  rw [AtLine, hrest]
  rcases Pattern.length?_append_of_isLinewise l.atLineStart hx hline with
    heq | ⟨-, ⟨hlen, -⟩ | ⟨-, hstart, hhalf⟩⟩
  · exact absurd heq hne
  · refine ⟨?_, .inl hlen⟩
    cases hq : q.pattern with
    | pragma | lineMarker =>
      rw [hq] at hlen
      exact .inl (Pattern.lineStart_of_length? (by simp) hlen)
    | lineBreak =>
      rw [hq] at hlen
      refine .inr ⟨⟨c, rfl, Pattern.canBegin_of_length? hlen⟩, ?_⟩
      obtain ⟨hbreak, -⟩ := Pattern.nonzero_eq_some.1 hlen
      exact hbreak ▸ Pattern.lineBreakLength_le_runLength (c :: w)
    | _ =>
      rw [hq] at hline
      cases hline
  · exact ⟨.inl ⟨hstart, head?_of_opensMarker hhalf.1⟩, .inr ⟨hstart, hhalf⟩⟩

theorem AtLine.mem (h : l.AtLine) (hrest : l.rest = c :: w) :
    c ∈ [' ', '\t', '\x0b', '\x0c', '#', '\n', '\r'] := by
  rw [AtLine, hrest] at h
  rcases h with ⟨-, hsign⟩ | ⟨⟨d, hd, hend⟩, -⟩
  · obtain ⟨d, hd, hblank⟩ := Pattern.exists_head_of_sign hsign
    cases hd
    rcases hblank with hblank | rfl
    · simp only [isBlank, Bool.or_eq_true, beq_iff_eq] at hblank
      rcases hblank with ((rfl | rfl) | rfl) | rfl <;> decide
    · decide
  · cases hd
    simp only [isLineEnd, Bool.or_eq_true, beq_iff_eq] at hend
    rcases hend with rfl | rfl <;> decide

/-- The raw text of a native type is over there, or has no end. -/
theorem AtLine.le_runLength (h : l.AtLine) (hlawful : l.Lawful) (hrest : l.rest = c :: w)
    (hmode : l.mode = .nativeType) : (c :: w).length ≤ runLength isRaw (c :: w) := by
  have hc := h.mem hrest
  rw [AtLine, hrest] at h
  rcases h with ⟨hstart, -⟩ | ⟨-, hle⟩
  · have hclose := hlawful.nativeType hmode hstart c (by rw [hrest]; rfl)
    rcases hclose with rfl | rfl <;> exact absurd hc (by decide)
  · refine hle.trans (Pattern.runLength_mono (fun d hd => ?_) _)
    simp only [isLineEnd, Bool.or_eq_true, beq_iff_eq] at hd
    rcases hd with rfl | rfl <;> rfl

/-- The body of a code fragment has no end there. -/
theorem AtLine.lengthBefore?_eq_none (h : l.AtLine) (hlawful : l.Lawful)
    (hmode : l.mode = .fragment) :
    lengthBefore? '%' '}' l.rest = none := by
  rcases h with ⟨hstart, -⟩ | ⟨-, hle⟩
  · exact hlawful.fragment hmode hstart
  · refine Option.eq_none_iff_forall_ne_some.2 fun k hk => ?_
    have hrun := Pattern.le_of_lengthBefore? (p := isLineEnd) rfl hk
    have hlt := Pattern.lengthBefore?_lt hk
    omega

/-- What can match there: blanks, or a whole line. -/
theorem AtLine.pattern (h : l.AtLine) (hlawful : l.Lawful) (hrest : l.rest = c :: w)
    (hmode : l.mode ≠ .nativeType) {q : Rule} (hq : q ∈ Rule.inMode l.mode)
    (hlen : q.length? l.atLineStart (c :: w) = some n) :
    q.pattern = .blanks ∨ q.pattern.isLinewise := by
  rcases Rule.pattern_of_line hq (h.mem hrest) (Pattern.canBegin_of_length? hlen) with
    hp | hp | ⟨hm, -⟩ | ⟨hm, hp⟩
  · exact .inl hp
  · exact .inr hp
  · exact absurd hm hmode
  · have hnone := h.lengthBefore?_eq_none hlawful hm
    rw [hrest] at hnone
    rw [Rule.length?, hp, Pattern.length?, hnone] at hlen
    cases hlen

/-! ## Steps -/

theorem ofLine?_append_newLine (cs : Text) : Pragma.ofLine? (cs ++ ['\n']) = Pragma.ofLine? cs := by
  have hx : OnNewLine ['\n'] := fun c hc => by cases hc; rfl
  have htrim (ds : Text) : Text.trimEnd isLineEnd (ds ++ ['\n']) = Text.trimEnd isLineEnd ds := by
    rw [Text.trimEnd, Text.trimEnd, List.reverse_append]
    rfl
  simp only [Pragma.ofLine?, Pattern.afterPragma?_append hx, Option.bind_eq_bind]
  cases Pattern.afterPragma? cs with
  | none => rfl
  | some body => simp only [Option.map_some, Option.bind_some, htrim]

/-- What a longer text makes of a step. -/
inductive StepsAlong (x : Text) (l l' : Lexer) (s : Step) : Prop
  /-- The step is the same. -/
  | same {s' : Step} : l'.step? = some s' → Option.Rel Token.Alike s.token? s'.token? →
    s.next.Extends x s'.next → StepsAlong x l l' s
  /-- The text ends with the step, and the step reads one line feed more. -/
  | feeds {s' : Step} : l'.step? = some s' → s.token? = none → s'.token? = none → s.next.rest = [] →
    x = '\n' :: s'.next.rest → s'.next.atLineStart → s.next.Agrees s'.next → StepsAlong x l l' s
  /-- The text ends in the middle of a native type. -/
  | nativeType {t : Token} : s.token? = some t → t.kind = .nativeType → s.next.rest = [] → x ≠ [] →
    StepsAlong x l l' s
  /-- The text ends in the middle of a code fragment. -/
  | fragment : l.mode = .fragment → lengthBefore? '%' '}' l.rest = none → '%' ∈ x →
      StepsAlong x l l' s
  /-- The last line of the text is half of a marker, behind whose blanks nothing matches. -/
  | stuck : s.token? = none → s.next.rest ≠ [] → s.next.step? = none → StepsAlong x l l' s

theorem Extends.step?_eq (h : l.Extends x l') (hrest : l.rest = c :: w) {k : Nat}
    (hmatch : Rule.longestMatch l.atLineStart (c :: w ++ x) (Rule.inMode l.mode) = some (k, r)) :
    l'.step? = some (l'.read k r) := by
  refine step?_eq_some_iff.2 ⟨k, r, ?_, rfl⟩
  rw [h.atLineStart, h.rest, h.mode, hrest, hmatch]

/-- A native type that is not closed is read to the end of the text. -/
theorem stepsAlong_of_nativeType (hx : x ≠ []) (hrest : l.rest = c :: w)
    (hmode : l.mode = .nativeType) (hrun : (c :: w).length ≤ runLength isRaw (c :: w))
    (hmatch : Rule.longestMatch l.atLineStart (c :: w) (Rule.inMode l.mode) = some (n, r)) :
    StepsAlong x l l' (l.read n r) := by
  have hrun : runLength isRaw (c :: w) = (c :: w).length :=
    Nat.le_antisymm (Pattern.runLength_le _ _) hrun
  have hraw : Rule.length? l.atLineStart (c :: w) ⟨.nativeType, .token .nativeType, .stay⟩ =
      some (c :: w).length := Pattern.nonzero_eq_some.2 ⟨hrun, Nat.zero_lt_succ _⟩
  rw [hmode] at hmatch
  obtain ⟨hr, hlen⟩ := Rule.longestMatch_mem hmatch
  have hown : r ∈ Rule.ofMode .nativeType := by
    refine Decidable.byContradiction fun hnot => ?_
    have := Rule.lt_of_longestMatch_append hmatch hnot (by decide) hraw
    exact absurd this (Nat.not_lt_of_le (Pattern.length?_le hlen))
  have hcases : r = Punct.closeParen.rule .leave ∨
      r = ⟨.nativeType, .token .nativeType, .stay⟩ := by
    simpa [Rule.ofMode] using hown
  rcases hcases with rfl | rfl
  · obtain rfl : c = ')' := (beq_iff_eq.1 (Pattern.canBegin_of_length? hlen)).symm
    rw [Pattern.runLength_cons, if_neg (by decide)] at hrun
    cases hrun
  · rw [hraw] at hlen
    cases hlen
    refine .nativeType rfl rfl ?_ hx
    rw [rest_read, hrest, List.drop_length]

/-- Behind the blanks of half a marker, no rule matches. -/
theorem AtLine.stepsAlong_of_halfMarker (h : l.AtLine) (hlawful : l.Lawful)
    (hrest : l.rest = c :: w) (hmode : l.mode ≠ .nativeType) (hhalf : Pattern.HalfMarker (c :: w))
    (hr : r ∈ Rule.inMode l.mode) (hlen : r.length? l.atLineStart (c :: w) = some n) :
    StepsAlong x l l' (l.read n r) := by
  have hsign := head?_of_opensMarker hhalf.1
  have hblanks : r.pattern = .blanks := by
    refine (h.pattern hlawful hrest hmode hr hlen).resolve_right fun hline => ?_
    rw [Rule.length?] at hlen
    cases hp : r.pattern with
    | pragma =>
      rw [hp, Pattern.length?_pragma_of_opensMarker hhalf.1] at hlen
      cases hlen
    | lineMarker =>
      have hnone : Pattern.lineMarkerLength? (c :: w) = none := by
        rw [Pattern.lineMarkerLength?_eq, hhalf.2]
        exact if_neg fun h => Nat.lt_irrefl _ h.2
      rw [hp, Pattern.length?, hnone] at hlen
      split at hlen <;> cases hlen
    | lineBreak =>
      rw [hp] at hlen
      have hend : isLineEnd c := Pattern.canBegin_of_length? hlen
      obtain ⟨d, hd, hblank⟩ := Pattern.exists_head_of_sign hsign
      cases hd
      rcases hblank with hblank | rfl
      · have := Pattern.isInline_of_isBlank c hblank
        rw [Pattern.isInline, hend] at this
        cases this
      · cases hend
    | _ =>
      rw [hp] at hline
      cases hline
  have hrule : ∀ mode ∈ [Mode.ordinary, .properties, .native, .nativeType, .fragment, .fragmentEnd],
      ∀ q ∈ Rule.inMode mode, q.pattern = .blanks →
        q.meaning = .nothing ∧ q.change = .stay := by decide +kernel
  obtain ⟨hmeaning, hchange⟩ := hrule l.mode (Mode.mem_all _) r hr hblanks
  rw [Rule.length?, hblanks] at hlen
  obtain ⟨rfl, hpos⟩ := Pattern.nonzero_eq_some.1 hlen
  obtain ⟨rest, hrest'⟩ := List.head?_eq_some_iff.1 hsign
  have hnext : (l.read (runLength isBlank (c :: w)) r).next.rest = '#' :: rest := by
    rw [rest_read, hrest, Pattern.drop_runLength, hrest']
  have hstart : (l.read (runLength isBlank (c :: w)) r).next.atLineStart = false := by
    have hlast := List.getLast?_eq_some_getLast (l := (c :: w).take (runLength isBlank (c :: w)))
      (List.ne_nil_of_length_pos (by
        rw [List.length_take, Nat.min_eq_left (Pattern.runLength_le _ _)]
        exact hpos))
    have hblank := Pattern.forall_mem_take_of_le_runLength (p := isBlank) (Nat.le_refl _) _
      (List.mem_of_getLast? hlast)
    rw [atLineStart_read, hrest, hlast]
    simpa [Pattern.isInline] using Pattern.isInline_of_isBlank _ hblank
  have hmode' : (l.read (runLength isBlank (c :: w)) r).next.mode = l.mode := by
    have hmodes := modes_read_of_not_isKeyword (l := l) (n := runLength isBlank (c :: w)) (r := r)
      (by rw [hmeaning]; rfl)
    rw [hchange] at hmodes
    exact hmodes.1
  refine .stuck ?_ ?_ ?_
  · rw [Lexer.read, hmeaning]
    rfl
  · rw [hnext]
    exact List.cons_ne_nil _ _
  · refine Option.map_eq_none_iff.2 (Rule.longestMatch_eq_none_iff.2 fun q hq => ?_)
    rw [hmode'] at hq
    rw [hnext, hstart]
    refine Option.eq_none_iff_forall_ne_some.2 fun k hk => ?_
    have hbegin := Pattern.canBegin_of_length? hk
    rcases Rule.pattern_of_line hq (by decide) hbegin with hp | hp | ⟨hm, -⟩ | ⟨hm, hp⟩
    · rw [hp] at hbegin
      cases hbegin
    · cases hqp : q.pattern with
      | pragma | lineMarker =>
        rw [Rule.length?, hqp] at hk
        cases (Pattern.lineStart_of_length? (by simp) hk).1
      | lineBreak =>
        rw [hqp] at hbegin
        cases hbegin
      | _ =>
        rw [hqp] at hp
        cases hp
    · exact hmode hm
    · have hnone := Pattern.lengthBefore?_drop (h.lengthBefore?_eq_none hlawful hm)
        (runLength isBlank (c :: w))
      rw [← rest_read l _ r, hnext] at hnone
      rw [Rule.length?, hp, Pattern.length?, hnone] at hk
      cases hk

/-- The rule for the last line of the text reads the line feed as well. -/
theorem Extends.stepsAlong_of_unended (h : l.Extends x l') (hrest : l.rest = c :: w)
    (hr : r ∈ Rule.inMode l.mode) (hline : r.pattern.isLinewise)
    (hunended : Pattern.Unended x (c :: w)) (hn : n = (c :: w).length)
    (hmatch : Rule.longestMatch l.atLineStart (c :: w ++ x) (Rule.inMode l.mode) = some
      (n + 1, r)) :
    StepsAlong x l l' (l.read n r) := by
  obtain ⟨⟨t, rfl⟩, -⟩ := hunended
  obtain ⟨-, hmeaning, hpragma⟩ := Rule.meaning_of_isLinewise hr hline
  have hkind (l : Lexer) (cs : Text) : r.meaning.kind? l.dialect cs = none := by
    simp only [List.mem_cons, List.not_mem_nil, or_false] at hmeaning
    rcases hmeaning with hm | hm | hm <;> rw [hm] <;> rfl
  have htake : l.rest.take n = c :: w := by rw [hrest, hn, List.take_length]
  have htake' : l'.rest.take (n + 1) = c :: w ++ ['\n'] := by
    rw [h.rest, hrest, hn, List.take_length_add_append]
    rfl
  have hdrop' : l'.rest.drop (n + 1) = t := by
    rw [h.rest, hrest, hn, List.drop_length_add_append]
    rfl
  refine .feeds (h.step?_eq hrest hmatch) ?_ ?_ ?_ ?_ ?_ (h.toAgrees.read ?_ fun _ => ?_)
  · rw [Lexer.read, hkind]
    rfl
  · rw [Lexer.read, hkind]
    rfl
  · rw [rest_read, hrest, hn, List.drop_length]
  · rw [rest_read, hdrop']
  · rw [atLineStart_read, htake', List.getLast?_concat]
    rfl
  · rw [hkind, hkind]
  · rw [htake, htake', ofLine?_append_newLine]

/-- **What the longer text makes of a step.** -/
theorem Extends.step (h : l.Extends x l') (hs : l.step? = some s) : StepsAlong x l l' s := by
  obtain ⟨n, r, hmatch, rfl⟩ := step?_eq_some_iff.1 hs
  obtain ⟨hr, hlen⟩ := Rule.longestMatch_mem hmatch
  have hn := Pattern.length?_le hlen
  have hsame (hmatch' : Rule.longestMatch l'.atLineStart l'.rest (Rule.inMode l'.mode) =
      some (n, r)) :
      StepsAlong x l l' (l.read n r) :=
    .same (step?_eq_some_iff.2 ⟨n, r, hmatch', rfl⟩) (h.read hs hn).2 (h.read hs hn).1
  by_cases hx : x = []
  · refine hsame ?_
    rw [h.atLineStart, h.rest, h.mode, hx, List.append_nil, hmatch]
  cases hrest : l.rest with
  | nil =>
    -- no rule of any mode matches the empty text
    have hrules : ∀ mode ∈ [Mode.ordinary, .properties, .native, .nativeType, .fragment,
        .fragmentEnd],
        ∀ start ∈ [true, false], ∀ q ∈ Rule.inMode mode, q.length? start [] =
          none := by decide +kernel
    have hnone := hrules l.mode (Mode.mem_all _) l.atLineStart (by simp) r hr
    rw [hrest] at hlen
    rw [hlen] at hnone
    cases hnone
  | cons c w =>
  rw [hrest] at hmatch hlen hn
  by_cases hnative : l.mode = .nativeType ∧ (c :: w).length ≤ runLength isRaw (c :: w)
  · exact stepsAlong_of_nativeType hx hrest hnative.1 hnative.2 hmatch
  by_cases hfragment : l.mode = .fragment ∧ lengthBefore? '%' '}' (c :: w) = none ∧ '%' ∈ x
  · exact .fragment hfragment.1 (hrest ▸ hfragment.2.1) hfragment.2.2
  have hother {q : Rule} (hq : q ∈ Rule.inMode l.mode) (hline : q.pattern.isLinewise = false) :
      q.length? l.atLineStart (c :: w ++ x) = q.length? l.atLineStart (c :: w) :=
    h.length?_eq hrest hx hr hlen (fun hm => Nat.not_le.1 fun hle => hnative ⟨hm, hle⟩)
      (fun hm hnone hmem => hfragment ⟨hm, hnone, hmem⟩) hq hline
  by_cases hall : ∀ q ∈ Rule.inMode l.mode,
      q.length? l.atLineStart (c :: w ++ x) = q.length? l.atLineStart (c :: w)
  · refine hsame ?_
    rw [h.atLineStart, h.rest, h.mode, hrest, Rule.longestMatch_congr hall, hmatch]
  -- a rule for whole lines matches more: the last line of the text is read
  obtain ⟨q, hq⟩ := not_forall.1 hall
  obtain ⟨hq, hne⟩ := Classical.not_imp.1 hq
  have hline : q.pattern.isLinewise := by
    by_contra hline
    exact hne (hother hq (Bool.eq_false_iff.2 hline))
  obtain ⟨hatLine, hgrows⟩ := atLine_of_ne h.onNewLine hrest hline hne
  have hmode : l.mode ≠ .nativeType := fun hm =>
    hnative ⟨hm, hatLine.le_runLength h.lawful hrest hm⟩
  by_cases hhalf : l.atLineStart ∧ Pattern.HalfMarker (c :: w)
  · exact hatLine.stepsAlong_of_halfMarker h.lawful hrest hmode hhalf.2 hr hlen
  have hlast := hgrows.resolve_right hhalf
  have hunended : Pattern.Unended x (c :: w) := by
    rcases Pattern.length?_append_of_isLinewise l.atLineStart h.onNewLine hline with heq | hu
    · exact absurd heq hne
    · exact hu.1
  have hn' : n = (c :: w).length :=
    Nat.le_antisymm hn (Rule.length_le_of_longestMatch hmatch hq hlast)
  have hrline : r.pattern.isLinewise := by
    refine (hatLine.pattern h.lawful hrest hmode hr hlen).resolve_left fun hblanks => ?_
    rw [Rule.length?, hblanks] at hlen
    obtain ⟨hrun, -⟩ := Pattern.nonzero_eq_some.1 hlen
    have hblank : isBlank c := Pattern.canBegin_of_length? (p := .blanks) hlen
    have hdrop : (c :: w).dropWhile isBlank = [] := by
      rw [← Pattern.drop_runLength, hrun, hn', List.drop_length]
    rw [AtLine, hrest] at hatLine
    rcases hatLine with ⟨-, hsign⟩ | ⟨⟨d, hd, hend⟩, -⟩
    · rw [hdrop] at hsign
      cases hsign
    · cases hd
      have := Pattern.isInline_of_isBlank c hblank
      rw [Pattern.isInline, hend] at this
      cases this
  refine h.stepsAlong_of_unended hrest hr hrline hunended hn'
    (Rule.longestMatch_of_grows hmatch
      (Pattern.length?_append_of_unended h.onNewLine hrline hunended hlen).2 fun p hp => ?_)
  by_cases hpline : p.pattern.isLinewise
  · rcases Pattern.length?_append_of_isLinewise l.atLineStart h.onNewLine hpline with
      heq | ⟨-, hgrown | ⟨-, hhalf'⟩⟩
    · exact .inl heq
    · exact .inr (hn' ▸ hgrown)
    · exact absurd hhalf' hhalf
  · exact .inl (hother hp (Bool.eq_false_iff.2 hpline))

/-! ## Tokens -/

/-- Behind the end of the shorter text, the other lexer has the rest of the longer one left,
    without the line feed if that belongs to the last line. -/
structure Meets (x : Text) (l l' : Lexer) : Prop extends Agrees l l' where
  lawful : l.Lawful
  rest : l'.rest = x ∧ l'.atLineStart = l.atLineStart ∨ x = '\n' :: l'.rest ∧ l'.atLineStart

/-- What a longer text makes of a call for the next token: `r` is its result on the text
    alone, and `r'` the one on the longer text. -/
inductive NextAlong (x : Text) (r' : Except LexicalError (Option Token) × Lexer) :
    Except LexicalError (Option Token) × Lexer → Prop
  | failed {e : LexicalError} {m : Lexer} : NextAlong x r' (.error e, m)
  /-- The same token. -/
  | token {t t' : Token} {m m' : Lexer} : r' = (.ok (some t'), m') → t.Alike t' → m.Extends x m' →
    NextAlong x r' (.ok (some t), m)
  /-- The text ends in the middle of a native type. -/
  | nativeType {t : Token} {m : Lexer} : t.kind = .nativeType → m.rest = [] → x ≠ [] →
    NextAlong x r' (.ok (some t), m)
  /-- The text ends. In the body of a code fragment, the other lexer may have turned off
    before that, at the end of the fragment. -/
  | ended {m : Lexer} : m.rest = [] →
    ((m.mode = .fragment → '%' ∉ x) → ∃ m' : Lexer, r' = m'.next ∧ m.Meets x m') →
    NextAlong x r' (.ok none, m)

/-- A code fragment without an end yields no token, and is not left. -/
theorem step_of_open_fragment (hmode : l.mode = .fragment)
    (hbody : lengthBefore? '%' '}' l.rest = none) (hs : l.step? = some s) :
    s.token? = none ∧ s.next.mode = .fragment ∧ lengthBefore? '%' '}' s.next.rest = none := by
  obtain ⟨n, r, hmatch, rfl⟩ := step?_eq_some_iff.1 hs
  rw [hmode] at hmatch
  obtain ⟨hr, hlen⟩ := Rule.longestMatch_mem hmatch
  have hgeneral : r ∈ Rule.general := by
    refine (List.mem_append.1 hr).resolve_left fun hown => ?_
    obtain rfl : r = ⟨.fragmentBody, .token .fragment, .switch .fragmentEnd⟩ := by
      simpa [Rule.ofMode] using hown
    rw [Rule.length?, Pattern.length?, hbody] at hlen
    cases hlen
  have hrules : ∀ r ∈ Rule.general, r.meaning ∈ [.nothing, .pragma, .lineMarker] := by decide
  have hmeaning := hrules r hgeneral
  obtain ⟨hkeyword, hchange, -⟩ := Rule.of_mem_general hgeneral
  have hmodes := modes_read_of_not_isKeyword (l := l) (n := n) hkeyword
  rw [hchange] at hmodes
  refine ⟨?_, hmodes.1.trans hmode, ?_⟩
  · simp only [List.mem_cons, List.not_mem_nil, or_false] at hmeaning
    rcases hmeaning with hm | hm | hm <;> rw [Lexer.read, hm] <;> rfl
  · rw [rest_read]
    exact Pattern.lengthBefore?_drop hbody n

theorem nextAlong_of_open_fragment {r' : Except LexicalError (Option Token) × Lexer} (hx : '%' ∈ x)
    (hmode : l.mode = .fragment) (hbody : lengthBefore? '%' '}' l.rest = none) :
    NextAlong x r' l.next := by
  fun_induction Lexer.next l with
  | case1 l hrest => exact .ended (List.isEmpty_iff.1 hrest) fun h => absurd hx (h hmode)
  | case2 => exact .failed
  | case3 l _ s hs t ht =>
    rw [(step_of_open_fragment hmode hbody hs).1] at ht
    cases ht
  | case4 l _ s hs ht ih =>
    obtain ⟨-, hmode', hbody'⟩ := step_of_open_fragment hmode hbody hs
    exact ih hmode' hbody'

theorem Extends.rest_ne_nil (h : l.Extends x l') (hne : ¬l.rest.isEmpty) : l'.rest ≠ [] := by
  rw [h.rest]
  exact List.append_ne_nil_of_left_ne_nil (fun hnil => hne (List.isEmpty_iff.2 hnil)) _

/-- **What a longer text makes of a call for the next token.** -/
theorem Extends.next (h : l.Extends x l') : NextAlong x l'.next l.next := by
  fun_induction Lexer.next l generalizing l' with
  | case1 l hrest =>
    have hrest := List.isEmpty_iff.1 hrest
    refine .ended hrest fun _ => ⟨l', rfl, h.toAgrees, h.lawful, .inl ⟨?_, h.atLineStart⟩⟩
    rw [h.rest, hrest, List.nil_append]
  | case2 => exact .failed
  | case3 l hne s hs t ht =>
    have hrest := h.rest_ne_nil hne
    cases h.step hs with
    | @same s' hs' hrel hnext =>
      rw [ht] at hrel
      cases ht' : s'.token? with
      | none => rw [ht'] at hrel; cases hrel
      | some t' =>
        rw [ht'] at hrel
        cases hrel with
        | some halike =>
          refine .token ?_ halike hnext
          rw [next_of_step hrest hs', ht']
    | feeds _ hnone => rw [hnone] at ht; cases ht
    | nativeType htoken hkind hend hx =>
      rw [htoken] at ht
      cases ht
      exact .nativeType hkind hend hx
    | fragment hmode hbody =>
      rw [(step_of_open_fragment hmode hbody hs).1] at ht
      cases ht
    | stuck hnone => rw [hnone] at ht; cases ht
  | case4 l hne s hs ht ih =>
    have hrest := h.rest_ne_nil hne
    cases h.step hs with
    | @same s' hs' hrel hnext =>
      rw [ht] at hrel
      cases ht' : s'.token? with
      | some t' => rw [ht'] at hrel; cases hrel
      | none =>
        rw [next_of_step hrest hs', ht']
        exact ih hnext
    | @feeds s' hs' _ hnone hend hx hstart hagrees =>
      rw [next_of_rest_eq_nil hend, next_of_step hrest hs', hnone]
      exact .ended hend fun _ => ⟨s'.next, rfl, hagrees, h.lawful.step hs, .inr ⟨hx, hstart⟩⟩
    | nativeType htoken => rw [htoken] at ht; cases ht
    | fragment hmode hbody hx =>
      obtain ⟨-, hmode', hbody'⟩ := step_of_open_fragment hmode hbody hs
      exact nextAlong_of_open_fragment hx hmode' hbody'
    | stuck _ hrest' hnone =>
      rw [next_of_no_step hrest' hnone]
      exact .failed

end Lexer

end IdlFrontend
