import IdlFrontend.Preprocess.Error
import IdlFrontend.Text.WhiteSpace
import IdlFrontend.Token.Pragma
import IdlFrontend.Token.Rule

/-!
# The lexer

The lexer reads preprocessed text one token at a time, so that its mode can be
changed between two tokens. A step reads one stretch of text by one rule. Every
stretch counts its line breaks, and a line marker sets the number of the line
behind it. The lines are counted in a word of 64 bits, which wraps around: a marker can
give the largest number, and behind a line break the next line is then line 0.

Results:

* `Step.text_append_rest`: a step reads a stretch from the front of the text.
* `work_step_lt`: every step leaves less work, so the lexer stops.
* `work_next_le`, `work_next_lt`: so does reading up to the next token.
-/

namespace IdlFrontend

/-- A text that is being cut into tokens. -/
structure Lexer where
  dialect : Dialect
  /-- The text that has not been read yet. -/
  rest : Text
  /-- Whether the text not yet read is at the start of a line. -/
  atLineStart : Bool := true
  /-- The number of the line that the text not yet read begins on. -/
  line : UInt64 := 1
  mode : Mode := .ordinary
  /-- The modes to return to, the nearest first. -/
  below : List Mode := []
  pragmas : Pragmas := []
deriving DecidableEq, Repr

/-- No rule of the mode matches. -/
structure LexicalError where
  /-- What stands there. -/
  text : Text
  mode : Mode
  line : UInt64
deriving DecidableEq, Repr

namespace LexicalError

/-- The message without the line. -/
def message (e : LexicalError) : String :=
  s!"Illegal token (state={e.mode.description}): {String.ofList e.text}"

/-- The message followed by the line. -/
def display (e : LexicalError) : String := withLine e.message (some e.line.toNat)

end LexicalError

/-- The kind of a word of the ordinary mode. -/
def wordKind (dialect : Dialect) (word : Text) : TokenKind :=
  match Keyword.ofText? dialect word with
  | some k => .keyword k
  | none => .identifier

/-- The kind of the token that a stretch of text is, if it is one. -/
def Meaning.kind? (dialect : Dialect) (cs : Text) : Meaning → Option TokenKind
  | .nothing | .pragma | .lineMarker => none
  | .token kind => some kind
  | .word => some (wordKind dialect cs)
  | .number => some (decimalKind cs)

/-- A stretch of text that the lexer reads as a whole. -/
structure Step where
  text : Text
  rule : Rule
  token? : Option Token
  /-- The lexer behind the stretch. -/
  next : Lexer
deriving DecidableEq, Repr

namespace Lexer

/-- The lexer at the start of a text. -/
def ofText (dialect : Dialect) (cs : Text) : Lexer := { dialect, rest := cs }

/-! ## Modes -/

/-- Enters a mode. Model of `push_state`. -/
def push (l : Lexer) (mode : Mode) : Lexer := { l with mode, below := l.mode :: l.below }

/-- Returns to the mode before. The outermost mode is never left. Model of `pop_state`. -/
def pop (l : Lexer) : Lexer :=
  match l.below with
  | [] => l
  | mode :: below => { l with mode, below }

/-- Changes the mode. -/
def change (l : Lexer) : ModeChange → Lexer
  | .stay => l
  | .enter mode => l.push mode
  | .leave => l.pop
  | .switch mode => l.pop.push mode

/-! ## Pragmas -/

/-- The pragma with the given name, which is then forgotten. Model of `take_pragma`. -/
def takePragma (l : Lexer) (name : Text) : Option Pragma × Lexer :=
  match l.pragmas.find? name with
  | some p => (some p, { l with pragmas := l.pragmas.erase name })
  | none => (none, l)

/-! ## Steps -/

/-- The lexer behind its next `n` characters. -/
def skip (l : Lexer) (n : Nat) : Lexer :=
  let text := l.rest.take n
  { l with
    rest := l.rest.drop n
    atLineStart := (text.getLast?.map isLineEnd).getD l.atLineStart
    line := l.line + .ofNat (Text.lineBreaks text) }

/-- What a stretch without a token makes the lexer remember. -/
def note (l : Lexer) (text : Text) : Meaning → Lexer
  | .pragma => match Pragma.ofLine? text with
    | some p => { l with pragmas := l.pragmas.record p }
    | none => l
  | .lineMarker => match markedLine? text with
    | some line => { l with line := .ofNat line }
    | none => l
  | _ => l

/-- Reads `n` characters by a rule. The keyword `native` enters a mode of its own. -/
def read (l : Lexer) (n : Nat) (rule : Rule) : Step :=
  let text := l.rest.take n
  let kind? := rule.meaning.kind? l.dialect text
  let change := if kind? = some (.keyword .native) then .enter .native else rule.change
  { text
    rule
    token? := kind?.map fun kind => ⟨kind, text, l.line⟩
    next := ((l.skip n).note text rule.meaning).change change }

/-- The next stretch, if a rule matches. -/
def step? (l : Lexer) : Option Step :=
  (Rule.longestMatch l.atLineStart l.rest (Rule.inMode l.mode)).map fun (n, rule) => l.read n rule

/-- The text up to the next white space, at most 32 characters of it, as no token. Model of
    `illegal`. -/
def illegal (l : Lexer) : LexicalError :=
  ⟨(l.rest.takeWhile fun c => !isWhiteSpace c).take 32, l.mode, l.line⟩

/-! ## Progress -/

/-- A bound on the number of steps that are left. The body of a code fragment can
    be empty, but reading it leaves the mode. -/
def work (l : Lexer) : Nat := 2 * l.rest.length + if l.mode = .fragment then 1 else 0

@[simp] theorem rest_push (l : Lexer) (mode : Mode) : (l.push mode).rest = l.rest := rfl

@[simp] theorem rest_pop (l : Lexer) : l.pop.rest = l.rest := by
  unfold pop
  split <;> rfl

@[simp] theorem rest_change (l : Lexer) (c : ModeChange) : (l.change c).rest = l.rest := by
  cases c <;> simp [change]

@[simp] theorem rest_note (l : Lexer) (text : Text) (m : Meaning) :
    (l.note text m).rest = l.rest := by
  unfold note
  split
  · split <;> rfl
  · split <;> rfl
  · rfl

@[simp] theorem rest_read (l : Lexer) (n : Nat) (rule : Rule) :
    (l.read n rule).next.rest = l.rest.drop n := by
  simp [read, skip]

theorem step?_eq_some_iff {l : Lexer} {s : Step} :
    l.step? = some s ↔
      ∃ n rule, Rule.longestMatch l.atLineStart l.rest (Rule.inMode l.mode) = some (n, rule) ∧
        s = l.read n rule := by
  simp only [step?, Option.map_eq_some_iff, Prod.exists]
  constructor <;> rintro ⟨n, rule, h, hs⟩ <;> exact ⟨n, rule, h, hs.symm⟩

theorem work_le (l : Lexer) : l.work ≤ 2 * l.rest.length + 1 := by
  unfold work
  split <;> omega

/-- The only rule with a match of no characters reads the body of a fragment. -/
theorem eq_of_length?_eq_zero {mode : Mode} {rule : Rule} {lineStart : Bool} {cs : Text}
    (hmem : rule ∈ Rule.inMode mode) (h : rule.length? lineStart cs = some 0) :
    mode = .fragment ∧ rule = ⟨.fragmentBody, .token .fragment, .switch .fragmentEnd⟩ := by
  have hbody : rule.pattern = .fragmentBody := by
    by_cases hp : rule.pattern = .fragmentBody
    · exact hp
    · exact absurd (Pattern.length?_pos h hp) (by omega)
  have check : ∀ mode ∈ [Mode.ordinary, .properties, .native, .nativeType, .fragment, .fragmentEnd],
      ∀ r ∈ Rule.inMode mode, r.pattern = .fragmentBody →
        mode = .fragment ∧ r = ⟨.fragmentBody, .token .fragment, .switch .fragmentEnd⟩ := by
    decide
  exact check mode (by cases mode <;> decide) rule hmem hbody

theorem work_step_lt {l : Lexer} {s : Step} (h : l.step? = some s) : s.next.work < l.work := by
  obtain ⟨n, rule, hmatch, rfl⟩ := step?_eq_some_iff.1 h
  obtain ⟨hmem, hlen⟩ := Rule.longestMatch_mem hmatch
  have hle : n ≤ l.rest.length := Pattern.length?_le hlen
  cases n with
  | zero =>
    obtain ⟨hmode, rfl⟩ := eq_of_length?_eq_zero hmem hlen
    simp [work, hmode, read, Meaning.kind?, change, push, skip]
  | succ n =>
    have hnext := work_le (l.read (n + 1) rule).next
    rw [rest_read, List.length_drop] at hnext
    simp only [work] at hnext ⊢
    omega

/-! ## Tokens -/

/-- Reads up to the end of the next token. There is none at the end of the text. A lexer that
    fails has read the stretches before the illegal token. Model of `next_token`. -/
def next (l : Lexer) : Except LexicalError (Option Token) × Lexer :=
  if l.rest.isEmpty then (.ok none, l)
  else match _h : l.step? with
    | none => (.error l.illegal, l)
    | some s => match s.token? with
      | some t => (.ok (some t), s.next)
      | none => next s.next
termination_by l.work
decreasing_by exact work_step_lt _h

theorem work_next_le (l : Lexer) : l.next.2.work ≤ l.work := by
  fun_induction next l with
  | case1 => exact Nat.le_refl _
  | case2 => exact Nat.le_refl _
  | case3 l _ s h t ht => exact Nat.le_of_lt (work_step_lt h)
  | case4 l _ s h ht ih => exact Nat.le_trans ih (Nat.le_of_lt (work_step_lt h))

theorem work_next_lt {l : Lexer} {t : Token} (h : l.next.1 = .ok (some t)) :
    l.next.2.work < l.work := by
  fun_induction next l with
  | case1 => cases h
  | case2 => cases h
  | case3 l _ s hs t ht => exact work_step_lt hs
  | case4 l _ s hs ht ih => exact Nat.lt_trans (ih h) (work_step_lt hs)

/-- Reads all tokens that are left, up to the end of the text or an illegal token. Model of
    `tokenize`. -/
def tokenize (l : Lexer) : List Token × Option LexicalError × Lexer :=
  match _h : l.next with
  | (.ok (some t), l') =>
    let (ts, e, last) := tokenize l'
    (t :: ts, e, last)
  | (.ok none, l') => ([], none, l')
  | (.error e, l') => ([], some e, l')
termination_by l.work
decreasing_by
  have := work_next_lt (l := l) (by rw [_h])
  rwa [_h] at this

end Lexer

theorem Step.text_append_rest {l : Lexer} {s : Step} (h : l.step? = some s) :
    s.text ++ s.next.rest = l.rest := by
  obtain ⟨n, rule, _, rfl⟩ := Lexer.step?_eq_some_iff.1 h
  rw [Lexer.rest_read, Lexer.read, List.take_append_drop]

/-- The tokens of a text, unless one is illegal. -/
def Token.ofText (dialect : Dialect) (cs : Text) : Except LexicalError (List Token) :=
  match (Lexer.ofText dialect cs).tokenize with
  | (ts, none, _) => .ok ts
  | (_, some e, _) => .error e

end IdlFrontend
