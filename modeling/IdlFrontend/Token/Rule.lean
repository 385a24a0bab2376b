import IdlFrontend.Token.Basic
import IdlFrontend.Token.Pattern

/-!
# Rules of the lexer

The lexer is in one of six modes. Each mode has rules of its own, and a few rules
hold in every mode. Of the rules that match at a place the one with the longest
match is used, and the first of them if there are several.

Results:

* `longestMatch_mem`: the match found is a match of one of the rules.
* `length_le_of_longestMatch`: no rule matches more characters.
* `longestMatch_eq_none_iff`: none is found exactly if no rule matches.
-/

namespace IdlFrontend

/-- The modes of the lexer. Model of `LexState`. -/
inductive Mode where
  | ordinary
  /-- Inside a property list. -/
  | properties
  /-- Behind the keyword `native`. -/
  | native
  /-- Between the parentheses of a native declaration. -/
  | nativeType
  /-- Behind the opening mark of a code fragment. -/
  | fragment
  /-- Before the closing mark of a code fragment. -/
  | fragmentEnd
deriving DecidableEq, Repr

/-- How messages call a mode. -/
def Mode.description : Mode → String
  | ordinary => "INITIAL"
  | properties => "PROP"
  | native => "NATIVE"
  | nativeType => "NATIVETYPE"
  | fragment => "CFRG"
  | fragmentEnd => "CFRGX"

/-- What a stretch of text stands for. -/
inductive Meaning where
  /-- No token: space, comments and the marks of code fragments. -/
  | nothing
  /-- No token, but a pragma to remember. -/
  | pragma
  /-- No token, but the number of the line that follows. -/
  | lineMarker
  | token (kind : TokenKind)
  /-- A keyword, or an identifier. -/
  | word
  /-- A number whose kind its characters tell. -/
  | number
deriving DecidableEq, Repr

/-- What happens to the mode behind a stretch of text. -/
inductive ModeChange where
  | stay
  /-- Enter a mode, to return to the present one. -/
  | enter (mode : Mode)
  | leave
  /-- Leave the present mode for another one. -/
  | switch (mode : Mode)
deriving DecidableEq, Repr

/-- What the lexer looks for, what it stands for, and what then happens. -/
structure Rule where
  pattern : Pattern
  meaning : Meaning
  change : ModeChange := .stay
deriving DecidableEq, Repr

/-- The rule for a punctuation token. -/
def Punct.rule (p : Punct) (change : ModeChange := .stay) : Rule :=
  ⟨.mark p.spelling.1 p.spelling.2, .token (.punct p), change⟩

/-- The kind of a number of the third form, from its characters alone. Model of
    `classify_decimal`. -/
def decimalKind (cs : Text) : TokenKind :=
  if cs.getLast?.any fun c => c == 'd' || c == 'D' then .fixedPoint
  else if cs.any fun c => c == '.' || c == 'e' || c == 'E' then .floating
  else .integer

namespace Rule

/-- Numbers and quoted literals. -/
def literals : List Rule :=
  [⟨.octal, .token .integer, .stay⟩, ⟨.hexadecimal, .token .integer, .stay⟩,
    ⟨.decimal, .number, .stay⟩, ⟨.quoted '\'', .token .character, .stay⟩,
    ⟨.quoted '"', .token .string, .stay⟩]

/-- The rules that belong to a mode. Only the ordinary mode knows keywords. -/
def ofMode : Mode → List Rule
  | .ordinary =>
    [⟨.blanks, .nothing, .stay⟩, ⟨.mark '%' ['{'], .nothing, .enter .fragment⟩,
      ⟨.word, .word, .stay⟩] ++ literals ++ Punct.all.map (·.rule)
  | .properties =>
    [⟨.blanks, .nothing, .stay⟩, ⟨.propertyArgs, .token .propertyArgs, .stay⟩,
      Punct.closeBracket.rule .leave, ⟨.word, .token .identifier, .stay⟩] ++ literals ++
      [Punct.equal.rule, Punct.comma.rule]
  | .native =>
    [⟨.blanks, .nothing, .stay⟩, ⟨.word, .token .identifier, .stay⟩,
      Punct.semicolon.rule .leave, Punct.openParen.rule (.switch .nativeType)]
  | .nativeType =>
    [Punct.closeParen.rule .leave, ⟨.nativeType, .token .nativeType, .stay⟩]
  | .fragment => [⟨.fragmentBody, .token .fragment, .switch .fragmentEnd⟩]
  | .fragmentEnd => [⟨.mark '%' ['}'], .nothing, .leave⟩]

/-- The rules that hold in every mode. -/
def general : List Rule :=
  [⟨.pragma, .pragma, .stay⟩, ⟨.lineMarker, .lineMarker, .stay⟩, ⟨.lineBreak, .nothing, .stay⟩,
    ⟨.lineComment, .nothing, .stay⟩, ⟨.blockComment, .nothing, .stay⟩]

/-- The rules in a mode. Those of the mode itself come first. Model of `rules_for`. -/
def inMode (mode : Mode) : List Rule := ofMode mode ++ general

/-- How many characters of a text a rule matches. -/
def length? (lineStart : Bool) (cs : Text) (r : Rule) : Option Nat :=
  r.pattern.length? lineStart cs

/-- The first rule with the longest match, and how many characters it matches. -/
def longestMatch (lineStart : Bool) (cs : Text) : List Rule → Option (Nat × Rule)
  | [] => none
  | r :: rs =>
    match r.length? lineStart cs, longestMatch lineStart cs rs with
    | none, best => best
    | some n, none => some (n, r)
    | some n, some (k, s) => if n < k then some (k, s) else some (n, r)

theorem longestMatch_mem {lineStart : Bool} {cs : Text} {rs : List Rule} {n : Nat} {r : Rule}
    (h : longestMatch lineStart cs rs = some (n, r)) :
    r ∈ rs ∧ r.length? lineStart cs = some n := by
  induction rs generalizing n r with
  | nil => cases h
  | cons s rs ih =>
    simp only [longestMatch] at h
    split at h
    · have := ih h
      exact ⟨List.mem_cons_of_mem _ this.1, this.2⟩
    next hs _ =>
      cases h
      exact ⟨List.mem_cons_self, hs⟩
    next hs hbest =>
      split at h
      · cases h
        have := ih hbest
        exact ⟨List.mem_cons_of_mem _ this.1, this.2⟩
      · cases h
        exact ⟨List.mem_cons_self, hs⟩

theorem longestMatch_eq_none_iff {lineStart : Bool} {cs : Text} {rs : List Rule} :
    longestMatch lineStart cs rs = none ↔ ∀ r ∈ rs, r.length? lineStart cs = none := by
  induction rs with
  | nil => simp [longestMatch]
  | cons s rs ih =>
    simp only [longestMatch, List.forall_mem_cons]
    split
    next hs => rw [ih, hs]; simp
    next hs _ => simp [hs]
    next hs _ =>
      split <;> simp [hs]

theorem length_le_of_longestMatch {lineStart : Bool} {cs : Text} {rs : List Rule} {n k : Nat}
    {r s : Rule} (h : longestMatch lineStart cs rs = some (n, r)) (hs : s ∈ rs)
    (hk : s.length? lineStart cs = some k) : k ≤ n := by
  induction rs generalizing n r with
  | nil => cases hs
  | cons t rs ih =>
    simp only [longestMatch] at h
    rcases List.mem_cons.1 hs with rfl | hs
    · rw [hk] at h
      split at h
      next heq => cases heq
      next heq _ => cases heq; cases h; exact Nat.le_refl _
      next heq _ =>
        cases heq
        split at h <;> cases h <;> omega
    · split at h
      · exact ih h hs
      next _ hnone =>
        rw [longestMatch_eq_none_iff] at hnone
        rw [hnone s hs] at hk
        cases hk
      next hbest =>
        have := ih hbest hs
        split at h <;> cases h <;> omega

end Rule

end IdlFrontend
