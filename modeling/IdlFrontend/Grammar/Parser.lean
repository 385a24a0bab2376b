import IdlFrontend.Grammar.Error

/-!
# Parsers

A parser takes tokens from a lexer, of which at most one is read ahead. Taking a
token never reads the next one, so that the mode of the lexer can be changed in
between.

Loops and nested constructs recurse by `recurse`. Each round of it must read
something, and a bound on what is left to read bounds the rounds.

Results:

* `unread_peek?_le`, `unread_take_lt`: looking ahead leaves no more to read, and
  taking a token leaves less.
-/

namespace IdlFrontend

/-- What a parser works on. Model of `Parser`. -/
structure TokenStream where
  lexer : Lexer
  /-- The token that is read ahead. -/
  ahead : Option Token := none
  /-- The line of the last token taken. -/
  lastLine : UInt64 := 1
  /-- The number of template brackets that are open. Within them, two closing ones
      can be written as one token. -/
  openAngles : Nat := 0
deriving DecidableEq, Repr

namespace TokenStream

/-- The line of the next token if it is read ahead, and of the last one if not. Model of `line`. -/
def line (s : TokenStream) : UInt64 := (s.ahead.map Token.line).getD s.lastLine

/-- What a token that is read ahead counts for. A double angle counts for two. -/
def weight : Option Token → Nat
  | none => 0
  | some t => if t.kind = .punct .shiftRight then 2 else 1

/-- A bound on what is left to read. A token counts for less ahead than it did in
    the text. -/
def unread (s : TokenStream) : Nat := 3 * s.lexer.work + weight s.ahead

end TokenStream

/-- A parser. What it read before it failed remains read. -/
abbrev Parser := ExceptT ParseError (StateM TokenStream)

namespace Parser

/-- What a parser makes of a stream, and what it leaves of it. -/
def run (p : Parser α) (s : TokenStream) : Except ParseError α × TokenStream :=
  StateT.run (ExceptT.run p) s

/-! ## Failing -/

/-- Fails at the line of the next token. Model of `error`. -/
def fail (fault : SyntaxFault) : Parser α := do
  throw (.grammar ⟨fault, some (← get).line⟩)

/-- Fails because the text ends. Model of `unexpected_end`. -/
def failAtEnd : Parser α := throw (.grammar ⟨.unexpectedEnd, none⟩)

/-! ## Tokens -/

/-- The next token, which is read ahead. There is none at the end of the text. Model of `peek`. -/
def peek? : Parser (Option Token) := do
  let s ← get
  match s.ahead with
  | some t => return some t
  | none => match s.lexer.next with
    | (.ok ahead, lexer) =>
      set { s with lexer, ahead }
      return ahead
    | (.error e, lexer) =>
      set { s with lexer }
      throw (.token e)

/-- The next token, which must be there. -/
def peek : Parser Token := do
  match ← peek? with
  | some t => return t
  | none => failAtEnd

/-- Takes the next token. Model of `advance`. -/
def take : Parser Token := do
  let t ← peek
  modify fun s => { s with ahead := none, lastLine := t.line }
  return t

/-- The kind of the next token, if there is one. Model of `peek_kind`. -/
def kind? : Parser (Option TokenKind) := return (← peek?).map Token.kind

/-- Whether the next token is of a kind. Model of `check`. -/
def isNext (kind : TokenKind) : Parser Bool := return (← kind?) == some kind

/-- Takes the next token if it is of a kind. Model of `match_token`. -/
def accept (kind : TokenKind) : Parser Bool := do
  if ← isNext kind then
    let _ ← take
    return true
  else return false

/-- Fails because of the next token. Model of `unexpected`. -/
def unexpected (expected : Expectation) : Parser α := do
  fail (.unexpected expected (← peek).text)

/-- Takes the next token, which must be of a kind. Model of `expect_token`. -/
def expect (kind : TokenKind) (place : String) : Parser Token := do
  if ← isNext kind then take else unexpected (.token kind place)

/-- Whether the next token is this punctuation. -/
def isPunct (p : Punct) : Parser Bool := isNext (.punct p)

/-- Takes this punctuation if it comes next. -/
def acceptPunct (p : Punct) : Parser Bool := accept (.punct p)

/-- Takes this punctuation, which must come next. -/
def expectPunct (p : Punct) (place : String) : Parser Unit := discard (expect (.punct p) place)

/-- Whether the next token is this keyword. -/
def isKeyword (k : Keyword) : Parser Bool := isNext (.keyword k)

/-- Takes this keyword if it comes next. -/
def acceptKeyword (k : Keyword) : Parser Bool := accept (.keyword k)

/-- Takes this keyword, which must come next. -/
def expectKeyword (k : Keyword) (place : String) : Parser Unit :=
  discard (expect (.keyword k) place)

/-- Takes an identifier, which must come next. Model of `expect_identifier`. -/
def identifier (place : String) : Parser Text := return (← expect .identifier place).text

/-- Takes an identifier if one comes next. -/
def identifier? : Parser (Option Text) := do
  if ← isNext .identifier then return some (← take).text else return none

/-! ## Template brackets -/

/-- Counts a template bracket that was just opened. -/
def enterAngle : Parser Unit := modify fun s => { s with openAngles := s.openAngles + 1 }

/-- Closes a template bracket. Of a double angle only the first half is taken. Model of
    `expect_closing_angle`. -/
def closeAngle (place : String) : Parser Unit := do
  modify fun s => { s with openAngles := s.openAngles - 1 }
  match ← peek? with
  | some t =>
    if t.kind = .punct .shiftRight then
      let half : Token := { t with kind := .punct .greater, text := ['>'] }
      modify fun s => { s with ahead := some half, lastLine := t.line }
    else expectPunct .greater place
  | none => failAtEnd

/-- Runs a parser in parentheses, where no template bracket counts as open. -/
def shielded (p : Parser α) : Parser α := do
  let outer := (← get).openAngles
  modify fun s => { s with openAngles := 0 }
  let a ← p
  modify fun s => { s with openAngles := outer }
  return a

/-! ## Recursion -/

/-- The parser `body` with itself in place of its argument, `depth` times. -/
def unfold (body : (ι → Parser α) → ι → Parser α) : (depth : Nat) → ι → Parser α
  | 0, _ => failAtEnd
  | depth + 1, i => body (unfold body depth) i

/-- The parser `body` with itself in place of its argument. A round that has read
    something has less left to read, so there is always a round left for what
    remains. -/
def recurse (body : (ι → Parser α) → ι → Parser α) (i : ι) : Parser α := do
  unfold body ((← get).unread + 1) i

/-- A round of the repetition of a parser. -/
def manyRound (item : Parser (Option α)) (more : Unit → Parser (List α)) (_ : Unit) :
    Parser (List α) := do
  match ← item with
  | none => return []
  | some a => return a :: (← more ())

/-- Reads items until there is none. -/
def many (item : Parser (Option α)) : Parser (List α) := recurse (manyRound item) ()

/-- An item, unless the closing token comes next. -/
def itemUntil (close : Punct) (item : Parser α) : Parser (Option α) := do
  if ← acceptPunct close then return none else return some (← item)

/-- Reads items up to a closing token, which is taken. -/
def manyUntil (close : Punct) (item : Parser α) : Parser (List α) := many (itemUntil close item)

/-- An item behind a comma. -/
def itemAfterComma (item : Parser α) : Parser (Option α) := do
  if ← acceptPunct .comma then return some (← item) else return none

/-- Reads the items behind the first one of a list with commas. -/
def commaMore (item : Parser α) : Parser (List α) := many (itemAfterComma item)

/-- Reads a list of at least one item with commas between them. -/
def commaList (item : Parser α) : Parser (List α) := return (← item) :: (← commaMore item)

/-! ## Runs -/

@[simp] theorem run_pure (a : α) (s : TokenStream) : run (pure a) s = (.ok a, s) := rfl

@[simp] theorem run_map (f : α → β) (p : Parser α) (s : TokenStream) :
    run (f <$> p) s = ((run p s).1.map f, (run p s).2) := by
  show (match StateT.run (ExceptT.run p) s with
    | (r, t) => StateT.run (ExceptT.bindCont (fun a => (pure (f a) : Parser β)) r) t) = _
  unfold run
  rcases StateT.run (ExceptT.run p) s with ⟨e | a, t⟩ <;> rfl

@[simp] theorem run_throw (e : ParseError) (s : TokenStream) :
    run (throw e : Parser α) s = (.error e, s) := rfl

@[simp] theorem run_get (s : TokenStream) : run get s = (.ok s, s) := rfl

@[simp] theorem run_set (s t : TokenStream) : run (set t) s = (.ok ⟨⟩, t) := rfl

@[simp] theorem run_modify (f : TokenStream → TokenStream) (s : TokenStream) :
    run (modify f) s = (.ok ⟨⟩, f s) := rfl

theorem run_bind (p : Parser α) (f : α → Parser β) (s : TokenStream) :
    run (p >>= f) s =
      match run p s with
      | (.ok a, t) => run (f a) t
      | (.error e, t) => (.error e, t) := by
  show (match StateT.run (ExceptT.run p) s with
    | (r, t) => StateT.run (ExceptT.bindCont f r) t) = _
  unfold run
  rcases StateT.run (ExceptT.run p) s with ⟨e | a, t⟩ <;> rfl

/-! ## Progress -/

theorem weight_le_two (ahead : Option Token) : TokenStream.weight ahead ≤ 2 := by
  unfold TokenStream.weight
  split
  · omega
  · split <;> omega

theorem run_peek? (s : TokenStream) :
    run peek? s =
      match s.ahead with
      | some t => (.ok (some t), s)
      | none => match s.lexer.next with
        | (.ok ahead, lexer) => (.ok ahead, { s with lexer, ahead })
        | (.error e, lexer) => (.error (.token e), { s with lexer }) := by
  unfold peek?
  rw [run_bind, run_get]
  cases hs : s.ahead with
  | some t => simp only [hs, run_pure]
  | none =>
    rcases hn : s.lexer.next with ⟨e | t, l⟩ <;> simp [hs, hn, run_bind, Except.map]

theorem unread_peek?_le (s : TokenStream) : (run peek? s).2.unread ≤ s.unread := by
  rw [run_peek?]
  cases hs : s.ahead with
  | some t => exact Nat.le_refl _
  | none =>
    have hle := Lexer.work_next_le s.lexer
    rcases hn : s.lexer.next with ⟨e | t, l⟩
    · rw [hn] at hle
      simp only [TokenStream.unread, hs] at hle ⊢
      omega
    · rw [hn] at hle
      cases t with
      | none =>
        simp only [TokenStream.unread, hs] at hle ⊢
        omega
      | some t =>
        have hlt := Lexer.work_next_lt (l := s.lexer) (t := t) (by rw [hn])
        have := weight_le_two (some t)
        rw [hn] at hlt
        simp only [TokenStream.unread, hs] at hlt ⊢
        omega

theorem run_take (s : TokenStream) :
    run take s =
      match run peek? s with
      | (.ok (some t), s') => (.ok t, { s' with ahead := none, lastLine := t.line })
      | (.ok none, s') => (.error (.grammar ⟨.unexpectedEnd, none⟩), s')
      | (.error e, s') => (.error e, s') := by
  unfold take peek
  rw [run_bind, run_bind]
  rcases run peek? s with ⟨e | t, s'⟩
  · rfl
  · cases t <;> rfl

theorem run_isNext (kind : TokenKind) (s : TokenStream) :
    run (isNext kind) s =
      match run peek? s with
      | (.ok t?, t) => (.ok (t?.map Token.kind == some kind), t)
      | (.error e, t) => (.error e, t) := by
  unfold isNext kind?
  rw [run_bind, run_bind]
  rcases run peek? s with ⟨e | t?, t⟩ <;> rfl

theorem ahead_of_peek? {s : TokenStream} {t : Option Token} (h : (run peek? s).1 = .ok t) :
    (run peek? s).2.ahead = t := by
  rw [run_peek?] at h ⊢
  cases hs : s.ahead with
  | some t => simp_all
  | none =>
    rcases hn : s.lexer.next with ⟨e | t, l⟩ <;> simp_all

theorem unread_take_lt {s : TokenStream} {t : Token} (h : (run take s).1 = .ok t) :
    (run take s).2.unread < s.unread := by
  have hle := unread_peek?_le s
  rw [run_take] at h ⊢
  rcases hp : run peek? s with ⟨e | t', s'⟩
  · simp [hp] at h
  · have hahead := ahead_of_peek? (s := s) (t := t') (by rw [hp])
    cases t' with
    | none => simp [hp] at h
    | some t' =>
      rw [hp] at hle hahead
      have hpos : 0 < TokenStream.weight (some t') := by
        unfold TokenStream.weight
        dsimp only
        split <;> omega
      simp only [TokenStream.unread] at hle hahead ⊢
      rw [hahead] at hle
      simp only [TokenStream.weight] at hle hpos ⊢
      omega

end Parser

end IdlFrontend
