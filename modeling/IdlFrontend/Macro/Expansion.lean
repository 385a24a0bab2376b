import IdlFrontend.Macro.Table

/-!
# Macro expansion

Expansion goes over a list of lexemes from left to right. A macro's body takes
the place of its invocation and is gone over again with the macro's own name
hidden, so that a macro is never expanded inside its own expansion. Arguments
are expanded before they are put into the body. Every lexeme that an expansion
produces stands on the line of the name that was invoked.

Results:

* `collectArguments_length`: the arguments of an invocation, their separators
  and what follows make up the lexemes behind the opening parenthesis.
* `length_le_of_mem_bindArguments`: no argument is longer than the argument
  list it comes from, which is why expanding arguments ends.
-/

namespace IdlFrontend

namespace MacroTable

/-! ## Invocations -/

/-- What follows an opening parenthesis, if nothing but blanks stands before it. -/
def afterOpening? (ts : List Lexeme) : Option (List Lexeme) :=
  match ts.dropWhile Lexeme.isBlank with
  | t :: rest => if t.isPunct '(' then some rest else none
  | [] => none

/-- An argument list cut at its commas, and the lexemes behind it. -/
structure ArgumentList where
  first : List Lexeme
  more : List (List Lexeme)
  rest : List Lexeme

namespace ArgumentList

/-- The list with one more lexeme at the front of the first argument. -/
def cons (t : Lexeme) (as : ArgumentList) : ArgumentList := { as with first := t :: as.first }

/-- The list with an empty argument in front. -/
def consEmpty (as : ArgumentList) : ArgumentList := ⟨[], as.first :: as.more, as.rest⟩

/-- The arguments, without the blanks around them. -/
def values (as : ArgumentList) : List (List Lexeme) :=
  (as.first :: as.more).map Lexeme.stripBlank

end ArgumentList

/-- The arguments up to the `)` that closes the list, or `none` if the list is not closed. `depth`
    counts the parentheses that are open inside an argument; commas inside them separate nothing.
    A line feed counts as a space. Model of `collect_args`. -/
def collectArguments (depth : Nat) : List Lexeme → Option ArgumentList
  | [] => none
  | t :: ts =>
    if t.isPunct '(' then (collectArguments (depth + 1) ts).map (.cons t)
    else if t.isPunct ')' then
      match depth with
      | 0 => some ⟨[], [], ts⟩
      | depth + 1 => (collectArguments depth ts).map (.cons t)
    else if t.isPunct ',' && depth == 0 then (collectArguments depth ts).map .consEmpty
    else
      (collectArguments depth ts).map
        (.cons (if t.kind = .newline then Lexeme.spaceAt t.line else t))

/-- The surplus arguments of a variadic macro as one argument. -/
def joinSurplus (line : Nat) (args : List (List Lexeme)) : List Lexeme :=
  List.intercalate [⟨.punctuation, [','], line⟩] args

/-- One argument for each parameter of the macro. Model of `bind_args`. -/
def bindArguments (m : Macro) (args : List (List Lexeme)) (line : Nat) :
    Except PreprocessError (List (List Lexeme)) :=
  match m.parameters with
  | .none => .ok []
  | .fixed names =>
    if names.isEmpty && args == [[]] then .ok []
    else if args.length = names.length then .ok args
    else .error ⟨.argumentCount m.name names.length args.length, line⟩
  | .variadic leading _ =>
    if args.length < leading.length then
      .error ⟨.argumentCount m.name (leading.length + 1) args.length, line⟩
    else
      .ok (args.take leading.length ++ [joinSurplus line (args.drop leading.length)])

/-- The body of the macro with every parameter replaced by its argument, all on
    the line of the invocation. -/
def substitute (m : Macro) (args : List (List Lexeme)) (line : Nat) : List Lexeme :=
  m.body.flatMap fun t =>
    match if t.kind = .word then (m.parameters.names.zip args).lookup t.text else none with
    | some arg => Lexeme.restamp line arg
    | none => [{ t with line }]

/-! ## Why expanding arguments ends -/

/-- The room that arguments take in an argument list: each of them stands before
    a comma or before the closing parenthesis. -/
def room : List (List Lexeme) → Nat
  | [] => 0
  | a :: args => a.length + 1 + room args

theorem collectArguments_length {depth : Nat} {ts : List Lexeme} {as : ArgumentList}
    (h : collectArguments depth ts = some as) :
    room (as.first :: as.more) + as.rest.length = ts.length := by
  fun_induction collectArguments depth ts generalizing as with
  | case1 => cases h
  | case2 depth t ts _ ih =>
    obtain ⟨bs, hbs, rfl⟩ := Option.map_eq_some_iff.1 h
    have := ih hbs
    simp [room, ArgumentList.cons] at this ⊢
    omega
  | case3 t ts _ _ =>
    cases h
    simp [room]
    omega
  | case4 t ts _ _ depth ih =>
    obtain ⟨bs, hbs, rfl⟩ := Option.map_eq_some_iff.1 h
    have := ih hbs
    simp [room, ArgumentList.cons] at this ⊢
    omega
  | case5 depth t ts _ _ _ ih =>
    obtain ⟨bs, hbs, rfl⟩ := Option.map_eq_some_iff.1 h
    have := ih hbs
    simp [room, ArgumentList.consEmpty] at this ⊢
    omega
  | case6 depth t ts _ _ _ ih =>
    obtain ⟨bs, hbs, rfl⟩ := Option.map_eq_some_iff.1 h
    have := ih hbs
    simp [room, ArgumentList.cons] at this ⊢
    omega

theorem room_map_stripBlank_le (args : List (List Lexeme)) :
    room (args.map Lexeme.stripBlank) ≤ room args := by
  induction args with
  | nil => simp
  | cons a args ih =>
    have := Lexeme.length_stripBlank_le a
    simp only [room, List.map_cons]
    omega

theorem length_le_room {args : List (List Lexeme)} {a : List Lexeme} (h : a ∈ args) :
    a.length ≤ room args := by
  induction args with
  | nil => cases h
  | cons b args ih =>
    simp only [room]
    rcases List.mem_cons.1 h with rfl | h
    · omega
    · have := ih h
      omega

theorem room_take_add_room_drop (n : Nat) (args : List (List Lexeme)) :
    room (args.take n) + room (args.drop n) = room args := by
  induction args generalizing n with
  | nil => simp [room]
  | cons a args ih =>
    cases n with
    | zero => simp [room]
    | succ n =>
      simp only [List.take_succ_cons, List.drop_succ_cons, room]
      have := ih n
      omega

theorem length_joinSurplus_le (line : Nat) (args : List (List Lexeme)) :
    (joinSurplus line args).length ≤ room args := by
  induction args with
  | nil => simp [joinSurplus]
  | cons a args ih =>
    cases args with
    | nil => simp [joinSurplus, room]
    | cons b args =>
      simp [joinSurplus, room] at ih ⊢
      omega

theorem length_le_of_mem_bindArguments {m : Macro} {args bound : List (List Lexeme)} {line : Nat}
    {a : List Lexeme} (h : bindArguments m args line = .ok bound) (ha : a ∈ bound) :
    a.length ≤ room args := by
  unfold bindArguments at h
  split at h
  · cases h
    cases ha
  · split at h
    · cases h
      cases ha
    · split at h
      · cases h
        exact length_le_room ha
      · cases h
  next leading _ _ =>
    split at h
    · cases h
    · cases h
      rcases List.mem_append.1 ha with ha | ha
      · exact length_le_room (List.mem_of_mem_take ha)
      · cases List.mem_singleton.1 ha
        refine Nat.le_trans (length_joinSurplus_le _ _) ?_
        rw [← room_take_add_room_drop leading.length args]
        exact Nat.le_add_left _ _

theorem length_afterOpening?_lt {ts inner : List Lexeme} (h : afterOpening? ts = some inner) :
    inner.length < ts.length := by
  unfold afterOpening? at h
  have hle := (List.dropWhile_suffix Lexeme.isBlank (l := ts)).length_le
  split at h
  next t rest heq =>
    split at h
    · cases h
      rw [heq, List.length_cons] at hle
      omega
    · cases h
  · cases h

/-! ## Expansion -/

/-- One pass over the lexemes of a line. Names in `hidden` are left alone; `rescan name` goes over
    the body put in the place of an invocation of `name`. `__LINE__` stands for the line it is on,
    unless it is defined as a macro. Model of one call of `expand_with`. -/
def sweep (table : MacroTable) (hidden : List Text)
    (rescan : Text → List Lexeme → Except PreprocessError (List Lexeme)) :
    List Lexeme → Except PreprocessError (List Lexeme)
  | [] => .ok []
  | t :: ts =>
    let keep (t : Lexeme) : Except PreprocessError (List Lexeme) :=
      (sweep table hidden rescan ts).map (t :: ·)
    if t.kind ≠ .word ∨ t.text ∈ hidden then keep t
    else match table.find? t.text with
      | none =>
        if t.text = "__LINE__".toList then keep ⟨.number, Text.ofNat t.line, t.line⟩ else keep t
      | some m =>
        if m.parameters = .none then
          match rescan m.name (Lexeme.restamp t.line m.body) with
          | .error e => .error e
          | .ok body => (sweep table hidden rescan ts).map (body ++ ·)
        else match _hopen : afterOpening? ts with
          | none => keep t
          | some inner =>
            match _hargs : collectArguments 0 inner with
            | none => .error ⟨.unterminatedCall m.name, t.line⟩
            | some args =>
              match _hbind : bindArguments m args.values t.line with
              | .error e => .error e
              | .ok bound =>
                match bound.attach.mapM fun a => sweep table hidden rescan a.1 with
                | .error e => .error e
                | .ok expanded =>
                  match rescan m.name (substitute m expanded t.line) with
                  | .error e => .error e
                  | .ok body => (sweep table hidden rescan args.rest).map (body ++ ·)
termination_by ts => ts.length
decreasing_by
  · simp
  · simp
  · have h₁ := length_afterOpening?_lt _hopen
    have h₂ := collectArguments_length _hargs
    have h₃ := length_le_of_mem_bindArguments _hbind a.2
    have h₄ := room_map_stripBlank_le (args.first :: args.more)
    rw [ArgumentList.values] at h₃
    rw [List.length_cons]
    omega
  · have h₁ := length_afterOpening?_lt _hopen
    have h₂ := collectArguments_length _hargs
    rw [List.length_cons]
    omega

/-- The lexemes with every invocation expanded whose macro is not hidden, where bodies are gone
    over again at most `levels` deep. Each level hides one more macro, so as many levels as there
    are macros always suffice. Model of `expand_with`. -/
def expandHiding (table : MacroTable) :
    (levels : Nat) → (hidden : List Text) → List Lexeme → Except PreprocessError (List Lexeme)
  | 0, hidden => sweep table hidden fun _ ts => .ok ts
  | levels + 1, hidden =>
    sweep table hidden fun name ts => expandHiding table levels (name :: hidden) ts

/-- The lexemes with every macro invocation expanded. Model of `expand`. -/
def expand (table : MacroTable) (ts : List Lexeme) : Except PreprocessError (List Lexeme) :=
  table.expandHiding table.macros.length [] ts

end MacroTable

end IdlFrontend
