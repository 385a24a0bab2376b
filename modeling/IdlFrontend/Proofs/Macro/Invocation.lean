import IdlFrontend.Proofs.Lexeme.Whole
import IdlFrontend.Proofs.Macro.Mentions
import IdlFrontend.Proofs.Macro.Scoping

/-!
# Invocations with arguments

An invocation is written as the name of a macro and, behind blanks, its arguments in
parentheses. An argument may hold commas of its own inside further parentheses. Where no
macro is invoked in the arguments or in the body, an invocation expands to its body with
every parameter replaced by its argument. All are replaced at once: what an argument puts
in is no parameter, whatever its name.

Results:

* `expandHiding_append_kept`: lexemes at the front that expansion keeps or answers.
* `collectArguments_commas`: the arguments that are written are the arguments that are read.
* `substitute_fixed`: parameters are replaced by their arguments, each for itself.
* `expand_call`: what an invocation between other lexemes expands to.
-/

namespace IdlFrontend

namespace Lexeme

/-- An argument as it is written, without the blanks around it: its parentheses are
    balanced, and its commas stand inside of them. -/
structure IsArgument (ts : List Lexeme) : Prop where
  balanced : areArgument 0 ts
  oneLine : ∀ t ∈ ts, t.kind ≠ .newline
  first : ∀ t ∈ ts.head?, ¬t.isBlank
  last : ∀ t ∈ ts.getLast?, ¬t.isBlank

instance (ts : List Lexeme) : Decidable (IsArgument ts) :=
  decidable_of_iff (areArgument 0 ts ∧ (∀ t ∈ ts, t.kind ≠ .newline) ∧
    (∀ t ∈ ts.head?, ¬t.isBlank) ∧ ∀ t ∈ ts.getLast?, ¬t.isBlank)
    ⟨fun h => ⟨h.1, h.2.1, h.2.2.1, h.2.2.2⟩, fun h => ⟨h.1, h.2, h.3, h.4⟩⟩

/-- What a lexeme of a body becomes: its argument if it is a parameter. -/
def instantiate (names : List Text) (args : List (List Lexeme)) (t : Lexeme) : List Lexeme :=
  if t.kind = .word ∧ t.text ∈ names then args.getD (names.idxOf t.text) [] else [t]

end Lexeme

/-- An invocation with at least one argument, as it is written. -/
structure Call where
  name : Lexeme
  gap : List Lexeme
  opening : Lexeme
  first : List Lexeme
  /-- The later arguments, each with the comma in front of it. -/
  more : List (Lexeme × List Lexeme)
  closing : Lexeme
  isWord : name.kind = .word
  isGap : ∀ t ∈ gap, t.isBlank
  isOpening : opening.isPunct '('
  isComma : ∀ p ∈ more, p.1.isPunct ','
  isClosing : closing.isPunct ')'
  isArgument : ∀ a ∈ first :: more.map Prod.snd, Lexeme.IsArgument a

namespace Call

/-- The arguments in order. -/
def arguments (c : Call) : List (List Lexeme) := c.first :: c.more.map Prod.snd

/-- The lexemes behind the opening parenthesis. -/
def inner (c : Call) : List Lexeme := c.first ++ (c.more.flatMap fun p => p.1 :: p.2) ++ [c.closing]

/-- The lexemes of the invocation. -/
def lexemes (c : Call) : List Lexeme := c.name :: c.gap ++ c.opening :: c.inner

end Call

namespace MacroTable

open Lexeme

variable {table : MacroTable}

/-! ## Lexemes that stay -/

/-- Lexemes at the front stay, or are answered, whatever follows them, and what follows is
    expanded as if they were not there. -/
theorem expandHiding_append_kept {hidden : List Text} {f : Lexeme → Lexeme} {ts : List Lexeme}
    (h : ∀ t ∈ ts, ∀ us, table.front (t.text ∈ hidden) t us = .kept (f t)) (us : List Lexeme) :
    table.expandHiding table.macros.length hidden (ts ++ us) =
      (table.expandHiding table.macros.length hidden us).map (ts.map f ++ ·) := by
  induction ts with
  | nil =>
    rw [List.nil_append]
    cases table.expandHiding table.macros.length hidden us <;> rfl
  | cons t ts ih =>
    obtain ⟨ht, hts⟩ := List.forall_mem_cons.1 h
    have hstep := expandHiding_cons table hidden t (ts ++ us)
    dsimp only at hstep
    rw [List.cons_append, hstep, ht, ih hts]
    cases table.expandHiding table.macros.length hidden us <;> rfl

/-- Lexemes that all stay, or are answered. -/
theorem expandHiding_kept {hidden : List Text} {f : Lexeme → Lexeme} {ts : List Lexeme}
    (h : ∀ t ∈ ts, ∀ us, table.front (t.text ∈ hidden) t us = .kept (f t)) :
    table.expandHiding table.macros.length hidden ts = .ok (ts.map f) := by
  have happend := expandHiding_append_kept h []
  rw [List.append_nil, expandHiding_nil] at happend
  rw [happend, Except.map, List.append_nil]

/-- A word that is no macro stays, or is answered. -/
theorem front_of_undefined {t : Lexeme} (h : t.kind = .word → table.find? t.text = none)
    (ts : List Lexeme) : table.front (t.text ∈ ([] : List Text)) t ts = .kept t.answerLine := by
  unfold front answerLine
  by_cases hword : t.kind = .word
  · rw [if_neg (by simpa using hword), h hword]
    simp only [hword, true_and]
  · rw [if_pos (Or.inl hword), if_neg fun hline => hword hline.1]

/-- A word that is hidden, or that there is nothing to do with, stays. -/
theorem front_of_settled {hidden : List Text} {t : Lexeme}
    (h : t.text ∉ hidden → table.IsSettled t) (ts : List Lexeme) :
    table.front (t.text ∈ hidden) t ts = .kept t := by
  unfold front
  by_cases hstays : t.kind ≠ .word ∨ t.text ∈ hidden
  · rw [if_pos (by simpa using hstays)]
  · obtain ⟨hword, hnew⟩ := not_or.1 hstays
    obtain ⟨hnone, hline⟩ := h hnew (Decidable.not_not.1 hword)
    rw [if_neg (by simpa using hstays), hnone]
    dsimp only
    rw [if_neg hline]

/-! ## Reading arguments -/

theorem isPunct_iff_of_isPunct {t : Lexeme} {c : Char} (h : t.isPunct c) (d : Char) :
    t.isPunct d ↔ c = d := by
  simp only [isPunct, Bool.and_eq_true, beq_iff_eq] at h ⊢
  simp [h]

/-- Arguments with commas between them are read as they are written, up to the
    parenthesis that closes them. -/
theorem collectArguments_commas {first : List Lexeme} {more : List (Lexeme × List Lexeme)}
    {closing : Lexeme} (harg : ∀ a ∈ first :: more.map Prod.snd, IsArgument a)
    (hcomma : ∀ p ∈ more, p.1.isPunct ',') (hclosing : closing.isPunct ')') (ts : List Lexeme) :
    collectArguments 0 (first ++ ((more.flatMap fun p => p.1 :: p.2) ++ closing :: ts)) =
      some ⟨first, more.map Prod.snd, ts⟩ := by
  induction more generalizing first with
  | nil =>
    obtain ⟨hfirst, -⟩ := List.forall_mem_cons.1 harg
    rw [collectArguments_append hfirst.balanced hfirst.oneLine, List.flatMap_nil, List.nil_append,
      collectArguments, if_neg (by simp [isPunct_iff_of_isPunct hclosing]), if_pos hclosing]
    simp
  | cons p more ih =>
    obtain ⟨comma, a⟩ := p
    obtain ⟨hfirst, harg⟩ := List.forall_mem_cons.1 harg
    obtain ⟨hp, hcomma⟩ := List.forall_mem_cons.1 hcomma
    have hrest := ih harg hcomma
    rw [collectArguments_append hfirst.balanced hfirst.oneLine, List.flatMap_cons, List.cons_append,
      List.cons_append, collectArguments, if_neg (by simp [isPunct_iff_of_isPunct hp]),
      if_neg (by simp [isPunct_iff_of_isPunct hp]), if_pos (by simp [hp]), List.append_assoc, hrest]
    simp [ArgumentList.consEmpty]

/-- An invocation with as many arguments as the macro has parameters is an invocation with
    these arguments, whatever follows it. -/
theorem front_call {c : Call} {m : Macro} {names : List Text}
    (hfind : table.find? c.name.text = some m) (hparameters : m.parameters = .fixed names)
    (hcount : c.arguments.length = names.length) (ts : List Lexeme) :
    table.front (c.name.text ∈ ([] : List Text)) c.name (c.gap ++ c.opening :: c.inner ++ ts) =
      .invocation m c.arguments ts := by
  have hopen : afterOpening? (c.gap ++ c.opening :: c.inner ++ ts) = some (c.inner ++ ts) := by
    have hstop : ¬c.opening.isBlank := by simp [isBlank_of_isPunct c.isOpening]
    rw [afterOpening?, List.append_assoc, List.cons_append,
      List.dropWhile_append_of_pos c.isGap, List.dropWhile_cons_of_neg hstop]
    exact if_pos c.isOpening
  have hcollect : collectArguments 0 (c.inner ++ ts) = some ⟨c.first, c.more.map Prod.snd, ts⟩ := by
    rw [Call.inner, List.append_assoc, List.append_assoc]
    exact collectArguments_commas c.isArgument c.isComma c.isClosing ts
  have hvalues : (⟨c.first, c.more.map Prod.snd, ts⟩ : ArgumentList).values = c.arguments :=
    (List.map_congr_left fun a ha =>
      stripBlank_eq_self (c.isArgument a ha).first (c.isArgument a ha).last).trans (List.map_id _)
  have hbound : bindArguments m c.arguments c.name.line = .ok c.arguments := by
    have hsome : names.isEmpty = false := by
      cases names with
      | nil => cases hcount
      | cons => rfl
    rw [bindArguments, hparameters]
    dsimp only
    rw [hsome, Bool.false_and, if_neg (by simp), if_pos hcount]
  have hvisible : ¬(c.name.kind ≠ .word ∨ decide (c.name.text ∈ ([] : List Text)) = true) := by
    simp [c.isWord]
  rw [front, if_neg hvisible, hfind]
  dsimp only
  rw [if_neg (by simp [hparameters]), hopen]
  dsimp only
  rw [hcollect]
  dsimp only
  rw [hvalues, hbound]

/-! ## Replacing parameters -/

/-- What a parameter is bound to is the argument at its place. -/
theorem lookup_zip {names : List Text} {args : List (List Lexeme)}
    (hcount : args.length = names.length) (name : Text) :
    (names.zip args).lookup name =
      if name ∈ names then some (args.getD (names.idxOf name) []) else none := by
  induction names generalizing args with
  | nil => rfl
  | cons n names ih =>
    cases args with
    | nil => cases hcount
    | cons a args =>
      rw [List.zip_cons_cons, List.lookup_cons, ih (Nat.succ.inj hcount)]
      by_cases hname : name = n
      · subst hname
        simp
      · have hother : (name == n) = false := beq_eq_false_iff_ne.2 hname
        rw [hother, List.idxOf_cons_ne _ (Ne.symm hname)]
        simp [hname]

/-- The body with every parameter replaced by its argument, on the line of the invocation. -/
theorem substitute_fixed {m : Macro} {names : List Text} (hparameters : m.parameters = .fixed names)
    {args : List (List Lexeme)} (hcount : args.length = names.length) (line : Nat) :
    substitute m args line = restamp line (m.body.flatMap (instantiate names args)) := by
  rw [substitute, restamp, List.map_flatMap, hparameters]
  congr 1
  funext t
  dsimp only [Parameters.names]
  rw [instantiate, lookup_zip hcount]
  by_cases hparameter : t.kind = .word ∧ t.text ∈ names
  · rw [if_pos hparameter.1, if_pos hparameter.2, if_pos hparameter]
    rfl
  · rw [if_neg hparameter, ← ite_and, if_neg hparameter]
    rfl

/-- What stands in a body after that is a lexeme of an argument, or one that is no parameter. -/
theorem mem_of_mem_instantiate {names : List Text} {args : List (List Lexeme)}
    (hcount : args.length = names.length) {t u : Lexeme} (h : u ∈ instantiate names args t) :
    (∃ a ∈ args, u ∈ a) ∨ u = t ∧ (t.kind = .word → t.text ∉ names) := by
  unfold instantiate at h
  split at h
  next hparameter =>
    have hindex : names.idxOf t.text < args.length := by
      rw [hcount]
      exact List.idxOf_lt_length_of_mem hparameter.2
    rw [List.getD_eq_getElem?_getD, List.getElem?_eq_getElem hindex, Option.getD_some] at h
    exact Or.inl ⟨_, List.getElem_mem hindex, h⟩
  next hother => exact Or.inr ⟨List.mem_singleton.1 h, fun hword hmem => hother ⟨hword, hmem⟩⟩

/-- **The parameters of a macro are replaced by the arguments of an invocation, all at
    once.** If the arguments mention neither macros nor `__LINE__`, and the body does not
    but for its parameters and the macro itself, then an invocation becomes the body with
    each parameter replaced by the whole argument at its place, on the line of the
    invocation. The lexemes around it stay if they mention no macro, where `__LINE__` is
    answered as ever. -/
theorem expand_call {c : Call} {m : Macro} {names : List Text} {before after : List Lexeme}
    (hfind : table.find? c.name.text = some m) (hparameters : m.parameters = .fixed names)
    (hcount : c.arguments.length = names.length)
    (harguments : ∀ a ∈ c.arguments, ∀ t ∈ a, table.IsSettled t)
    (hbody : ∀ t ∈ m.body, t.text ∉ names → t.text ≠ m.name → table.IsSettled t)
    (haround : ∀ t ∈ before ++ after, t.kind = .word → table.find? t.text = none) :
    table.expand (before ++ c.lexemes ++ after) =
      .ok (before.map answerLine ++
        restamp c.name.line (m.body.flatMap (instantiate names c.arguments)) ++
        after.map answerLine) := by
  obtain ⟨hbefore, hafter⟩ := List.forall_mem_append.1 haround
  have harg (a : List Lexeme) (ha : a ∈ c.arguments) :
      table.expandHiding table.macros.length [] a = .ok a :=
    (expandHiding_kept fun t ht => front_of_settled fun _ => harguments a ha t ht).trans
      (congrArg _ (List.map_id a))
  have hargs : c.arguments.mapM (table.expandHiding table.macros.length []) = .ok c.arguments := by
    rw [mapM_congr harg]
    exact List.mapM_pure.trans (congrArg _ (List.map_id _))
  -- Only the macro itself is left to expand in what was put in, and there it is hidden.
  have hinside : ∀ t ∈ substitute m c.arguments c.name.line, t.text ∉ [m.name] →
      table.IsSettled t := by
    rw [substitute_fixed hparameters hcount]
    intro v hv hother
    obtain ⟨u, hu, rfl⟩ := List.mem_map.1 hv
    obtain ⟨t, ht, hu⟩ := List.mem_flatMap.1 hu
    rcases mem_of_mem_instantiate hcount hu with ⟨a, ha, hu⟩ | ⟨rfl, hparameter⟩
    · exact harguments a ha u hu
    · intro hword
      exact hbody u ht (hparameter hword) (by simpa using hother) hword
  have hcall : table.expandHiding table.macros.length [] (c.lexemes ++ after) =
      .ok (substitute m c.arguments c.name.line ++ after.map answerLine) := by
    have hstep := expandHiding_cons table [] c.name (c.gap ++ c.opening :: c.inner ++ after)
    dsimp only at hstep
    rw [front_call hfind hparameters hcount] at hstep
    dsimp only at hstep
    rw [hargs, expandHiding_kept (fun t ht => front_of_undefined (hafter t ht))] at hstep
    have hrescan := expandHiding_kept (f := id) fun t ht => front_of_settled (hinside t ht)
    refine hstep.trans ?_
    show (table.expandHiding table.macros.length [m.name]
      (substitute m c.arguments c.name.line) >>= _) = _
    rw [hrescan, List.map_id]
    rfl
  rw [expand, List.append_assoc, expandHiding_append_kept
    fun t ht => front_of_undefined (hbefore t ht), hcall, ← substitute_fixed hparameters hcount]
  exact congrArg Except.ok (List.append_assoc _ _ _).symm

/-- `F(y, (x, 1))` with the parameters `x` and `y`: the arguments mention the parameters,
    the body mentions `F`. -/
theorem expand_call_crossed :
    let word (name : Text) : Lexeme := ⟨.word, name, 1⟩
    let punct (c : Char) : Lexeme := ⟨.punctuation, [c], 1⟩
    let space : Lexeme := ⟨.space, [' '], 1⟩
    let m : Macro := ⟨['F'], .fixed [['x'], ['y']],
      [word ['x'], space, word ['y'], word ['F'], word ['x']]⟩
    let table : MacroTable := ⟨[m]⟩
    let pair : List Lexeme := [punct '(', word ['x'], punct ',', ⟨.number, ['1'], 1⟩, punct ')']
    let invocation : List Lexeme :=
      word ['F'] :: [space] ++ punct '(' :: ([word ['y']] ++ [punct ','] ++ pair ++ [punct ')'])
    table.expand ([word "__LINE__".toList] ++ invocation ++ [word ['x']]) =
      .ok ([⟨.number, ['1'], 1⟩, word ['y'], space] ++ pair ++ [word ['F'], word ['y'],
        word ['x']]) := by
  intro word punct space m table pair invocation
  let c : Call := {
    name := word ['F']
    gap := [space]
    opening := punct '('
    first := [word ['y']]
    more := [(punct ',', pair)]
    closing := punct ')'
    isWord := rfl
    isGap := by decide
    isOpening := rfl
    isComma := by decide
    isClosing := rfl
    isArgument := by decide }
  have hfind : table.find? c.name.text = some m := rfl
  have hparameters : m.parameters = .fixed [['x'], ['y']] := rfl
  have haround : ∀ t ∈ [word "__LINE__".toList] ++ [word ['x']],
      t.kind = .word → table.find? t.text = none := by decide
  exact (expand_call hfind hparameters rfl (by decide) (by decide) haround).trans
    (congrArg Except.ok (by decide))

end MacroTable

end IdlFrontend
