import Mathlib.Data.Finset.Card
import IdlFrontend.Proofs.Macro.Records

/-!
# Expansion with checked positions

Arguments are bound to parameters by their number, and put into a body by their position. Here
every step of that is checked. A difference that falls below zero halts the expansion, and so
does a position with no argument. The table holds plain records, about which nothing is known
that the reader of definitions did not see to, and nothing bounds how deep expansion goes.

No check ever fails for a table that comes from definitions and removals. A variadic macro has a
parameter, so there is one to leave out when the others are counted, and what is bound has an
argument for each parameter.

Results:

* `MacroRecord.length_argumentsFor`: what is bound has an argument for each parameter.
* `MacroTable.argumentsFor_record`: for the record of a macro no check fails in binding.
* `MacroTable.expandWith_records`: the checked expansion is the expansion.
* `RecordTable.arguments_match_parameters`: the same of every table that changes lead to.
-/

namespace IdlFrontend

open Lexeme MacroTable

/-! ## Checked steps -/

/-- What keeps a checked expansion from a result. -/
inductive Halt where
  | reported (e : PreprocessError)
  /-- A difference that is below zero. -/
  | belowZero
  /-- A position with no argument. -/
  | outOfRange
deriving DecidableEq, Repr

/-- The difference of two numbers. -/
def difference (a b : Nat) : Except Halt Nat := if a < b then .error .belowZero else .ok (a - b)

/-- The argument at a position. -/
def argumentAt (args : List (List Lexeme)) (i : Nat) : Except Halt (List Lexeme) :=
  match args[i]? with
  | some arg => .ok arg
  | none => .error .outOfRange

theorem difference_add_one (n : Nat) : difference (n + 1) 1 = .ok n :=
  if_neg (Nat.not_lt.2 (Nat.le_add_left 1 n))

theorem mapError_bind {ε ε' α β : Type} (g : ε → ε') (x : Except ε α) (f : α → Except ε β) :
    (x >>= f).mapError g = x.mapError g >>= fun a => (f a).mapError g := by
  cases x <;> rfl

theorem mapError_map {ε ε' α β : Type} (g : ε → ε') (x : Except ε α) (f : α → β) :
    (x.map f).mapError g = (x.mapError g).map f := by
  cases x <;> rfl

theorem mapError_mapM {ε ε' α β : Type} (g : ε → ε') (as : List α) (f : α → Except ε β) :
    (as.mapM f).mapError g = as.mapM fun a => (f a).mapError g := by
  induction as with
  | nil => rfl
  | cons a as ih =>
    rw [List.mapM_cons, List.mapM_cons, mapError_bind]
    congr 1
    funext b
    rw [mapError_bind, ih]
    rfl

/-- A list of steps that all succeed has a result for each of them. -/
theorem length_of_mapM_eq_ok {ε α β : Type} {f : α → Except ε β} {as : List α} {bs : List β}
    (h : as.mapM f = .ok bs) : bs.length = as.length := by
  induction as generalizing bs with
  | nil =>
    cases h
    rfl
  | cons a as ih =>
    rw [List.mapM_cons] at h
    obtain ⟨b, -, h⟩ := exists_of_bind_eq_ok h
    obtain ⟨bs', hmore, h⟩ := exists_of_bind_eq_ok h
    cases h
    exact congrArg Nat.succ (ih hmore)

/-! ## Reading arguments -/

/-- The arguments up to the `)` that closes the list, where the depth is counted down with
    checks. -/
def collectChecked (depth : Nat) : List Lexeme → Except Halt (Option ArgumentList)
  | [] => .ok none
  | t :: ts =>
    if t.isPunct '(' then (collectChecked (depth + 1) ts).map (Option.map (.cons t))
    else if t.isPunct ')' then
      if depth = 0 then .ok (some ⟨[], [], ts⟩)
      else do
        let outer ← difference depth 1
        (collectChecked outer ts).map (Option.map (.cons t))
    else if t.isPunct ',' && depth == 0 then (collectChecked depth ts).map (Option.map .consEmpty)
    else
      (collectChecked depth ts).map
        (Option.map (.cons (if t.kind = .newline then spaceAt t.line else t)))

theorem collectChecked_eq (depth : Nat) (ts : List Lexeme) :
    collectChecked depth ts = .ok (collectArguments depth ts) := by
  induction ts generalizing depth with
  | nil => rfl
  | cons t ts ih =>
    rw [collectChecked, collectArguments.eq_def]
    dsimp only
    split
    · rw [ih]
      rfl
    split
    · cases depth with
      | zero => rfl
      | succ depth =>
        rw [if_neg (Nat.succ_ne_zero depth), difference_add_one]
        show (collectChecked depth ts).map _ = _
        rw [ih]
        rfl
    split <;> rw [ih] <;> rfl

/-! ## Binding arguments -/

namespace MacroRecord

/-- One argument for each of the parameters. A variadic macro takes as many arguments as it has
    parameters but for the last one, and the rest of them together. -/
def argumentsFor (r : MacroRecord) (names : List Text) (args : List (List Lexeme)) (line : Nat) :
    Except Halt (List (List Lexeme)) :=
  if names.isEmpty && args == [[]] then .ok []
  else if r.variadic then do
    let fixed ← difference names.length 1
    if args.length < fixed then
      .error (.reported ⟨.argumentCount r.name names.length args.length, line⟩)
    else .ok (args.take fixed ++ [joinSurplus line (args.drop fixed)])
  else if args.length = names.length then .ok args
  else .error (.reported ⟨.argumentCount r.name names.length args.length, line⟩)

variable {r : MacroRecord} {names : List Text} {args bound : List (List Lexeme)} {line : Nat}

/-- What is bound is what some macro binds, with as many parameters as there are names. -/
theorem exists_macro_of_argumentsFor (h : r.argumentsFor names args line = .ok bound) :
    ∃ m : Macro, m.parameters.names.length = names.length ∧
      bindArguments m args line = .ok bound := by
  unfold argumentsFor at h
  split at h
  next hempty =>
    cases h
    exact ⟨⟨r.name, .fixed names, []⟩, rfl, if_pos hempty⟩
  next hempty =>
  split at h
  · cases names with
    | nil => cases h
    | cons name names =>
      rw [List.length_cons, difference_add_one] at h
      refine ⟨⟨r.name, .variadic names name, []⟩, by simp [Parameters.names], ?_⟩
      rw [bindArguments]
      dsimp only [bind, Except.bind] at h ⊢
      split at h
      · cases h
      next henough =>
        cases h
        exact if_neg henough
  · split at h
    next hcount =>
      cases h
      refine ⟨⟨r.name, .fixed names, []⟩, rfl, ?_⟩
      rw [bindArguments]
      dsimp only
      rw [if_neg hempty, if_pos hcount]
    · cases h

end MacroRecord

/-- What is bound has an argument for each parameter. -/
theorem MacroTable.length_bindArguments {m : Macro} {args bound : List (List Lexeme)} {line : Nat}
    (h : bindArguments m args line = .ok bound) : bound.length = m.parameters.names.length := by
  unfold bindArguments at h
  split at h
  next hparameters =>
    cases h
    rw [hparameters]
    rfl
  next names hparameters =>
    rw [hparameters]
    split at h
    next hempty =>
      cases h
      obtain ⟨hnames, -⟩ := Bool.and_eq_true_iff.1 hempty
      rw [List.isEmpty_iff.1 hnames]
      rfl
    · split at h
      next hcount =>
        cases h
        exact hcount
      · cases h
  next leading rest hparameters =>
    rw [hparameters]
    split at h
    · cases h
    next henough =>
      cases h
      rw [List.length_append, List.length_take, Nat.min_eq_left (Nat.not_lt.1 henough)]
      show leading.length + 1 = (leading ++ [rest]).length
      rw [List.length_append, List.length_singleton]

namespace MacroRecord

variable {r : MacroRecord} {names : List Text} {args bound : List (List Lexeme)} {line : Nat}

/-- What is bound has an argument for each parameter, whatever record it is bound for. -/
theorem length_argumentsFor (h : r.argumentsFor names args line = .ok bound) :
    bound.length = names.length := by
  obtain ⟨m, hcount, hbind⟩ := exists_macro_of_argumentsFor h
  rw [length_bindArguments hbind, hcount]

/-- A variadic record without parameters is not well-formed, and has no parameter to leave out. -/
example : argumentsFor ⟨['F'], some [], true, []⟩ [] [[], []] 1 = .error .belowZero := rfl

/-! ## Replacing parameters -/

/-- What a lexeme of a body becomes: the argument at its position if it is a parameter. -/
def instantiate (r : MacroRecord) (args : List (List Lexeme)) (line : Nat) (t : Lexeme) :
    Except Halt (List Lexeme) :=
  match if t.kind = .word then (r.parameters.getD []).idxOf? t.text else none with
  | some i => (argumentAt args i).map (restamp line)
  | none => .ok [{ t with line }]

/-- The body with every parameter replaced by its argument, all on the line of the invocation. -/
def substitute (r : MacroRecord) (args : List (List Lexeme)) (line : Nat) :
    Except Halt (List Lexeme) :=
  (r.body.mapM (r.instantiate args line)).map List.flatten

/-- A parameter behind the arguments has nothing to be replaced by. -/
example : substitute ⟨['F'], some [['x']], false, [⟨.word, ['x'], 1⟩]⟩ [] 1 = .error .outOfRange :=
  rfl

end MacroRecord

/-- With an argument for each name, there is one at the position of every name. -/
theorem argumentAt_idxOf? {names : List Text} {args : List (List Lexeme)}
    (hcount : args.length = names.length) (name : Text) :
    (names.idxOf? name).map (argumentAt args) = ((names.zip args).lookup name).map .ok := by
  induction names generalizing args with
  | nil => rfl
  | cons n names ih =>
    cases args with
    | nil => cases hcount
    | cons a args =>
      rw [List.idxOf?_cons, List.zip_cons_cons, List.lookup_cons]
      by_cases hname : n = name
      · subst hname
        rw [beq_self_eq_true]
        rfl
      · rw [if_neg (by simpa using hname), beq_eq_false_iff_ne.2 (Ne.symm hname), Option.map_map]
        exact ih (Nat.succ.inj hcount)

namespace MacroTable

/-- For the record of a macro no check fails in binding. -/
theorem argumentsFor_record {m : Macro} {names : List Text}
    (hnames : m.parameters.list? = some names) (args : List (List Lexeme)) (line : Nat) :
    m.record.argumentsFor names args line = (bindArguments m args line).mapError .reported := by
  unfold MacroRecord.argumentsFor bindArguments Macro.record
  match hparameters : m.parameters with
  | .none =>
    rw [hparameters] at hnames
    cases hnames
  | .fixed names =>
    rw [hparameters] at hnames
    cases hnames
    dsimp only
    rw [if_neg (show ¬(Parameters.fixed names).isVariadic = true from Bool.false_ne_true)]
    split
    · rfl
    split <;> rfl
  | .variadic leading rest =>
    rw [hparameters] at hnames
    cases hnames
    dsimp only
    rw [if_neg (by simp), if_pos (show (Parameters.variadic leading rest).isVariadic = true
      from rfl), List.length_append, List.length_singleton, difference_add_one]
    dsimp only [bind, Except.bind]
    split <;> rfl

/-- With an argument for each parameter no position is out of range. -/
theorem substitute_record {m : Macro} {args : List (List Lexeme)}
    (hcount : args.length = m.parameters.names.length) (line : Nat) :
    m.record.substitute args line = .ok (substitute m args line) := by
  unfold MacroRecord.substitute Macro.record
  dsimp only
  rw [substitute, List.flatMap_def]
  refine congrArg (Except.map List.flatten) (Eq.trans (mapM_congr fun t _ => ?_) List.mapM_pure)
  have hargument := argumentAt_idxOf? hcount t.text
  unfold MacroRecord.instantiate
  dsimp only
  rw [Parameters.getD_list?]
  by_cases hword : t.kind = .word
  · rw [if_pos hword, if_pos hword]
    cases hlookup : (m.parameters.names.zip args).lookup t.text with
    | none =>
      rw [hlookup] at hargument
      rw [Option.map_eq_none_iff.1 hargument]
      rfl
    | some arg =>
      rw [hlookup] at hargument
      obtain ⟨i, hi, harg⟩ := Option.map_eq_some_iff.1 hargument
      rw [hi]
      dsimp only
      rw [harg]
      rfl
  · rw [if_neg hword, if_neg hword]
    rfl

end MacroTable

/-! ## Expansion -/

/-- What stands at the front of lexemes. -/
inductive RecordFront where
  /-- A lexeme that stays, or the number that `__LINE__` stands for. -/
  | kept (u : Lexeme)
  /-- An invocation with its arguments, and the lexemes behind it. -/
  | invocation (r : MacroRecord) (args : List (List Lexeme)) (rest : List Lexeme)

namespace RecordTable

/-- What `t` begins in front of `ts`. `isHidden` tells whether its text is a hidden name. -/
def front (table : RecordTable) (isHidden : Bool) (t : Lexeme) (ts : List Lexeme) :
    Except Halt RecordFront :=
  if t.kind ≠ .word ∨ isHidden then .ok (.kept t)
  else match table.find? t.text with
    | none =>
      .ok (.kept (if t.text = "__LINE__".toList then ⟨.number, Text.ofNat t.line, t.line⟩ else t))
    | some r => match r.parameters with
      | none => .ok (.invocation r [] ts)
      | some names => match afterOpening? ts with
        | none => .ok (.kept t)
        | some inner => match collectChecked 0 inner with
          | .error halt => .error halt
          | .ok none => .error (.reported ⟨.unterminatedCall r.name, t.line⟩)
          | .ok (some args) =>
            (r.argumentsFor names args.values t.line).map fun bound => .invocation r bound args.rest

/-- The number of names that are not hidden. -/
def unhidden (table : RecordTable) (hidden : List Text) : Nat :=
  ((table.records.map (·.name)).toFinset \ hidden.toFinset).card

variable {table : RecordTable}

/-- Hiding one more name leaves less that is not hidden. -/
theorem unhidden_cons_lt {r : MacroRecord} {hidden : List Text} (hr : r ∈ table.records)
    (hnew : r.name ∉ hidden) : table.unhidden (r.name :: hidden) < table.unhidden hidden := by
  unfold unhidden
  rw [List.toFinset_cons, Finset.sdiff_insert]
  refine Finset.card_erase_lt_of_mem (Finset.mem_sdiff.2 ⟨?_, by simpa using hnew⟩)
  exact List.mem_toFinset.2 (List.mem_map_of_mem hr)

/-- An invocation is one of a record of the table that is not hidden, and what it holds is shorter
    than the lexemes that it stands in front of. -/
theorem front_invocation {isHidden : Bool} {t : Lexeme} {ts : List Lexeme} {r : MacroRecord}
    {args : List (List Lexeme)} {rest : List Lexeme}
    (h : table.front isHidden t ts = .ok (.invocation r args rest)) :
    r ∈ table.records ∧ r.name = t.text ∧ isHidden = false ∧
      (∀ a ∈ args, a.length ≤ ts.length) ∧ rest.length ≤ ts.length := by
  unfold front at h
  split at h
  · cases h
  next hvisible =>
  have hhidden : isHidden = false := by simpa using (not_or.1 hvisible).2
  split at h
  · cases h
  next found hfind =>
  have hmem : found ∈ table.records := List.mem_of_find?_eq_some hfind
  have hname : found.name = t.text := by simpa using List.find?_some hfind
  split at h
  · cases h
    exact ⟨hmem, hname, hhidden, List.forall_mem_nil _, Nat.le_refl _⟩
  split at h
  · cases h
  next inner hopen =>
  rw [collectChecked_eq] at h
  cases hargs : collectArguments 0 inner with
  | none =>
    rw [hargs] at h
    cases h
  | some list =>
    rw [hargs] at h
    dsimp only at h
    cases hbound : found.argumentsFor _ list.values t.line with
    | error halt =>
      rw [hbound] at h
      cases h
    | ok bound =>
      rw [hbound] at h
      cases h
      obtain ⟨m, -, hbind⟩ := MacroRecord.exists_macro_of_argumentsFor hbound
      obtain ⟨hshorter, hrest⟩ := length_of_invocation hopen hargs hbind
      exact ⟨hmem, hname, hhidden, fun a ha => Nat.le_of_lt (hshorter a ha), Nat.le_of_lt hrest⟩

/-- The lexemes with every invocation expanded whose macro is not hidden. Arguments are expanded
    before they are put in, and the body is gone over again with the name of the macro
    hidden. -/
def expandWith (table : RecordTable) (hidden : List Text) : List Lexeme → Except Halt (List Lexeme)
  | [] => .ok []
  | t :: ts =>
    match _h : table.front (t.text ∈ hidden) t ts with
    | .error halt => .error halt
    | .ok (.kept u) => (expandWith table hidden ts).map (u :: ·)
    | .ok (.invocation r args rest) => do
      let expanded ← args.attach.mapM fun a => expandWith table hidden a.1
      let substituted ← r.substitute expanded t.line
      let body ← expandWith table (r.name :: hidden) substituted
      (expandWith table hidden rest).map (body ++ ·)
termination_by ts => (table.unhidden hidden, ts.length)
decreasing_by
  · exact Prod.Lex.right _ (Nat.lt_succ_self _)
  · obtain ⟨-, -, -, hargs, -⟩ := front_invocation _h
    exact Prod.Lex.right _ (Nat.lt_succ_of_le (hargs a.1 a.2))
  · obtain ⟨hr, hname, hvisible, -⟩ := front_invocation _h
    refine Prod.Lex.left _ _ (unhidden_cons_lt hr ?_)
    rw [hname]
    simpa using hvisible
  · obtain ⟨-, -, -, -, hrest⟩ := front_invocation _h
    exact Prod.Lex.right _ (Nat.lt_succ_of_le hrest)

/-- The lexemes with every invocation expanded. -/
def expand (table : RecordTable) (ts : List Lexeme) : Except Halt (List Lexeme) :=
  table.expandWith [] ts

end RecordTable

namespace MacroTable

/-- What stands in front of lexemes, with the record of a macro in its place. -/
theorem front_records (table : MacroTable) (isHidden : Bool) (t : Lexeme) (ts : List Lexeme) :
    table.records.front isHidden t ts = match table.front isHidden t ts with
      | .kept u => .ok (.kept u)
      | .refused e => .error (.reported e)
      | .invocation m args rest => .ok (.invocation m.record args rest) := by
  unfold RecordTable.front front
  split
  · rfl
  rw [find?_records]
  cases table.find? t.text with
  | none => rfl
  | some m =>
    dsimp only [Option.map]
    cases hlist : m.parameters.list? with
    | none =>
      rw [if_pos (Parameters.list?_eq_none_iff.1 hlist), show m.record.parameters = none from hlist]
    | some names =>
      have hparameters : m.parameters ≠ .none :=
        fun hnone => by simp [hnone, Parameters.list?] at hlist
      rw [if_neg hparameters, show m.record.parameters = some names from hlist]
      dsimp only
      cases afterOpening? ts with
      | none => rfl
      | some inner =>
        dsimp only
        rw [collectChecked_eq]
        cases collectArguments 0 inner with
        | none => rfl
        | some args =>
          dsimp only
          rw [argumentsFor_record hlist]
          cases bindArguments m args.values t.line <;> rfl

/-- An invocation has an argument for each parameter of its macro. -/
theorem length_of_front_invocation {table : MacroTable} {isHidden : Bool} {t : Lexeme}
    {ts : List Lexeme} {m : Macro} {args : List (List Lexeme)} {rest : List Lexeme}
    (h : table.front isHidden t ts = .invocation m args rest) :
    args.length = m.parameters.names.length := by
  obtain ⟨-, ⟨hnone, rfl, -⟩ | ⟨inner, list, -, -, hbound, -⟩⟩ := cases_of_front_invocation h
  · rw [hnone]
    rfl
  · exact length_bindArguments hbound

/-- **No check ever fails.** The checked expansion has the results of the expansion and reports its
    errors. -/
theorem expandWith_records (table : MacroTable) (hidden : List Text) (ts : List Lexeme) :
    table.records.expandWith hidden ts =
      (table.expandHiding table.macros.length hidden ts).mapError .reported := by
  fun_induction RecordTable.expandWith table.records hidden ts with
  | case1 hidden =>
    rw [expandHiding_nil]
    rfl
  | case2 hidden t ts halt hfront =>
    rw [front_records] at hfront
    rw [expandHiding_cons]
    cases hkind : table.front (t.text ∈ hidden) t ts <;> rw [hkind] at hfront <;> cases hfront
    rfl
  | case3 hidden t ts u hfront ih =>
    rw [front_records] at hfront
    rw [expandHiding_cons, ih]
    cases hkind : table.front (t.text ∈ hidden) t ts <;> rw [hkind] at hfront <;> cases hfront
    exact (mapError_map ..).symm
  | case4 hidden t ts r args rest hfront iharg ihbody ihrest =>
    rw [front_records] at hfront
    rw [expandHiding_cons]
    cases hkind : table.front (t.text ∈ hidden) t ts <;> rw [hkind] at hfront <;> cases hfront
    next m =>
    have hargs : args.mapM (table.records.expandWith hidden) =
        (args.mapM (table.expandHiding table.macros.length hidden)).mapError .reported := by
      rw [mapError_mapM]
      exact mapM_congr fun a ha => iharg ⟨a, ha⟩
    rw [mapM_attach, hargs]
    dsimp only
    cases hexpanded : args.mapM (table.expandHiding table.macros.length hidden) with
    | error e => rfl
    | ok expanded =>
      have hlength : expanded.length = m.parameters.names.length := by
        rw [← length_of_front_invocation hkind, length_of_mapM_eq_ok hexpanded]
      show (m.record.substitute expanded t.line >>= _) = _
      rw [substitute_record hlength]
      have hbody : table.records.expandWith (m.name :: hidden) (substitute m expanded t.line) = _ :=
        ihbody _
      show (table.records.expandWith (m.name :: hidden) (substitute m expanded t.line) >>= _) =
        (table.expandHiding table.macros.length (m.name :: hidden) _ >>= _).mapError .reported
      rw [hbody, mapError_bind]
      congr 1
      funext body
      rw [ihrest, mapError_map]

end MacroTable

namespace RecordTable

/-- **Arguments match the parameters.** Let definitions and removals change a table in any
    order, where a definition that fails leaves it as it was. Then every variadic macro has a
    parameter, and what is bound to the parameters of a macro has an argument for each of them,
    or is refused with an error that is reported. No expansion falls below zero or goes past the
    arguments: it has the result of `MacroTable.expand`, which is lexemes or an error that is
    reported. -/
theorem arguments_match_parameters (changes : List TableChange) :
    let table := RecordTable.after changes
    table = (MacroTable.after changes).records ∧
      (∀ r ∈ table.records, r.variadic → ∃ names, r.parameters = some names ∧ names ≠ []) ∧
      (∀ r ∈ table.records, ∀ names, r.parameters = some names → ∀ args line,
        (∃ bound, r.argumentsFor names args line = .ok bound ∧ bound.length = names.length) ∨
          ∃ e, r.argumentsFor names args line = .error (.reported e)) ∧
      (∀ m ∈ (MacroTable.after changes).macros, ∀ args line bound,
        bindArguments m args line = .ok bound → bound.length = m.parameters.names.length) ∧
      ∀ ts, table.expand ts = ((MacroTable.after changes).expand ts).mapError .reported ∧
        ((∃ us, table.expand ts = .ok us) ∨ ∃ e, table.expand ts = .error (.reported e)) := by
  dsimp only
  rw [after_eq]
  have hmacro : ∀ r ∈ (MacroTable.after changes).records.records, ∃ m : Macro, m.record = r := by
    intro r hr
    obtain ⟨m, -, rfl⟩ := List.mem_map.1 hr
    exact ⟨m, rfl⟩
  refine ⟨rfl, fun r hr => ?_, fun r hr names hnames args line => ?_,
    fun m _ args line bound h => length_bindArguments h, fun ts => ?_⟩
  · obtain ⟨m, rfl⟩ := hmacro r hr
    exact m.wellFormed_record
  · obtain ⟨m, rfl⟩ := hmacro r hr
    have hbind := argumentsFor_record hnames args line
    cases hbound : bindArguments m args line with
    | error e =>
      rw [hbound] at hbind
      exact .inr ⟨e, hbind⟩
    | ok bound =>
      rw [hbound] at hbind
      exact .inl ⟨bound, hbind, MacroRecord.length_argumentsFor hbind⟩
  · have hexpand : (MacroTable.after changes).records.expand ts = _ := expandWith_records _ [] ts
    refine ⟨hexpand, ?_⟩
    rw [hexpand]
    cases MacroTable.expandHiding _ _ _ ts with
    | error e => exact .inr ⟨e, rfl⟩
    | ok us => exact .inl ⟨us, rfl⟩

/-- The second definition of `F` and the one of `G` fail, and `A` is removed. -/
theorem arguments_match_parameters_surplus :
    let changes :
    List TableChange := [.text "P(a, b) a".toList, .text "F(x, more...) more x".toList,
      .text "F(y".toList, .text "G(a, ..., b)".toList, .text "A 1".toList, .removal ['A']]
    let table := RecordTable.after changes
    let f : MacroRecord := ⟨['F'], some [['x'], "more".toList], true, scan "more x".toList⟩
    let p : MacroRecord := ⟨['P'], some [['a'], ['b']], false, scan "a".toList⟩
    table.records = [f, p] ∧ (∃ names, f.parameters = some names ∧ names ≠ []) ∧
      table.expand (scan "F(1, 2, F(3, 4))".toList) = .ok (scan "2,4 3 1".toList) ∧
      table.expand (scan "P(1)".toList) = .error (.reported ⟨.argumentCount ['P'] 2 1, 1⟩) := by
  intro changes table f p
  have hrecords : table.records = [f, p] := by
    dsimp only [f, p]
    decide +kernel
  obtain ⟨-, hvariadic, -, -, hexpand⟩ := arguments_match_parameters changes
  have hf : f ∈ table.records := by
    rw [hrecords]
    exact List.mem_cons_self
  exact ⟨hrecords, hvariadic f hf rfl, (hexpand _).1.trans (by decide +kernel),
    (hexpand _).1.trans (by decide +kernel)⟩

end RecordTable

end IdlFrontend
