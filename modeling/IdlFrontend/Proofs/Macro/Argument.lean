import IdlFrontend.Proofs.Macro.Define
import IdlFrontend.Proofs.Macro.Hiding

/-!
# Arguments are expanded twice

A macro is hidden while its own body is gone over again, and an argument is expanded
before that, with nothing of its own hidden. So what a macro leaves of its own name in an
argument is expanded once more in the body. The macro whose body is its parameter shows
this alone.

Results:

* `collectArguments_append`: lexemes that are a single argument are collected as one.
* `expand_identity`: an invocation of that macro expands to the expansion of what its
  argument expands to.
-/

namespace IdlFrontend

namespace Lexeme

/-- No word of the lexemes is the name. -/
def Avoid (name : Text) (ts : List Lexeme) : Prop := ∀ t ∈ ts, t.kind = .word → t.text ≠ name

instance (name : Text) (ts : List Lexeme) : Decidable (Avoid name ts) :=
  inferInstanceAs (Decidable (∀ t ∈ ts, t.kind = .word → t.text ≠ name))

/-- Whether the lexemes make one argument behind `depth` open parentheses. They close
    these and their own, and no comma stands outside of all of them. -/
def areArgument (depth : Nat) : List Lexeme → Bool
  | [] => depth == 0
  | t :: ts =>
    if t.isPunct '(' then areArgument (depth + 1) ts
    else if t.isPunct ')' then 0 < depth && areArgument (depth - 1) ts
    else if t.isPunct ',' then 0 < depth && areArgument depth ts
    else areArgument depth ts

/-- Nothing is stripped between two ends that are not blank. -/
theorem stripBlank_eq_self {ts : List Lexeme} (hfirst : ∀ t ∈ ts.head?, ¬t.isBlank)
    (hlast : ∀ t ∈ ts.getLast?, ¬t.isBlank) : stripBlank ts = ts := by
  have hdrop : ts.dropWhile isBlank = ts := by
    cases ts with
    | nil => rfl
    | cons t ts => exact List.dropWhile_cons_of_neg (hfirst t rfl)
  rw [stripBlank_eq, hdrop]
  cases ts using List.reverseRecOn with
  | nil => rfl
  | append_singleton ts t =>
    refine List.rdropWhile_concat_neg _ _ _ (hlast t ?_)
    rw [List.getLast?_append]
    rfl

end Lexeme

namespace MacroTable

open Lexeme

/-- Lexemes that make one argument are collected in front of the first argument of what
    follows them. -/
theorem collectArguments_append {depth : Nat} {a : List Lexeme} (harg : areArgument depth a)
    (hline : ∀ t ∈ a, t.kind ≠ .newline) (ts : List Lexeme) :
    collectArguments depth (a ++ ts) =
      (collectArguments 0 ts).map fun as => { as with first := a ++ as.first } := by
  fun_induction areArgument depth a with
  | case1 depth =>
    rw [beq_iff_eq.1 harg, List.nil_append]
    exact Option.map_id'.symm
  | case2 depth t a hopen ih =>
    obtain ⟨-, hline⟩ := List.forall_mem_cons.1 hline
    rw [List.cons_append, collectArguments.eq_def]
    dsimp only
    rw [if_pos hopen, ih harg hline, Option.map_map]
    rfl
  | case3 depth t a hopen hclose ih =>
    obtain ⟨-, hline⟩ := List.forall_mem_cons.1 hline
    obtain ⟨hdepth, harg⟩ := Bool.and_eq_true_iff.1 harg
    cases depth with
    | zero => cases hdepth
    | succ depth =>
      rw [List.cons_append, collectArguments.eq_def]
      dsimp only
      rw [if_neg hopen, if_pos hclose]
      have hrest : collectArguments depth (a ++ ts) = _ := ih harg hline
      show (collectArguments depth (a ++ ts)).map _ = _
      rw [hrest, Option.map_map]
      rfl
  | case4 depth t a hopen hclose hcomma ih =>
    obtain ⟨hnotLine, hline⟩ := List.forall_mem_cons.1 hline
    obtain ⟨hdepth, harg⟩ := Bool.and_eq_true_iff.1 harg
    have hinside : ¬(t.isPunct ',' && depth == 0) := by
      simp only [Bool.and_eq_true, beq_iff_eq, not_and]
      exact fun _ => Nat.ne_of_gt (of_decide_eq_true hdepth)
    rw [List.cons_append, collectArguments.eq_def]
    dsimp only
    rw [if_neg hopen, if_neg hclose, if_neg hinside, if_neg hnotLine, ih harg hline,
      Option.map_map]
    rfl
  | case5 depth t a hopen hclose hcomma ih =>
    obtain ⟨hnotLine, hline⟩ := List.forall_mem_cons.1 hline
    rw [List.cons_append, collectArguments.eq_def]
    dsimp only
    rw [if_neg hopen, if_neg hclose, if_neg (by simp [hcomma]), if_neg hnotLine, ih harg hline,
      Option.map_map]
    rfl

/-! ## The macro whose body is its parameter -/

/-- Expansion makes no words of its own, and so no name. -/
theorem admits_avoid (name : Text) :
    Admits (fun kind text => kind = .word → text ≠ name) fun _ => True :=
  ⟨fun _ h => (by cases h), fun h => (by cases h), fun h => (by cases h)⟩

/-- **An invocation of the macro whose body is its parameter expands to the expansion of
    what the argument expands to**, all on the line of the invocation. It fails if one of
    the two expansions fails. -/
theorem expand_identity {table : MacroTable} {name x : Text} {bodyLine : Nat}
    (hfind : table.find? name = some ⟨name, .fixed [x], [⟨.word, x, bodyLine⟩]⟩)
    (hothers : ∀ m ∈ table.macros, m.name ≠ name → Avoid name m.body)
    {a : List Lexeme} (havoid : Avoid name a) (harg : areArgument 0 a)
    (hline : ∀ t ∈ a, t.kind ≠ .newline) (hfirst : ∀ t ∈ a.head?, ¬t.isBlank)
    (hlast : ∀ t ∈ a.getLast?, ¬t.isBlank) (line openLine closeLine : Nat) :
    table.expand
        (⟨.word, name, line⟩ :: ⟨.punctuation, ['('], openLine⟩ ::
          (a ++ [⟨.punctuation, [')'], closeLine⟩])) =
      table.expand a >>= fun expanded => table.expand (restamp line expanded) := by
  have hmem := mem_of_find? hfind
  obtain ⟨levels, hlevels⟩ : ∃ levels, table.macros.length = levels + 1 :=
    Nat.exists_eq_succ_of_ne_zero (List.length_pos_of_mem hmem).ne'
  have hcollect : collectArguments 0 (a ++ [⟨.punctuation, [')'], closeLine⟩]) =
      some ⟨a, [], []⟩ := by
    rw [collectArguments_append harg hline]
    simp [collectArguments, isPunct]
  have hvalues : (⟨a, [], []⟩ : ArgumentList).values = [a] :=
    congrArg (· :: []) (stripBlank_eq_self hfirst hlast)
  -- The expansion of the argument cannot invoke the macro, so it may as well be hidden.
  have hbodies : table.BodiesMeet fun kind text => kind = .word → text ≠ name :=
    fun m hm hname => hothers m hm (hname rfl)
  have hrescan {us : List Lexeme} (hus : table.expand a = .ok us) :
      expandHiding table levels [name] (restamp line us) = table.expand (restamp line us) := by
    have hmeets : ∀ t ∈ us, Meets (fun kind text => kind = .word → text ≠ name) (fun _ => True) t :=
      expandHiding_forall (admits_avoid name) hbodies (fun t ht => ⟨havoid t ht, trivial⟩) hus
    refine expandHiding_congr (admits_avoid name) hbodies ?_ ?_ (fun other hother => ?_)
      (meets_restamp (fun t ht => (hmeets t ht).1) trivial)
    · have hlt : table.unhidden [name] < table.unhidden [] :=
        unhidden_cons_lt hmem List.not_mem_nil
      have hle := unhidden_le table []
      omega
    · exact unhidden_le table []
    · simp [hother rfl]
  have hexpand (us : List Lexeme) :
      table.expand us = sweep table [] (fun name ts => expandHiding table levels [name] ts) us := by
    rw [expand, hlevels]
    rfl
  rw [hexpand, sweep_cons, if_neg (by simp)]
  dsimp only
  rw [hfind]
  dsimp only
  rw [if_neg (by simp)]
  have hopen : afterOpening? (⟨.punctuation, ['('], openLine⟩ ::
      (a ++ [⟨.punctuation, [')'], closeLine⟩])) = some (a ++ [⟨.punctuation, [')'], closeLine⟩]) :=
    rfl
  rw [hopen]
  dsimp only
  rw [hcollect]
  dsimp only
  have hbound : bindArguments ⟨name, .fixed [x], [⟨.word, x, bodyLine⟩]⟩ [a] line = .ok [a] := rfl
  rw [hvalues, hbound]
  show ([a].mapM (sweep table [] _) >>= _) = _
  rw [List.mapM_cons, List.mapM_nil, ← hexpand]
  cases hus : table.expand a with
  | error e => rfl
  | ok us =>
    have hsubstitute : substitute ⟨name, .fixed [x], [⟨.word, x, bodyLine⟩]⟩ [us] line =
        restamp line us := by
      simp [substitute, Parameters.names]
    show (expandHiding table levels [name] (substitute _ [us] line) >>= fun body =>
      (sweep table [] _ []).map (body ++ ·)) = table.expand (restamp line us)
    rw [hsubstitute, hrescan hus, sweep]
    cases table.expand (restamp line us) with
    | error e => rfl
    | ok vs => exact congrArg Except.ok (List.append_nil vs)

/-- With `foo` defined as `foo + 1`, the argument `foo` is expanded twice, although `foo`
    alone is expanded once. -/
theorem expand_identity_twice :
    let one :
    List Lexeme := [⟨.word, "foo".toList, 1⟩, ⟨.space, [' '], 1⟩, ⟨.punctuation, ['+'], 1⟩,
      ⟨.space, [' '], 1⟩, ⟨.number, ['1'], 1⟩]
    let table : MacroTable :=
      ⟨[⟨"ID".toList, .fixed [['x']], [⟨.word, ['x'], 1⟩]⟩, ⟨"foo".toList, .none, one⟩]⟩
    table.expand [⟨.word, "foo".toList, 1⟩] = .ok one ∧
      table.expand [⟨.word, "ID".toList, 1⟩, ⟨.punctuation, ['('], 1⟩, ⟨.word, "foo".toList, 1⟩,
        ⟨.punctuation, [')'], 1⟩] = .ok (one ++ one.drop 1) := by
  intro one table
  have hone : table.expand [⟨.word, "foo".toList, 1⟩] = .ok one := by decide +kernel
  have htwo : table.expand (restamp 1 one) = .ok (one ++ one.drop 1) := by decide +kernel
  refine ⟨hone, ?_⟩
  have hfind : table.find? "ID".toList = some ⟨"ID".toList, .fixed [['x']], [⟨.word, ['x'], 1⟩]⟩ :=
    rfl
  have h := expand_identity (a := [⟨.word, "foo".toList, 1⟩]) hfind (by decide) (by decide)
    (by decide) (by decide) (by decide) (by decide) 1 1 1
  rw [hone] at h
  exact h.trans htwo

end MacroTable

end IdlFrontend
