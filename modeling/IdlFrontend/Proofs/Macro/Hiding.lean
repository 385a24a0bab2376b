import IdlFrontend.Proofs.Macro.Closure

/-!
# Hidden macros

A name that none of the lexemes can lead to may be hidden or not, or defined or not: nothing
is left of the difference. Hiding is also what ends the recursion. Each level hides one more
macro, so a level for each macro that is not hidden is enough, and more levels change nothing.

Results:

* `sweep_cons`: one step of a pass.
* `sweep_congr`: what a pass depends on.
* `expandHiding_eq_of_find?`: expansions with different tables, hidden names and levels.
* `expandHiding_congr`: likewise with one table.
-/

namespace IdlFrontend.MacroTable

open Lexeme

/-! ## One step -/

theorem mapM_attach {ε α β : Type} (as : List α) (f : α → Except ε β) :
    (as.attach.mapM fun a => f a.1) = as.mapM f := by
  rw [List.mapM_subtype (g := f) fun _ _ => rfl, List.unattach_attach]

/-- A pass over lexemes depends on its first lexeme, and goes on behind it or behind the
    invocation that it begins. -/
theorem sweep_cons (table : MacroTable) (hidden : List Text)
    (rescan : Text → List Lexeme → Except PreprocessError (List Lexeme)) (t : Lexeme)
    (ts : List Lexeme) :
    sweep table hidden rescan (t :: ts) =
      if t.kind ≠ .word ∨ t.text ∈ hidden then (sweep table hidden rescan ts).map (t :: ·)
      else match table.find? t.text with
        | none =>
          if t.text = "__LINE__".toList then
            (sweep table hidden rescan ts).map (⟨.number, Text.ofNat t.line, t.line⟩ :: ·)
          else (sweep table hidden rescan ts).map (t :: ·)
        | some m =>
          if m.parameters = .none then do
            let body ← rescan m.name (restamp t.line m.body)
            (sweep table hidden rescan ts).map (body ++ ·)
          else match afterOpening? ts with
            | none => (sweep table hidden rescan ts).map (t :: ·)
            | some inner => match collectArguments 0 inner with
              | none => .error ⟨.unterminatedCall m.name, t.line⟩
              | some args => (do
                let bound ← bindArguments m args.values t.line
                let expanded ← bound.mapM (sweep table hidden rescan)
                let body ← rescan m.name (substitute m expanded t.line)
                (sweep table hidden rescan args.rest).map (body ++ ·)) := by
  rw [sweep]
  split
  · rfl
  cases table.find? t.text with
  | none => rfl
  | some m =>
    dsimp only
    split
    · cases rescan m.name (restamp t.line m.body) <;> rfl
    cases hopen : afterOpening? ts with
    | none => rfl
    | some inner =>
    dsimp only
    cases hargs : collectArguments 0 inner with
    | none => rfl
    | some args =>
    dsimp only
    cases hbound : bindArguments m args.values t.line with
    | error e => rfl
    | ok bound =>
    dsimp only
    rw [mapM_attach]
    show _ = (bound.mapM (sweep table hidden rescan)).bind _
    cases bound.mapM (sweep table hidden rescan) with
    | error e => rfl
    | ok expanded =>
      dsimp only [Except.bind]
      cases rescan m.name (substitute m expanded t.line) <;> rfl

theorem expandHiding_nil (table : MacroTable) (levels : Nat) (hidden : List Text) :
    table.expandHiding levels hidden [] = .ok [] := by
  cases levels <;> rw [expandHiding, sweep]

/-- The arguments of an invocation, and what follows it, are shorter than what stands
    behind its name. -/
theorem length_of_invocation {m : Macro} {ts inner : List Lexeme} {args : ArgumentList}
    {bound : List (List Lexeme)} {line : Nat} (hopen : afterOpening? ts = some inner)
    (hargs : collectArguments 0 inner = some args)
    (hbound : bindArguments m args.values line = .ok bound) :
    (∀ a ∈ bound, a.length < ts.length) ∧ args.rest.length < ts.length := by
  have hinner := length_afterOpening?_lt hopen
  have hlist := collectArguments_length hargs
  have hvalues := room_map_stripBlank_le (args.first :: args.more)
  refine ⟨fun a ha => ?_, by omega⟩
  have hle := length_le_of_mem_bindArguments hbound ha
  rw [ArgumentList.values] at hle
  omega

/-- Induction along a pass: at an invocation over its arguments and what follows it. -/
theorem sweep_induction {P : List Lexeme → Prop} (nil : P [])
    (cons : ∀ t ts, P ts →
      (∀ m inner args bound, afterOpening? ts = some inner → collectArguments 0 inner = some args →
        bindArguments m args.values t.line = .ok bound → (∀ a ∈ bound, P a) ∧ P args.rest) →
      P (t :: ts))
    (ts : List Lexeme) : P ts := by
  induction hn : ts.length using Nat.strongRecOn generalizing ts with
  | _ n ih =>
  cases ts with
  | nil => exact nil
  | cons t ts =>
    rw [List.length_cons] at hn
    refine cons t ts (ih ts.length (by omega) ts rfl) ?_
    intro m inner args bound hopen hargs hbound
    obtain ⟨hvalues, hrest⟩ := length_of_invocation hopen hargs hbound
    exact ⟨fun a ha => ih a.length (Nat.lt_of_lt_of_le (hvalues a ha) (by omega)) a rfl,
      ih args.rest.length (by omega) args.rest rfl⟩

/-! ## What a pass depends on -/

variable {G : LexemeKind → Text → Prop} {L : Nat → Prop} {table : MacroTable}

theorem bind_congr_of_ok {ε α β : Type} {r : Except ε α} {f g : α → Except ε β}
    (h : ∀ a, r = .ok a → f a = g a) : (r >>= f) = (r >>= g) := by
  cases r with
  | error e => rfl
  | ok a => exact h a rfl

theorem mapM_congr {ε α β : Type} {as : List α} {f g : α → Except ε β} (h : ∀ a ∈ as, f a = g a) :
    as.mapM f = as.mapM g := by
  rw [← mapM_attach as f, ← mapM_attach as g]
  congr 1
  funext a
  exact h a.1 a.2

/-- Two passes over lexemes with a property agree if their tables have the same macros under
    the names that have the property, and if they hide the same of these names and rescan the
    bodies that have it in the same way. -/
theorem sweep_congr (hA : Admits G L) (htable : table.BodiesMeet G) {table' : MacroTable}
    (hsame : ∀ name, G .word name → table.find? name = table'.find? name)
    {hidden hidden' : List Text}
    {rescan rescan' : Text → List Lexeme → Except PreprocessError (List Lexeme)}
    (hhidden : ∀ name, G .word name → (name ∈ hidden ↔ name ∈ hidden'))
    (hclosed : ∀ name body us, (∀ t ∈ body, Meets G L t) → rescan name body = .ok us →
      ∀ u ∈ us, Meets G L u)
    (hrescan : ∀ m ∈ table.macros, m ∈ table'.macros → G .word m.name → m.name ∉ hidden →
      ∀ body, (∀ t ∈ body, Meets G L t) → rescan m.name body = rescan' m.name body)
    {ts : List Lexeme} (hts : ∀ t ∈ ts, Meets G L t) :
    sweep table hidden rescan ts = sweep table' hidden' rescan' ts := by
  induction ts using sweep_induction with
  | nil => rw [sweep, sweep]
  | cons t ts ih ihcall =>
    obtain ⟨ht, hts⟩ := List.forall_mem_cons.1 hts
    have hseen : (t.kind ≠ .word ∨ t.text ∈ hidden) ↔ (t.kind ≠ .word ∨ t.text ∈ hidden') := by
      by_cases hword : t.kind = .word
      · rw [hhidden t.text (hword ▸ ht.1)]
      · exact iff_of_true (Or.inl hword) (Or.inl hword)
    rw [sweep_cons, sweep_cons, ih hts]
    simp only [← hseen]
    split
    · rfl
    next hnot =>
    obtain ⟨hword, hnew⟩ := not_or.1 hnot
    have hG : G .word t.text := Decidable.not_not.1 hword ▸ ht.1
    have hfind' := hsame t.text hG
    rw [← hfind']
    split
    · rfl
    next m hfind =>
    have hbody {body : List Lexeme} (hb : ∀ t ∈ body, Meets G L t) :
        rescan m.name body = rescan' m.name body := by
      have hname := name_of_find? hfind
      exact hrescan m (mem_of_find? hfind) (mem_of_find? (hfind'.symm.trans hfind)) (hname ▸ hG)
        (hname ▸ hnew) body hb
    have hmacro := htable.body ht hnot hfind
    split
    · rw [hbody (meets_restamp hmacro ht.2)]
    split
    · rfl
    next inner hopen =>
    split
    · rfl
    next args hargs =>
    refine bind_congr_of_ok fun bound hbound => ?_
    obtain ⟨hbounds, hrest⟩ := invocation_forall hA ht.2 hts hopen hargs hbound
    obtain ⟨iharg, ihrest⟩ := ihcall m inner args bound hopen hargs hbound
    rw [← mapM_congr fun a ha => iharg a ha (hbounds a ha)]
    refine bind_congr_of_ok fun expanded hexpanded => ?_
    have hexpansions : ∀ e ∈ expanded, ∀ u ∈ e, G u.kind u.text := by
      intro e he u hu
      obtain ⟨a, ha, heq⟩ := exists_mem_of_mapM_eq_ok hexpanded e he
      exact (sweep_forall hA htable hclosed (hbounds a ha) heq u hu).1
    rw [hbody (substitute_forall ht.2 hmacro hexpansions), ihrest hrest]

/-! ## Levels -/

/-- The number of macros that are not hidden. -/
def unhidden (table : MacroTable) (hidden : List Text) : Nat :=
  (table.macros.filter (·.name ∉ hidden)).length

theorem unhidden_le (table : MacroTable) (hidden : List Text) :
    table.unhidden hidden ≤ table.macros.length := List.length_filter_le _ _

/-- Hiding one more macro leaves less that is not hidden. -/
theorem unhidden_cons_lt {m : Macro} {hidden : List Text} (hm : m ∈ table.macros)
    (hnew : m.name ∉ hidden) : table.unhidden (m.name :: hidden) < table.unhidden hidden := by
  have hfilter : table.macros.filter (·.name ∉ m.name :: hidden) =
      (table.macros.filter (·.name ∉ hidden)).filter (·.name ≠ m.name) := by
    rw [List.filter_filter]
    congr 1
    funext k
    simp [not_or]
  unfold unhidden
  rw [hfilter]
  refine List.length_filter_lt_length_iff_exists.2 ⟨m, List.mem_filter.2 ⟨hm, ?_⟩, ?_⟩
  · simpa using hnew
  · simp

/-- Two expansions of lexemes with a property agree if their tables have the same macros under
    the names that have the property, and if they hide the same of these names and have levels
    for all macros that are not hidden. -/
theorem expandHiding_eq_of_find? (hA : Admits G L) (htable : table.BodiesMeet G)
    {table' : MacroTable} (hsame : ∀ name, G .word name → table.find? name = table'.find? name)
    {levels levels' : Nat}
    {hidden hidden' : List Text} (hlevels : table.unhidden hidden ≤ levels)
    (hlevels' : table'.unhidden hidden' ≤ levels')
    (hhidden : ∀ name, G .word name → (name ∈ hidden ↔ name ∈ hidden'))
    {ts : List Lexeme} (hts : ∀ t ∈ ts, Meets G L t) :
    expandHiding table levels hidden ts = expandHiding table' levels' hidden' ts := by
  have hpass : ∀ (_ : Text) (body us : List Lexeme), (∀ t ∈ body, Meets G L t) →
      (Except.ok body : Except PreprocessError (List Lexeme)) = .ok us → ∀ u ∈ us, Meets G L u := by
    rintro _ body us hbody ⟨⟩
    exact hbody
  have hexpand (levels : Nat) (hidden : List Text) : ∀ name body us, (∀ t ∈ body, Meets G L t) →
      expandHiding table levels (name :: hidden) body = .ok us → ∀ u ∈ us, Meets G L u :=
    fun _ _ _ hbody h => expandHiding_forall hA htable hbody h
  -- With no level left every macro is hidden, and nothing is gone over again.
  have hout {table : MacroTable} {hidden : List Text} (h : table.unhidden hidden ≤ 0) {m : Macro}
      (hm : m ∈ table.macros) : m.name ∈ hidden :=
    Decidable.byContradiction fun hnew =>
      Nat.not_lt_zero _ (Nat.lt_of_lt_of_le (unhidden_cons_lt hm hnew) h)
  induction levels generalizing levels' hidden hidden' ts with
  | zero =>
    cases levels' with
    | zero | succ =>
      exact sweep_congr hA htable hsame hhidden hpass
        (fun m hm _ _ hnew => absurd (hout hlevels hm) hnew) hts
  | succ levels ih =>
    cases levels' with
    | zero =>
      refine sweep_congr hA htable hsame hhidden (hexpand levels hidden)
        (fun m _ hm hG hnew => ?_) hts
      exact absurd ((hhidden m.name hG).2 (hout hlevels' hm)) hnew
    | succ levels' =>
      refine sweep_congr hA htable hsame hhidden (hexpand levels hidden)
        (fun m hm hm' hG hnew body hb => ?_) hts
      have hnew' : m.name ∉ hidden' := fun h => hnew ((hhidden m.name hG).2 h)
      have hlt := unhidden_cons_lt hm hnew
      have hlt' := unhidden_cons_lt hm' hnew'
      refine ih (by omega) (by omega) (fun name hname => ?_) hb
      rw [List.mem_cons, List.mem_cons, hhidden name hname]

/-- Two expansions of lexemes with a property agree if they hide the same names that have
    the property and have levels for all macros that are not hidden. -/
theorem expandHiding_congr (hA : Admits G L) (htable : table.BodiesMeet G) {levels levels' : Nat}
    {hidden hidden' : List Text} (hlevels : table.unhidden hidden ≤ levels)
    (hlevels' : table.unhidden hidden' ≤ levels')
    (hhidden : ∀ name, G .word name → (name ∈ hidden ↔ name ∈ hidden'))
    {ts : List Lexeme} (hts : ∀ t ∈ ts, Meets G L t) :
    expandHiding table levels hidden ts = expandHiding table levels' hidden' ts :=
  expandHiding_eq_of_find? hA htable (fun _ _ => rfl) hlevels hlevels' hhidden hts

end IdlFrontend.MacroTable
