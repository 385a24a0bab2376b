import Mathlib.Data.Finset.Basic
import Mathlib.Data.Finset.Dedup
import IdlFrontend.Proofs.Macro.Hiding

/-!
# Expansion with a set of hidden names that changes

Expansion goes down into arguments and bodies. While it is in the body of a macro, the
name of the macro is hidden, and behind the body it is shown again, whether the body
could be expanded or not. Here the hidden names are one set that is changed on the way,
and nothing bounds how deep expansion goes: a derivation of `Expands` is a run that ends.

Results:

* `front_invocation`: an invocation is one of a macro that is not hidden, and its
  arguments and what follows it are shorter than the lexemes it stands in front of.
* `expandHiding_cons`: no body lies deeper than the number of macros.
* `expands_iff`: every run ends, with the hidden names it began with.
-/

namespace IdlFrontend.MacroTable

open Lexeme

/-! ## One step -/

/-- What stands at the front of lexemes. -/
inductive Front where
  /-- A lexeme that stays, or the number that `__LINE__` stands for. -/
  | kept (u : Lexeme)
  | refused (e : PreprocessError)
  /-- An invocation with its arguments, and the lexemes behind it. -/
  | invocation (m : Macro) (args : List (List Lexeme)) (rest : List Lexeme)

/-- What `t` begins in front of `ts`. `isHidden` tells whether its text is a hidden name. -/
def front (table : MacroTable) (isHidden : Bool) (t : Lexeme) (ts : List Lexeme) : Front :=
  if t.kind ≠ .word ∨ isHidden then .kept t
  else match table.find? t.text with
    | none => .kept (if t.text = "__LINE__".toList then ⟨.number, Text.ofNat t.line, t.line⟩ else t)
    | some m =>
      if m.parameters = .none then .invocation m [] ts
      else match afterOpening? ts with
        | none => .kept t
        | some inner => match collectArguments 0 inner with
          | none => .refused ⟨.unterminatedCall m.name, t.line⟩
          | some args => match bindArguments m args.values t.line with
            | .error e => .refused e
            | .ok bound => .invocation m bound args.rest

mutual

/-- Expanding `ts` while `hidden` are hidden ends, and leaves `hidden'` hidden. -/
inductive Expands (table : MacroTable) : (hidden : Finset Text) → (ts : List Lexeme) →
    Except PreprocessError (List Lexeme) → (hidden' : Finset Text) → Prop
  | nil {hidden} : Expands table hidden [] (.ok []) hidden
  | kept {hidden t ts u r hidden'} (h : table.front (t.text ∈ hidden) t ts = .kept u)
      (hrest : Expands table hidden ts r hidden') :
      Expands table hidden (t :: ts) (r.map (u :: ·)) hidden'
  | refused {hidden t ts e} (h : table.front (t.text ∈ hidden) t ts = .refused e) :
      Expands table hidden (t :: ts) (.error e) hidden
  | argumentFails {hidden t ts m args rest e hidden₁}
      (h : table.front (t.text ∈ hidden) t ts = .invocation m args rest)
      (hargs : ExpandsEach table hidden args (.error e) hidden₁) :
      Expands table hidden (t :: ts) (.error e) hidden₁
  | bodyFails {hidden t ts m args rest expanded hidden₁ e hidden₂}
      (h : table.front (t.text ∈ hidden) t ts = .invocation m args rest)
      (hargs : ExpandsEach table hidden args (.ok expanded) hidden₁)
      (hbody : Expands table (Insert.insert m.name hidden₁) (substitute m expanded t.line)
      (.error e) hidden₂) :
      Expands table hidden (t :: ts) (.error e) (hidden₂.erase m.name)
  | invocation {hidden t ts m args rest expanded hidden₁ body hidden₂ r hidden₃}
      (h : table.front (t.text ∈ hidden) t ts = .invocation m args rest)
      (hargs : ExpandsEach table hidden args (.ok expanded) hidden₁)
      (hbody : Expands table (Insert.insert m.name hidden₁) (substitute m expanded t.line)
      (.ok body) hidden₂) (hrest : Expands table (hidden₂.erase m.name) rest r hidden₃) :
      Expands table hidden (t :: ts) (r.map (body ++ ·)) hidden₃

/-- Expanding arguments one after the other, up to the first that fails, ends. -/
inductive ExpandsEach (table : MacroTable) : (hidden : Finset Text) → (args : List (List Lexeme)) →
    Except PreprocessError (List (List Lexeme)) → (hidden' : Finset Text) → Prop
  | nil {hidden} : ExpandsEach table hidden [] (.ok []) hidden
  | fails {hidden a args e hidden₁} (h : Expands table hidden a (.error e) hidden₁) :
      ExpandsEach table hidden (a :: args) (.error e) hidden₁
  | cons {hidden a args us hidden₁ r hidden₂} (h : Expands table hidden a (.ok us) hidden₁)
      (hrest : ExpandsEach table hidden₁ args r hidden₂) :
      ExpandsEach table hidden (a :: args) (r.map (us :: ·)) hidden₂

end

variable {table : MacroTable}

/-- An invocation is the name of a macro that is not hidden. If the macro has parameters, the
    arguments follow in parentheses. -/
theorem cases_of_front_invocation {isHidden : Bool} {t : Lexeme} {ts : List Lexeme} {m : Macro}
    {args : List (List Lexeme)} {rest : List Lexeme}
    (h : table.front isHidden t ts = .invocation m args rest) :
    (t.kind = .word ∧ isHidden = false ∧ table.find? t.text = some m) ∧
      ((m.parameters = .none ∧ args = [] ∧ rest = ts) ∨
        ∃ inner list, afterOpening? ts = some inner ∧ collectArguments 0 inner = some list ∧
          bindArguments m list.values t.line = .ok args ∧ rest = list.rest) := by
  unfold front at h
  split at h
  · cases h
  next hvisible =>
  obtain ⟨hword, hhidden⟩ := not_or.1 hvisible
  split at h
  · cases h
  next found hfind =>
  have hname : table.find? t.text = some found → t.kind = .word ∧ isHidden = false ∧
      table.find? t.text = some found := fun h =>
    ⟨Decidable.not_not.1 hword, by simpa using hhidden, h⟩
  split at h
  next hnone =>
    cases h
    exact ⟨hname hfind, .inl ⟨hnone, rfl, rfl⟩⟩
  split at h
  · cases h
  next inner hopen =>
  split at h
  · cases h
  next list hargs =>
  split at h
  · cases h
  next bound hbound =>
  cases h
  exact ⟨hname hfind, .inr ⟨inner, list, hopen, hargs, hbound, rfl⟩⟩

/-- An invocation is one of a macro of the table that is not hidden, and what it holds is
    shorter than the lexemes that it stands in front of. -/
theorem front_invocation {isHidden : Bool} {t : Lexeme} {ts : List Lexeme} {m : Macro}
    {args : List (List Lexeme)} {rest : List Lexeme}
    (h : table.front isHidden t ts = .invocation m args rest) :
    m ∈ table.macros ∧ m.name = t.text ∧ isHidden = false ∧
      (∀ a ∈ args, a.length ≤ ts.length) ∧ rest.length ≤ ts.length := by
  obtain ⟨⟨-, hhidden, hfind⟩, ⟨-, rfl, rfl⟩ | ⟨inner, list, hopen, hargs, hbound, rfl⟩⟩ :=
    cases_of_front_invocation h
  · exact ⟨mem_of_find? hfind, name_of_find? hfind, hhidden, List.forall_mem_nil _, Nat.le_refl _⟩
  · obtain ⟨hshorter, hrest⟩ := length_of_invocation hopen hargs hbound
    exact ⟨mem_of_find? hfind, name_of_find? hfind, hhidden,
      fun a ha => Nat.le_of_lt (hshorter a ha), Nat.le_of_lt hrest⟩

/-- Without parameters the body is put in as it is. -/
theorem substitute_none {m : Macro} (h : m.parameters = .none) (line : Nat) :
    substitute m [] line = restamp line m.body := by
  unfold substitute restamp
  rw [h, List.map_eq_flatMap]
  congr 1
  funext t
  simp [Parameters.names]

theorem sweep_cons_front (hidden : List Text)
    (rescan : Text → List Lexeme → Except PreprocessError (List Lexeme)) (t : Lexeme)
    (ts : List Lexeme) :
    sweep table hidden rescan (t :: ts) = match table.front (t.text ∈ hidden) t ts with
      | .kept u => (sweep table hidden rescan ts).map (u :: ·)
      | .refused e => .error e
      | .invocation m args rest => (do
        let expanded ← args.mapM (sweep table hidden rescan)
        let body ← rescan m.name (substitute m expanded t.line)
        (sweep table hidden rescan rest).map (body ++ ·)) := by
  rw [sweep_cons, front]
  simp only [decide_eq_true_eq]
  split
  · rfl
  cases table.find? t.text with
  | none =>
    dsimp only
    split <;> rfl
  | some m =>
    dsimp only
    split
    next hnone =>
      dsimp only [List.mapM_nil]
      rw [pure_bind, substitute_none hnone]
    cases hopen : afterOpening? ts with
    | none => rfl
    | some inner =>
      dsimp only
      cases hargs : collectArguments 0 inner with
      | none => rfl
      | some args =>
        dsimp only
        cases bindArguments m args.values t.line <;> rfl

/-! ## Enough levels -/

/-- **The bound on levels is never felt.** With a level for each macro, an expansion goes
    down into arguments and bodies as far as they lead. -/
theorem expandHiding_cons (table : MacroTable) (hidden : List Text) (t : Lexeme)
    (ts : List Lexeme) :
    let expand := expandHiding table table.macros.length
    expand hidden (t :: ts) = match table.front (t.text ∈ hidden) t ts with
      | .kept u => (expand hidden ts).map (u :: ·)
      | .refused e => .error e
      | .invocation m args rest => (do
        let expanded ← args.mapM (expand hidden)
        let body ← expand (m.name :: hidden) (substitute m expanded t.line)
        (expand hidden rest).map (body ++ ·)) := by
  intro expand
  have hany : Admits (fun _ _ => True) (fun _ => True) := ⟨fun _ => trivial, trivial, trivial⟩
  have hall : table.BodiesMeet fun _ _ => True := fun _ _ _ _ _ => trivial
  obtain ⟨levels, hlevels⟩ : ∃ levels, levels = table.macros.length := ⟨_, rfl⟩
  cases levels with
  | zero =>
    have hexpand (hidden : List Text) : expand hidden = sweep table hidden fun _ ts => .ok ts := by
      simp only [expand, ← hlevels, expandHiding]
    rw [hexpand, sweep_cons_front]
    split
    · rfl
    · rfl
    next m args rest hfront =>
      have hmem := (front_invocation hfront).1
      rw [List.eq_nil_of_length_eq_zero hlevels.symm] at hmem
      cases hmem
  | succ levels =>
    have hexpand (hidden : List Text) : expand hidden =
        sweep table hidden fun name ts => expandHiding table levels (name :: hidden) ts := by
      simp only [expand, ← hlevels, expandHiding]
    rw [hexpand, sweep_cons_front]
    split
    · rfl
    · rfl
    next m args rest hfront =>
      obtain ⟨hmem, hname, hvisible, -⟩ := front_invocation hfront
      have hnew : m.name ∉ hidden := by
        rw [hname]
        simpa using hvisible
      -- A macro that is not hidden leaves a level less to be gone down.
      have hbody (body : List Lexeme) : expandHiding table levels (m.name :: hidden) body =
          expand (m.name :: hidden) body := by
        have hlt := unhidden_cons_lt hmem hnew
        have hle := table.unhidden_le hidden
        exact expandHiding_congr hany hall (by omega) (table.unhidden_le _) (fun _ _ => Iff.rfl)
          fun _ _ => ⟨trivial, trivial⟩
      simp only [hbody]

/-! ## Runs -/

theorem expandsEach_iff {hidden : Finset Text} {args : List (List Lexeme)}
    {f : List Lexeme → Except PreprocessError (List Lexeme)}
    (hf : ∀ a ∈ args, ∀ r hidden', Expands table hidden a r hidden' ↔ r = f a ∧ hidden' = hidden)
    {r : Except PreprocessError (List (List Lexeme))} {hidden' : Finset Text} :
    ExpandsEach table hidden args r hidden' ↔ r = args.mapM f ∧ hidden' = hidden := by
  induction args generalizing r hidden' with
  | nil =>
    rw [List.mapM_nil]
    constructor
    · rintro ⟨⟩
      exact ⟨rfl, rfl⟩
    · rintro ⟨rfl, rfl⟩
      exact .nil
  | cons a args ih =>
    rw [List.forall_mem_cons] at hf
    obtain ⟨hfirst, hrest⟩ := hf
    rw [List.mapM_cons]
    constructor
    · intro h
      cases h with
      | fails h =>
        obtain ⟨hfa, rfl⟩ := (hfirst _ _).1 h
        rw [← hfa]
        exact ⟨rfl, rfl⟩
      | cons h hargs =>
        obtain ⟨hfa, rfl⟩ := (hfirst _ _).1 h
        obtain ⟨rfl, rfl⟩ := (ih hrest).1 hargs
        rw [← hfa]
        exact ⟨rfl, rfl⟩
    · rintro ⟨rfl, rfl⟩
      have hrun := (hfirst _ _).2 ⟨rfl, rfl⟩
      cases hfa : f a with
      | error e =>
        rw [hfa] at hrun
        exact .fails hrun
      | ok us =>
        rw [hfa] at hrun
        exact .cons hrun ((ih hrest).2 ⟨rfl, rfl⟩)

theorem expands_nil_iff {hidden hidden' : Finset Text} {r : Except PreprocessError (List Lexeme)} :
    Expands table hidden [] r hidden' ↔ r = .ok [] ∧ hidden' = hidden := by
  constructor
  · rintro ⟨⟩
    exact ⟨rfl, rfl⟩
  · rintro ⟨rfl, rfl⟩
    exact .nil

section Step

variable {hidden hidden' : Finset Text} {t : Lexeme} {ts : List Lexeme}
  {r : Except PreprocessError (List Lexeme)}

/-- A lexeme that stays is put in front of what the lexemes behind it give. -/
theorem expands_kept_iff {u : Lexeme} {behind : Except PreprocessError (List Lexeme)}
    (hfront : table.front (t.text ∈ hidden) t ts = .kept u)
    (hrest : ∀ r hidden', Expands table hidden ts r hidden' ↔ r = behind ∧ hidden' = hidden) :
    Expands table hidden (t :: ts) r hidden' ↔ r = behind.map (u :: ·) ∧ hidden' = hidden := by
  constructor
  · intro h
    cases h with
    | kept h hrun =>
      cases hfront.symm.trans h
      obtain ⟨rfl, rfl⟩ := (hrest _ _).1 hrun
      exact ⟨rfl, rfl⟩
    | refused h | argumentFails h | bodyFails h | invocation h => cases hfront.symm.trans h
  · rintro ⟨rfl, rfl⟩
    exact .kept hfront ((hrest _ _).2 ⟨rfl, rfl⟩)

theorem expands_refused_iff {e : PreprocessError}
    (hfront : table.front (t.text ∈ hidden) t ts = .refused e) :
    Expands table hidden (t :: ts) r hidden' ↔ r = .error e ∧ hidden' = hidden := by
  constructor
  · intro h
    cases h with
    | refused h =>
      cases hfront.symm.trans h
      exact ⟨rfl, rfl⟩
    | kept h | argumentFails h | bodyFails h | invocation h => cases hfront.symm.trans h
  · rintro ⟨rfl, rfl⟩
    exact .refused hfront

/-- An invocation runs its arguments, its body with one more hidden name, and what is behind it with
    the hidden names it began with. -/
theorem expands_invocation_iff {m : Macro} {args : List (List Lexeme)} {rest : List Lexeme}
    (hfront : table.front (t.text ∈ hidden) t ts = .invocation m args rest) (hnew : m.name ∉ hidden)
    {each : Except PreprocessError (List (List Lexeme))}
    (hargs : ∀ r hidden', ExpandsEach table hidden args r hidden' ↔ r = each ∧ hidden' = hidden)
    {inside : List Lexeme → Except PreprocessError (List Lexeme)}
    (hbody : ∀ body r hidden', Expands table (Insert.insert m.name hidden) body r hidden' ↔
      r = inside body ∧ hidden' = Insert.insert m.name hidden)
    {behind : Except PreprocessError (List Lexeme)}
    (hrest : ∀ r hidden', Expands table hidden rest r hidden' ↔ r = behind ∧ hidden' = hidden) :
    Expands table hidden (t :: ts) r hidden' ↔
      r = (do
        let expanded ← each
        let body ← inside (substitute m expanded t.line)
        behind.map (body ++ ·)) ∧ hidden' = hidden := by
  have hrestore : (Insert.insert m.name hidden).erase m.name = hidden := Finset.erase_insert hnew
  constructor
  · intro h
    cases h with
    | kept h | refused h => cases hfront.symm.trans h
    | argumentFails h hrun =>
      cases hfront.symm.trans h
      obtain ⟨rfl, rfl⟩ := (hargs _ _).1 hrun
      exact ⟨rfl, rfl⟩
    | bodyFails h hrun hfails =>
      cases hfront.symm.trans h
      obtain ⟨rfl, rfl⟩ := (hargs _ _).1 hrun
      obtain ⟨hresult, rfl⟩ := (hbody _ _ _).1 hfails
      refine ⟨?_, hrestore⟩
      show _ = inside _ >>= _
      rw [← hresult]
      rfl
    | invocation h hrun hends hbehind =>
      cases hfront.symm.trans h
      obtain ⟨rfl, rfl⟩ := (hargs _ _).1 hrun
      obtain ⟨hresult, rfl⟩ := (hbody _ _ _).1 hends
      rw [hrestore] at hbehind
      obtain ⟨rfl, rfl⟩ := (hrest _ _).1 hbehind
      refine ⟨?_, rfl⟩
      show _ = inside _ >>= _
      rw [← hresult]
      rfl
  · rintro ⟨rfl, rfl⟩
    have hrun := (hargs _ _).2 ⟨rfl, rfl⟩
    cases each with
    | error e => exact .argumentFails hfront hrun
    | ok expanded =>
      have hends := (hbody (substitute m expanded t.line) _ _).2 ⟨rfl, rfl⟩
      show Expands table _ _ (inside _ >>= _) _
      cases hresult : inside (substitute m expanded t.line) with
      | error e =>
        rw [hresult] at hends
        have hfails := Expands.bodyFails hfront hrun hends
        rwa [hrestore] at hfails
      | ok body =>
        rw [hresult] at hends
        refine .invocation hfront hrun hends ?_
        rw [hrestore]
        exact (hrest _ _).2 ⟨rfl, rfl⟩

end Step

/-- A step ends if the runs that it calls do. They are those of the arguments, of the body
    and of what follows. -/
theorem expands_cons_iff {names : List Text} {t : Lexeme} {ts : List Lexeme}
    (hts : ∀ us, us.length ≤ ts.length → ∀ r hidden', Expands table names.toFinset us r hidden' ↔
      r = table.expandHiding table.macros.length names us ∧ hidden' = names.toFinset)
    (hbody : ∀ m ∈ table.macros, m.name ∉ names → ∀ body r hidden',
      Expands table (m.name :: names).toFinset body r hidden' ↔
        r = table.expandHiding table.macros.length (m.name :: names) body ∧
          hidden' = (m.name :: names).toFinset)
    (r : Except PreprocessError (List Lexeme)) (hidden' : Finset Text) :
    Expands table names.toFinset (t :: ts) r hidden' ↔
      r = table.expandHiding table.macros.length names (t :: ts) ∧ hidden' = names.toFinset := by
  have hseen : (decide (t.text ∈ names.toFinset) : Bool) = decide (t.text ∈ names) := by simp
  have hstep := expandHiding_cons table names t ts
  dsimp only at hstep
  rw [hstep, ← hseen]
  cases hfront : table.front (decide (t.text ∈ names.toFinset)) t ts with
  | kept u => exact expands_kept_iff hfront (hts ts (Nat.le_refl _))
  | refused e => exact expands_refused_iff hfront
  | invocation m args rest =>
    obtain ⟨hmem, hname, hvisible, hargs, hrest⟩ := front_invocation hfront
    have hnew : m.name ∉ names.toFinset := by
      rw [hname]
      simpa using hvisible
    have hinside := hbody m hmem fun h => hnew (List.mem_toFinset.2 h)
    rw [List.toFinset_cons] at hinside
    exact expands_invocation_iff hfront hnew
      (fun r hidden' => expandsEach_iff fun a ha => hts a (hargs a ha)) hinside (hts rest hrest)

/-- A run with the given hidden names ends in one way only: with the expansion, and with
    the names that were hidden when it began. -/
theorem expands_toFinset_iff (table : MacroTable) (names : List Text) (ts : List Lexeme)
    (r : Except PreprocessError (List Lexeme)) (hidden' : Finset Text) :
    Expands table names.toFinset ts r hidden' ↔
      r = table.expandHiding table.macros.length names ts ∧ hidden' = names.toFinset := by
  -- A body hides one more macro, though it may be longer than what it is put in for.
  induction hunhidden : table.unhidden names using Nat.strongRecOn generalizing names ts r
    hidden' with
  | _ n ihbody =>
  induction hlength : ts.length using Nat.strongRecOn generalizing ts r hidden' with
  | _ k ih =>
  cases ts with
  | nil =>
    rw [expands_nil_iff, expandHiding_nil]
  | cons t ts =>
    rw [List.length_cons] at hlength
    refine expands_cons_iff (fun us hus r hidden' => ?_) (fun m hmem hnew body r hidden' =>
      ?_) r hidden'
    · exact ih us.length (by omega) us r hidden' rfl
    · have hlt := unhidden_cons_lt hmem hnew
      exact ihbody _ (by omega) (m.name :: names) body r hidden' rfl

/-- **Expansion ends, and hides names in scope only.** Whatever macros a table holds, every
    expansion of lexemes ends, in one way only: with the result of `expand`, and without
    hidden names. The same holds of every expansion that is called on the way, whatever
    names are hidden when it is called, whether it succeeds or fails: it ends in one way,
    and leaves exactly these names hidden. -/
theorem expands_iff (table : MacroTable) (ts : List Lexeme) :
    (∀ r hidden', Expands table ∅ ts r hidden' ↔ r = table.expand ts ∧ hidden' = ∅) ∧
      ∀ hidden : Finset Text, ∃ r, ∀ r' hidden',
        Expands table hidden ts r' hidden' ↔ r' = r ∧ hidden' = hidden := by
  refine ⟨expands_toFinset_iff table [] ts, fun hidden => ?_⟩
  refine ⟨table.expandHiding table.macros.length hidden.toList ts, fun r' hidden' => ?_⟩
  have h := expands_toFinset_iff table hidden.toList ts r' hidden'
  rwa [Finset.toList_toFinset] at h

end IdlFrontend.MacroTable
