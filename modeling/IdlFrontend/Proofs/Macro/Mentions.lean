import Mathlib.Logic.Relation
import IdlFrontend.Proofs.Macro.Argument
import IdlFrontend.Proofs.Macro.ObjectLike

/-!
# What a macro mentions

Expansion finds a macro by the words of the text and of the bodies that are put in. What
none of them mentions does not matter. Where no chain of bodies leads back to the macro it
began with, hiding a macro in its own body does not matter either: nothing in the body
leads to it.

Results:

* `expand_erase_of_avoid`, `expand_insert_of_avoid`: a definition that nothing mentions.
* `isAcyclic_of_rank`: macros that are ranked mention each other without a cycle.
* `expand_unfolds`: without parameters and cycles, every macro is replaced as far as its
  body leads, and nothing is left to expand.
-/

namespace IdlFrontend

/-- What is left of a lexeme that is no macro: `__LINE__` stands for the line it is on. -/
def Lexeme.answerLine (t : Lexeme) : Lexeme :=
  if t.kind = .word ∧ t.text = "__LINE__".toList then ⟨.number, Text.ofNat t.line, t.line⟩ else t

namespace MacroTable

open Lexeme Relation

variable {table : MacroTable}

/-! ## Definitions that nothing mentions -/

/-- Tables that differ in one name only expand alike what avoids the name, if no body of
    another macro has it either. -/
theorem expand_eq_of_avoid {table' : MacroTable} {name : Text} {ts : List Lexeme}
    (hsame : ∀ other, other ≠ name → table.find? other = table'.find? other)
    (hbodies : ∀ m ∈ table.macros, m.name ≠ name → Avoid name m.body) (hts : Avoid name ts) :
    table.expand ts = table'.expand ts :=
  expandHiding_eq_of_find? (admits_avoid name) (fun m hm hname => hbodies m hm (hname rfl))
    (fun other hother => hsame other (hother rfl)) (table.unhidden_le []) (table'.unhidden_le [])
    (fun _ _ => Iff.rfl) fun t ht => ⟨hts t ht, trivial⟩

/-- A macro that nothing else mentions may be removed. -/
theorem expand_erase_of_avoid {name : Text} {ts : List Lexeme}
    (hbodies : ∀ k ∈ table.macros, k.name ≠ name → Avoid name k.body) (hts : Avoid name ts) :
    (table.erase name).expand ts = table.expand ts :=
  (expand_eq_of_avoid (fun _ hother => (find?_erase_of_ne table hother).symm) hbodies hts).symm

/-- **A definition that nothing mentions changes nothing.** If neither the lexemes nor the
    bodies of the other macros have the name of a macro, then the lexemes expand with it to
    the same lexemes, or fail with the same error, as without it or with what was defined
    under its name before. -/
theorem expand_insert_of_avoid {m : Macro} {ts : List Lexeme}
    (hbodies : ∀ k ∈ table.macros, k.name ≠ m.name → Avoid m.name k.body)
    (hts : Avoid m.name ts) : (table.insert m).expand ts = table.expand ts :=
  (expand_eq_of_avoid (fun _ hother => (find?_insert_of_ne table m hother).symm) hbodies hts).symm

/-- A macro `F` without parameters may become one with parameters, whatever is invoked
    beside it. -/
theorem expand_insert_of_avoid_call :
    let table : MacroTable := ⟨[⟨['F'], .none, [⟨.number, ['1'], 1⟩]⟩,
      ⟨['G'], .fixed [['x']], [⟨.word, ['x'], 1⟩, ⟨.word, ['G'], 1⟩]⟩]⟩
    let f : Macro := ⟨['F'], .fixed [['x']], [⟨.word, ['G'], 1⟩]⟩
    let ts : List Lexeme := [⟨.word, ['G'], 3⟩, ⟨.punctuation, ['('], 3⟩, ⟨.number, ['2'], 3⟩,
      ⟨.punctuation, [')'], 3⟩]
    (table.insert f).expand ts = table.expand ts ∧
      table.expand ts = .ok [⟨.number, ['2'], 3⟩, ⟨.word, ['G'], 3⟩] := by
  intro table f ts
  exact ⟨expand_insert_of_avoid (by decide) (by decide), by decide +kernel⟩

/-! ## Cycles -/

/-- The body of the macro `a` has the word `b`. -/
def Mentions (table : MacroTable) (a b : Text) : Prop :=
  ∃ m, table.find? a = some m ∧ ∃ t ∈ m.body, t.kind = .word ∧ t.text = b

/-- No chain of bodies, each of which mentions the next macro, leads back to the macro it
    began with. -/
def IsAcyclic (table : MacroTable) : Prop := ∀ name, ¬TransGen table.Mentions name name

/-- There is no cycle if the words of a body rank below its macro. -/
theorem isAcyclic_of_rank (rank : Text → Nat)
    (h : ∀ m ∈ table.macros, ∀ t ∈ m.body, t.kind = .word → rank t.text < rank m.name) :
    table.IsAcyclic := by
  have hstep : ∀ a b, table.Mentions a b → rank b < rank a := by
    rintro a b ⟨m, hfind, t, ht, hword, rfl⟩
    rw [← name_of_find? hfind]
    exact h m (mem_of_find? hfind) t ht hword
  have hchain {a b : Text} (hab : TransGen table.Mentions a b) : rank b < rank a := by
    induction hab with
    | single h => exact hstep _ _ h
    | tail _ h ih => exact Nat.lt_trans (hstep _ _ h) ih
  exact fun name hcycle => Nat.lt_irrefl _ (hchain hcycle)

/-- None of the words leads to a hidden name. -/
def IsClear (table : MacroTable) (hidden : List Text) (ts : List Lexeme) : Prop :=
  ∀ t ∈ ts, t.kind = .word → ∀ name ∈ hidden, ¬ReflTransGen table.Mentions t.text name

/-- Hiding a macro in its body leaves the body clear: it leads neither to what the macro
    did not lead to nor, without cycles, to the macro. -/
theorem isClear_body (hacyclic : table.IsAcyclic) {hidden : List Text} {t : Lexeme} {m : Macro}
    (hclear : ∀ name ∈ hidden, ¬ReflTransGen table.Mentions t.text name)
    (hfind : table.find? t.text = some m) :
    table.IsClear (t.text :: hidden) (restamp t.line m.body) := by
  intro v hv hword name hname hchain
  obtain ⟨u, hu, rfl⟩ := List.mem_map.1 hv
  have hmention : table.Mentions t.text u.text := ⟨m, hfind, u, hu, hword, rfl⟩
  rcases List.mem_cons.1 hname with rfl | hname
  · exact hacyclic t.text (TransGen.head' hmention hchain)
  · exact hclear name hname (ReflTransGen.head hmention hchain)

/-! ## Unfolding -/

/-- The lexemes with every macro replaced by its body, and every macro in the body by its
    own, as far as this leads. Nothing is hidden on the way. -/
inductive Unfolds (table : MacroTable) : List Lexeme → List Lexeme → Prop
  | nil : Unfolds table [] []
  | kept {t ts us} (h : t.kind = .word → table.find? t.text = none) (hrest : Unfolds table ts us) :
      Unfolds table (t :: ts) (t.answerLine :: us)
  | unfolded {t m ts vs us} (hword : t.kind = .word) (hfind : table.find? t.text = some m)
      (hbody : Unfolds table (restamp t.line m.body) vs) (hrest : Unfolds table ts us) :
      Unfolds table (t :: ts) (vs ++ us)

/-- Expansion has nothing to do with the lexeme. -/
def IsSettled (table : MacroTable) (t : Lexeme) : Prop :=
  t.kind = .word → table.find? t.text = none ∧ t.text ≠ "__LINE__".toList

instance (table : MacroTable) (t : Lexeme) : Decidable (table.IsSettled t) :=
  inferInstanceAs (Decidable (_ → _))

theorem isSettled_answerLine {t : Lexeme} (h : t.kind = .word → table.find? t.text = none) :
    table.IsSettled t.answerLine := by
  unfold answerLine
  split
  · intro hword
    cases hword
  next hother => exact fun hword => ⟨h hword, fun hline => hother ⟨hword, hline⟩⟩

/-- Unfolding leaves nothing to expand. -/
theorem Unfolds.isSettled {ts us : List Lexeme} (h : table.Unfolds ts us) :
    ∀ u ∈ us, table.IsSettled u := by
  induction h with
  | nil => exact List.forall_mem_nil _
  | kept h _ ih => exact List.forall_mem_cons.2 ⟨isSettled_answerLine h, ih⟩
  | unfolded _ _ _ _ ihbody ih => exact List.forall_mem_append.2 ⟨ihbody, ih⟩

/-- There is one way to unfold lexemes. -/
theorem Unfolds.unique {ts us vs : List Lexeme} (h : table.Unfolds ts us)
    (h' : table.Unfolds ts vs) :
    us = vs := by
  induction h generalizing vs with
  | nil =>
    cases h'
    rfl
  | kept hnone _ ih =>
    cases h' with
    | kept _ hrest => rw [ih hrest]
    | unfolded hword hfind => cases (hnone hword).symm.trans hfind
  | unfolded hword hfind _ _ ihbody ih =>
    cases h' with
    | kept hnone => cases (hnone hword).symm.trans hfind
    | unfolded _ hfind' hbody hrest =>
      cases hfind.symm.trans hfind'
      rw [ihbody hbody, ih hrest]

/-- A pass unfolds words that are not hidden if going over the bodies of these does. -/
theorem unfolds_flatMap_replace {hidden : List Text} {rescan : Text → List Lexeme → List Lexeme}
    {ts : List Lexeme} (hvisible : ∀ t ∈ ts, t.kind = .word → t.text ∉ hidden)
    (hbody : ∀ t ∈ ts, t.kind = .word → ∀ m, table.find? t.text = some m →
      table.Unfolds (restamp t.line m.body) (rescan m.name (restamp t.line m.body))) :
    table.Unfolds ts (ts.flatMap (table.replace hidden rescan)) := by
  induction ts with
  | nil => exact .nil
  | cons t ts ih =>
    obtain ⟨hvisible, hlater⟩ := List.forall_mem_cons.1 hvisible
    obtain ⟨hbody, hbodies⟩ := List.forall_mem_cons.1 hbody
    have hrest := ih hlater hbodies
    rw [List.flatMap_cons]
    by_cases hmacro : t.kind = .word ∧ ∃ m, table.find? t.text = some m
    · obtain ⟨hword, m, hfind⟩ := hmacro
      have hreplace : table.replace hidden rescan t = rescan m.name (restamp t.line m.body) := by
        rw [replace, if_neg (not_or.2 ⟨not_not_intro hword, hvisible hword⟩), hfind]
      rw [hreplace]
      exact .unfolded hword hfind (hbody hword m hfind) hrest
    · have hnone (hword : t.kind = .word) : table.find? t.text = none :=
        Option.eq_none_iff_forall_ne_some.2 fun m hfind => hmacro ⟨hword, m, hfind⟩
      have hreplace : table.replace hidden rescan t = [t.answerLine] := by
        unfold replace answerLine
        by_cases hword : t.kind = .word
        · rw [if_neg (not_or.2 ⟨not_not_intro hword, hvisible hword⟩), hnone hword]
          simp only [hword, true_and]
          split <;> rfl
        · rw [if_pos (Or.inl hword), if_neg fun h => hword h.1]
      rw [hreplace]
      exact .kept hnone hrest

/-- What does not lead to a hidden name is unfolded: the macros that are hidden stand
    strictly above what their bodies lead to. -/
theorem unfolds_replacement (hacyclic : table.IsAcyclic) {levels : Nat} {hidden : List Text}
    (hlevels : table.unhidden hidden ≤ levels) {ts : List Lexeme}
    (hclear : table.IsClear hidden ts) :
    table.Unfolds ts (ts.flatMap (table.replacement levels hidden)) := by
  have hvisible {hidden : List Text} {ts : List Lexeme} (hclear : table.IsClear hidden ts) :
      ∀ t ∈ ts, t.kind = .word → t.text ∉ hidden :=
    fun t ht hword hmem => hclear t ht hword t.text hmem .refl
  have hlt {hidden : List Text} {name : Text} {m : Macro} (hfind : table.find? name = some m)
      (hnew : name ∉ hidden) : table.unhidden (m.name :: hidden) < table.unhidden hidden :=
    unhidden_cons_lt (mem_of_find? hfind) (by rwa [name_of_find? hfind])
  induction levels generalizing hidden ts with
  | zero =>
    refine unfolds_flatMap_replace (hvisible hclear) fun t ht hword m hfind => ?_
    have := hlt hfind (hvisible hclear t ht hword)
    omega
  | succ levels ih =>
    refine unfolds_flatMap_replace (hvisible hclear) fun t ht hword m hfind => ?_
    have hbody := isClear_body hacyclic (hclear t ht hword) hfind
    rw [← name_of_find? hfind] at hbody
    have := hlt hfind (hvisible hclear t ht hword)
    exact ih (by omega) hbody

/-- **Without cycles, macros without parameters are replaced completely.** The expansion of
    lexemes never fails. It is the one thing that they unfold to, so that no macro is hidden
    from it: no macro is left in it, nor is `__LINE__`, and expanding it again changes nothing. -/
theorem expand_unfolds (hobject : table.IsObjectLike) (hacyclic : table.IsAcyclic)
    (ts : List Lexeme) : ∃ us, table.expand ts = .ok us ∧ (∀ vs, table.Unfolds ts vs ↔ vs = us) ∧
      (∀ u ∈ us, u.kind = .word → ¬table.isDefined u.text ∧ u.text ≠ "__LINE__".toList) ∧
      table.expand us = .ok us := by
  have hclear : table.IsClear [] ts := fun _ _ _ _ hname => absurd hname List.not_mem_nil
  have hunfolds : table.Unfolds ts (ts.flatMap table.expansion) :=
    unfolds_replacement hacyclic (table.unhidden_le []) hclear
  refine ⟨_, expand_of_isObjectLike hobject ts, fun vs => ⟨fun h => h.unique hunfolds, ?_⟩,
    fun u hu hword => ?_, expand_eq_self hunfolds.isSettled⟩
  · rintro rfl
    exact hunfolds
  obtain ⟨hnone, hline⟩ := hunfolds.isSettled u hu hword
  exact ⟨by simp [isDefined, hnone], hline⟩

/-- A macro that two others mention is replaced below both of them. -/
theorem expand_unfolds_diamond :
    let word (name : Char) : Lexeme := ⟨.word, [name], 1⟩
    let table :
    MacroTable := ⟨[⟨['A'], .none, [word 'B', word 'C']⟩, ⟨['B'], .none, [word 'D', word 'x']⟩,
      ⟨['C'], .none, [word 'D', ⟨.word, "__LINE__".toList, 1⟩]⟩,
        ⟨['D'], .none, [⟨.number, ['7'], 1⟩]⟩]⟩
    let us : List Lexeme := [⟨.number, ['7'], 4⟩, ⟨.word, ['x'], 4⟩, ⟨.number, ['7'], 4⟩,
      ⟨.number, ['4'], 4⟩]
    table.IsObjectLike ∧ table.IsAcyclic ∧ table.expand [⟨.word, ['A'], 4⟩] = .ok us ∧
      table.expand us = .ok us := by
  intro word table us
  let rank (name : Text) : Nat :=
    if name = ['A'] then 3
    else if name = ['B'] ∨ name = ['C'] then 2
    else if name = ['D'] then 1
    else 0
  have hobject : table.IsObjectLike := by decide
  have hacyclic : table.IsAcyclic := isAcyclic_of_rank rank (by decide)
  have hus : table.expand [⟨.word, ['A'], 4⟩] = .ok us :=
    (expand_of_isObjectLike hobject _).trans (congrArg Except.ok (by decide))
  obtain ⟨vs, hvs, -, -, hagain⟩ := expand_unfolds hobject hacyclic [⟨.word, ['A'], 4⟩]
  cases hus.symm.trans hvs
  exact ⟨hobject, hacyclic, hus, hagain⟩

end MacroTable

end IdlFrontend
