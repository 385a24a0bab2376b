import IdlFrontend.Proofs.Macro.Resemblance

/-!
# Conditions in other places

The conditions of directives ask the table which names are defined, and are expanded. With
tables that resemble each other, and lexemes that do not ask for their place, the answers are
the same.

Results:

* `Resembles.answerDefined`, `Resembles.conditionHolds`: what `#if` and `#elif` ask.
* `Resembles.branchHolds`: a condition that holds, or does not, still holds, or does not.
-/

namespace IdlFrontend

open Lexeme

theorem mem_of_definedName? {ts rest : List Lexeme} {name : Text}
    (h : definedName? ts = some (name, rest)) :
    (∃ t ∈ ts, t.kind = .word ∧ t.text = name) ∧ ∀ t ∈ rest, t ∈ ts := by
  have hblank {us : List Lexeme} {u : Lexeme} {vs : List Lexeme}
      (hus : us.dropWhile Lexeme.isBlank = u :: vs) :
      ∀ v ∈ u :: vs, v ∈ us := fun v hv =>
    (List.dropWhile_suffix Lexeme.isBlank).mem (by rw [hus]; exact hv)
  unfold definedName? at h
  split at h
  · cases h
  next t us heq =>
  obtain ⟨ht, hus⟩ := List.forall_mem_cons.1 (hblank heq)
  split at h
  next hword =>
    cases h
    exact ⟨⟨t, ht, hword, rfl⟩, hus⟩
  split at h
  · split at h
    · cases h
    next u vs heq' =>
    obtain ⟨hu, hvs⟩ := List.forall_mem_cons.1 (hblank heq')
    split at h
    next hword =>
      obtain ⟨after, hafter, hpair⟩ := Option.map_eq_some_iff.1 h
      cases hpair
      refine ⟨⟨u, hus u hu, hword, rfl⟩, fun v hv => hus v (hvs v ?_)⟩
      exact MacroTable.mem_of_afterClosing? hafter v hv
    · cases h
  · cases h

theorem definedName?_of_restamp {ts us rest : List Lexeme} {name : Text}
    (hsame : restamp 0 ts = restamp 0 us) (h : definedName? ts = some (name, rest)) :
    ∃ rest', definedName? us = some (name, rest') ∧ restamp 0 rest = restamp 0 rest' := by
  have hmap := congrArg definedName? hsame
  change definedName? (relabel (fun _ => 0) ts) = definedName? (relabel (fun _ => 0) us) at hmap
  rw [definedName?_relabel, definedName?_relabel, h] at hmap
  obtain ⟨⟨name', rest'⟩, hus, hpair⟩ := Option.map_eq_some_iff.1 hmap.symm
  obtain ⟨rfl, hrest⟩ := Prod.mk.inj hpair
  exact ⟨rest', hus, hrest.symm⟩

theorem name_ne_file_of_firstName? {ts : List Lexeme} (hts : ∀ t ∈ ts, Placeless t.kind t.text)
    {name : Text} (h : firstName? ts = some name) : name ≠ "__FILE__".toList := by
  cases ts with
  | nil => cases h
  | cons t ts =>
    obtain ⟨hword, rfl⟩ : t.kind = .word ∧ t.text = name := by simpa [firstName?] using h
    exact (hts t List.mem_cons_self hword).1

theorem exists_of_map_cons {ε : Type} {r : Except ε (List Lexeme)} {t : Lexeme} {vs : List Lexeme}
    (h : r.map (t :: ·) = .ok vs) : ∃ us, r = .ok us ∧ vs = t :: us := by
  cases r with
  | error e => cases h
  | ok us =>
    cases h
    exact ⟨us, rfl, rfl⟩

theorem conditionText_restamp (ts : List Lexeme) :
    conditionText (restamp 0 ts) = conditionText ts :=
  List.flatMap_map ..

namespace MacroTable.Resembles

variable {table table' : MacroTable}

theorem answerDefined (h : table.Resembles table') {ts us vs : List Lexeme}
    (hsame : restamp 0 ts = restamp 0 us) (hts : ∀ t ∈ ts, Placeless t.kind t.text) {line : Nat}
    (hvs : IdlFrontend.answerDefined table line ts = .ok vs) (line' : Nat) :
    ∃ ws, IdlFrontend.answerDefined table' line' us = .ok ws ∧ restamp 0 vs = restamp 0 ws ∧
      ∀ v ∈ vs, Placeless v.kind v.text := by
  fun_induction IdlFrontend.answerDefined table line ts generalizing us vs with
  | case1 =>
    cases hvs
    obtain rfl : us = [] := List.map_eq_nil_iff.1 hsame.symm
    exact ⟨[], by rw [IdlFrontend.answerDefined], rfl, List.forall_mem_nil _⟩
  | case2 => cases hvs
  | case3 t ts hdefined name rest hname ih =>
    obtain ⟨u, us, rfl, hkind, htext, hsame⟩ := exists_of_restamp_cons hsame
    obtain ⟨ht, hts⟩ := List.forall_mem_cons.1 hts
    obtain ⟨⟨n, hn, hword, rfl⟩, hmem⟩ := mem_of_definedName? hname
    obtain ⟨rest', hname', hrest⟩ := definedName?_of_restamp hsame hname
    obtain ⟨xs, hxs, rfl⟩ := exists_of_map_cons hvs
    obtain ⟨ws, hws, hsame, hplaceless⟩ := ih hrest (fun v hv => hts v (hmem v hv)) hxs
    refine ⟨⟨.number, [if table'.isDefined n.text then '1' else '0'], u.line⟩ :: ws, ?_, ?_,
      List.forall_mem_cons.2 ⟨by rintro ⟨⟩, hplaceless⟩⟩
    · rw [IdlFrontend.answerDefined, if_pos ⟨hkind.trans hdefined.1, htext.trans hdefined.2⟩]
      split
      next hnone => cases hname'.symm.trans hnone
      next hsome =>
        cases hname'.symm.trans hsome
        rw [hws]
        rfl
    · rw [h.isDefined (hts n hn hword).1]
      exact congrArg (List.cons _) hsame
  | case4 t ts hnot hcomment ih =>
    obtain ⟨u, us, rfl, hkind, htext, hsame⟩ := exists_of_restamp_cons hsame
    obtain ⟨ht, hts⟩ := List.forall_mem_cons.1 hts
    rw [IdlFrontend.answerDefined, hkind, htext, if_neg hnot, if_pos hcomment]
    exact ih hsame hts hvs
  | case5 t ts hnot hcomment ih =>
    obtain ⟨u, us, rfl, hkind, htext, hsame⟩ := exists_of_restamp_cons hsame
    obtain ⟨ht, hts⟩ := List.forall_mem_cons.1 hts
    obtain ⟨xs, hxs, rfl⟩ := exists_of_map_cons hvs
    obtain ⟨ws, hws, hsame, hplaceless⟩ := ih hsame hts hxs
    refine ⟨u :: ws, ?_, ?_, List.forall_mem_cons.2 ⟨ht, hplaceless⟩⟩
    · rw [IdlFrontend.answerDefined, hkind, htext, if_neg hnot, if_neg hcomment, hws]
      rfl
    · show (⟨t.kind, t.text, 0⟩ : Lexeme) :: restamp 0 xs = ⟨u.kind, u.text, 0⟩ :: restamp 0 ws
      rw [hkind, htext, hsame]

theorem conditionHolds (h : table.Resembles table') (htable : table.IsObjectLike)
    {args args' : List Lexeme} (hsame : restamp 0 args = restamp 0 args')
    (hargs : ∀ t ∈ args, Placeless t.kind t.text) {line : Nat}
    {holds : Bool} (hholds : IdlFrontend.conditionHolds table args line = .ok holds) (line' : Nat) :
    IdlFrontend.conditionHolds table' args' line' = .ok holds := by
  unfold IdlFrontend.conditionHolds at hholds ⊢
  cases hvs : IdlFrontend.answerDefined table line args with
  | error e =>
    rw [hvs] at hholds
    cases hholds
  | ok vs =>
    obtain ⟨ws, hws, hsame, hplaceless⟩ := h.answerDefined hsame hargs hvs line'
    obtain ⟨xs, ys, hxs, hys, hsame⟩ := h.expand htable hsame hplaceless
    rw [hvs] at hholds
    rw [hws]
    simp only [Except.bind, bind] at hholds ⊢
    rw [hxs] at hholds
    rw [hys]
    dsimp only at hholds ⊢
    rw [← conditionText_restamp, ← hsame, conditionText_restamp]
    cases hvalue : Condition.evaluate (conditionText xs) with
    | ok value =>
      rw [hvalue] at hholds
      exact hholds
    | error e =>
      rw [hvalue] at hholds
      cases hholds

theorem branchHolds (h : table.Resembles table') (htable : table.IsObjectLike)
    {d d' : DirectiveLine} (hsame : restamp 0 d.args = restamp 0 d'.args)
    (hargs : ∀ t ∈ d.args, Placeless t.kind t.text)
    {name : BranchName} {holds : Bool} (hholds : d.branchHolds table name = .ok holds) :
    d'.branchHolds table' name = .ok holds := by
  have hdefined {wanted : Bool} {opener : Opener}
      (hholds : Opener.holds.definedHolds opener table d.args d.line wanted = .ok holds) :
      Opener.holds.definedHolds opener table' d'.args d'.line wanted = .ok holds := by
    unfold Opener.holds.definedHolds at hholds ⊢
    have hname : firstName? d.args = firstName? d'.args := by
      rw [← firstName?_relabel (fun _ => 0), ← firstName?_relabel (fun _ => 0) d'.args]
      exact congrArg firstName? hsame
    rw [← hname]
    cases hfirst : firstName? d.args with
    | none =>
      rw [hfirst] at hholds
      cases hholds
    | some name =>
      rw [hfirst] at hholds
      rw [← hholds]
      dsimp only
      rw [h.isDefined (name_ne_file_of_firstName? hargs hfirst)]
  match name with
  | .opener .condition | .elif => exact h.conditionHolds htable hsame hargs hholds _
  | .opener .defined | .opener .undefined => exact hdefined hholds
  | .otherwise | .endif => exact hholds

end MacroTable.Resembles

end IdlFrontend
