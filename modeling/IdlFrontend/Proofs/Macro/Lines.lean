import IdlFrontend.Proofs.Macro.Scoping

/-!
# The lines of an expansion

A body comes with the lines of its definition, and the arguments of an invocation may stand
on later lines than its name. Expansion puts both on the line of the name. So it leaves a row
of replacements, one for each lexeme that stays and one for each invocation, and all lexemes
of a replacement stand on the line it begins on. That keeps the order of lines, though not
the distances: what an invocation over several lines leaves stands on the first of them.

Results:

* `line_of_expandHiding_eq_error`: an error is on a line of the lexemes, however deep inside
  of arguments and bodies expansion fails.
* `expand_eq_ok_iff`: what expansion leaves is a row of replacements.
* `Replaces.line_eq`: a replacement stands on the line that it begins on.
* `expand_keeps_lines`: lines in order stay in order.
-/

namespace IdlFrontend.MacroTable

open Lexeme

variable {table : MacroTable}

/-! ## One step -/

section Front

variable {isHidden : Bool} {t : Lexeme} {ts : List Lexeme}

theorem front_kept_line {u : Lexeme} (h : table.front isHidden t ts = .kept u) :
    u.line = t.line := by
  unfold front at h
  split at h
  · cases h
    rfl
  split at h
  · split at h <;> cases h <;> rfl
  split at h
  · cases h
  split at h
  · cases h
    rfl
  split at h
  · cases h
  split at h <;> cases h

theorem bindArguments_error_line {m : Macro} {args : List (List Lexeme)} {line : Nat}
    {e : PreprocessError} (h : bindArguments m args line = .error e) : e.line = line := by
  unfold bindArguments at h
  split at h
  · cases h
  · split at h
    · cases h
    · split at h
      · cases h
      · cases h
        rfl
  · split at h
    · cases h
      rfl
    · cases h

/-- An invocation that is refused is refused on the line of its name. -/
theorem front_refused_line {e : PreprocessError} (h : table.front isHidden t ts = .refused e) :
    e.line = t.line := by
  unfold front at h
  split at h
  · cases h
  split at h
  · cases h
  split at h
  · cases h
  split at h
  · cases h
  split at h
  · cases h
    rfl
  split at h
  next hrefused =>
    cases h
    exact bindArguments_error_line hrefused
  next => cases h

variable {m : Macro} {args : List (List Lexeme)} {rest : List Lexeme}

/-- What holds of the lexemes an invocation is read from holds of its arguments and of what
    follows it. -/
theorem front_forall {G : LexemeKind → Text → Prop} {L : Nat → Prop} (hA : Admits G L)
    (h : table.front isHidden t ts = .invocation m args rest) (ht : L t.line)
    (hts : ∀ u ∈ ts, Meets G L u) :
    (∀ a ∈ args, ∀ u ∈ a, Meets G L u) ∧ ∀ u ∈ rest, Meets G L u := by
  obtain ⟨-, ⟨-, rfl, rfl⟩ | ⟨inner, list, hopen, hargs, hbound, rfl⟩⟩ :=
    cases_of_front_invocation h
  · exact ⟨List.forall_mem_nil _, hts⟩
  · exact invocation_forall hA ht hts hopen hargs hbound

theorem collectArguments_rest_suffix {depth : Nat} {ts : List Lexeme} {as : ArgumentList}
    (h : collectArguments depth ts = some as) : as.rest <:+ ts := by
  fun_induction collectArguments depth ts generalizing as with
  | case1 => cases h
  | case3 t ts =>
    cases h
    exact List.suffix_cons t ts
  | case2 depth t ts _ ih | case4 t ts _ _ depth ih | case5 depth t ts _ _ _ ih
  | case6 depth t ts _ _ _ ih =>
    obtain ⟨bs, hbs, rfl⟩ := Option.map_eq_some_iff.1 h
    exact (ih hbs).trans (List.suffix_cons t ts)

theorem afterOpening?_suffix {inner : List Lexeme} (h : afterOpening? ts = some inner) :
    inner <:+ ts := by
  unfold afterOpening? at h
  split at h
  next t rest heq =>
    split at h
    · cases h
      have hblanks := List.dropWhile_suffix Lexeme.isBlank (l := ts)
      rw [heq] at hblanks
      exact (List.suffix_cons t inner).trans hblanks
    · cases h
  · cases h

/-- What follows an invocation stood behind its name. -/
theorem front_rest_suffix (h : table.front isHidden t ts = .invocation m args rest) :
    rest <:+ ts := by
  obtain ⟨-, ⟨-, rfl, rfl⟩ | ⟨inner, list, hopen, hargs, hbound, rfl⟩⟩ :=
    cases_of_front_invocation h
  · exact List.suffix_refl _
  · exact (collectArguments_rest_suffix hargs).trans (afterOpening?_suffix hopen)

end Front

/-- Induction over lexemes: at an invocation over its arguments and what follows it. -/
theorem front_induction (table : MacroTable) {P : List Lexeme → Prop} (nil : P [])
    (cons : ∀ t ts, P ts →
      (∀ isHidden m args rest, table.front isHidden t ts = .invocation m args rest →
        (∀ a ∈ args, P a) ∧ P rest) →
      P (t :: ts))
    (ts : List Lexeme) : P ts := by
  induction hn : ts.length using Nat.strongRecOn generalizing ts with
  | _ n ih =>
  cases ts with
  | nil => exact nil
  | cons t ts =>
    rw [List.length_cons] at hn
    refine cons t ts (ih ts.length (by omega) ts rfl) fun isHidden m args rest hfront => ?_
    obtain ⟨-, -, -, hargs, hrest⟩ := front_invocation hfront
    refine ⟨fun a ha => ?_, ih rest.length (by omega) rest rfl⟩
    have := hargs a ha
    exact ih a.length (by omega) a rfl

/-! ## Lines -/

section Lines

variable {L : Nat → Prop}

/-- Any lexemes at all, on lines that have the property. -/
theorem admits_lines (L : Nat → Prop) : Admits (fun _ _ => True) L :=
  ⟨fun _ => trivial, trivial, trivial⟩

/-- Wherever its parameters get their lexemes from, a body is put on one line. -/
theorem substitute_line {m : Macro} {args : List (List Lexeme)} {line : Nat} :
    ∀ u ∈ substitute m args line, Meets (fun _ _ => True) (· = line) u :=
  substitute_forall rfl (fun _ _ => trivial) fun _ _ _ _ => trivial

theorem expandHiding_lines {levels : Nat} {hidden : List Text} {ts us : List Lexeme}
    (hts : ∀ t ∈ ts, L t.line) (h : table.expandHiding levels hidden ts = .ok us) :
    ∀ u ∈ us, L u.line :=
  fun u hu => (expandHiding_forall (admits_lines L) (fun _ _ _ _ _ => trivial)
    (fun t ht => ⟨trivial, hts t ht⟩) h u hu).2

theorem line_of_sweep_eq_error {hidden : List Text}
    {rescan : Text → List Lexeme → Except PreprocessError (List Lexeme)}
    (hrescan : ∀ name body e, (∀ t ∈ body, L t.line) → rescan name body = .error e → L e.line)
    {ts : List Lexeme} (hts : ∀ t ∈ ts, L t.line) {e : PreprocessError}
    (h : sweep table hidden rescan ts = .error e) : L e.line := by
  induction ts using front_induction table with
  | nil =>
    rw [sweep] at h
    cases h
  | cons t ts ih ihcall =>
    obtain ⟨ht, hts⟩ := List.forall_mem_cons.1 hts
    rw [sweep_cons_front] at h
    split at h
    next => exact ih hts (of_map_eq_error h)
    next hfront =>
      cases h
      rw [front_refused_line hfront]
      exact ht
    next m args rest hfront =>
      obtain ⟨ihargs, ihrest⟩ := ihcall _ m args rest hfront
      obtain ⟨hargs, hrest⟩ := front_forall (admits_lines L) hfront ht fun u hu =>
        ⟨trivial, hts u hu⟩
      rcases of_bind_eq_error h with hfails | ⟨expanded, -, h⟩
      · obtain ⟨a, ha, hfails⟩ := exists_mem_of_mapM_eq_error hfails
        exact ihargs a ha (fun u hu => (hargs a ha u hu).2) hfails
      rcases of_bind_eq_error h with hfails | ⟨body, -, h⟩
      -- The body stands on the line of the name, also where an argument was put in.
      · refine hrescan m.name _ e (fun u hu => ?_) hfails
        rw [(substitute_line u hu).2]
        exact ht
      · exact ihrest (fun u hu => (hrest u hu).2) (of_map_eq_error h)

/-- However deep inside of arguments and bodies expansion fails, the error is on a line of
    the lexemes that it began with. -/
theorem line_of_expandHiding_eq_error {levels : Nat} {hidden : List Text} {ts : List Lexeme}
    (hts : ∀ t ∈ ts, L t.line) {e : PreprocessError}
    (h : table.expandHiding levels hidden ts = .error e) : L e.line := by
  induction levels generalizing hidden ts e with
  | zero =>
    refine line_of_sweep_eq_error (fun _ _ _ _ hfails => ?_) hts h
    cases hfails
  | succ levels ih =>
    exact line_of_sweep_eq_error (fun _ _ _ hbody hfails => ih hbody hfails) hts h

end Lines

/-! ## Replacements -/

/-- What expansion leaves in one place. -/
structure Replacement where
  /-- The lexeme that stood here, or the name in front of the invocation that stood here. -/
  origin : Lexeme
  lexemes : List Lexeme

/-- What expansion leaves of lexemes, place by place. An invocation that stands in an
    argument or in a body of another has no place of its own. -/
inductive Replaces (table : MacroTable) : List Lexeme → List Replacement → Prop
  | nil : Replaces table [] []
  | kept {t ts u rs} (h : table.front false t ts = .kept u) (hrest : Replaces table ts rs) :
      Replaces table (t :: ts) (⟨t, [u]⟩ :: rs)
  | invocation {t ts m args rest expanded body rs}
      (h : table.front false t ts = .invocation m args rest)
      (hargs : args.mapM table.expand = .ok expanded)
      (hbody : table.expandHiding table.macros.length [m.name]
      (substitute m expanded t.line) = .ok body) (hrest : Replaces table rest rs) :
      Replaces table (t :: ts) (⟨t, body⟩ :: rs)

theorem expand_cons (table : MacroTable) (t : Lexeme) (ts : List Lexeme) :
    table.expand (t :: ts) = match table.front false t ts with
      | .kept u => (table.expand ts).map (u :: ·)
      | .refused e => .error e
      | .invocation m args rest => (do
        let expanded ← args.mapM table.expand
        let body ← table.expandHiding table.macros.length [m.name] (substitute m expanded t.line)
        (table.expand rest).map (body ++ ·)) := by
  have hvisible : decide (t.text ∈ ([] : List Text)) = false := by simp
  have hstep := expandHiding_cons table [] t ts
  dsimp only at hstep
  rw [hvisible] at hstep
  exact hstep

theorem exists_replaces_of_expand {ts us : List Lexeme} (h : table.expand ts = .ok us) :
    ∃ rs, table.Replaces ts rs ∧ us = rs.flatMap Replacement.lexemes := by
  induction ts using front_induction table generalizing us with
  | nil =>
    rw [expand, expandHiding_nil] at h
    cases h
    exact ⟨[], .nil, rfl⟩
  | cons t ts ih ihcall =>
    rw [expand_cons] at h
    split at h
    next u hfront =>
      obtain ⟨vs, hvs, rfl⟩ := exists_of_map_eq_ok h
      obtain ⟨rs, hrs, rfl⟩ := ih hvs
      exact ⟨⟨t, [u]⟩ :: rs, .kept hfront hrs, rfl⟩
    next => cases h
    next m args rest hfront =>
      obtain ⟨expanded, hargs, h⟩ := exists_of_bind_eq_ok h
      obtain ⟨body, hbody, h⟩ := exists_of_bind_eq_ok h
      obtain ⟨vs, hvs, rfl⟩ := exists_of_map_eq_ok h
      obtain ⟨rs, hrs, rfl⟩ := (ihcall _ m args rest hfront).2 hvs
      exact ⟨⟨t, body⟩ :: rs, .invocation hfront hargs hbody hrs, rfl⟩

variable {ts us : List Lexeme} {rs : List Replacement}

theorem Replaces.expand_eq (h : table.Replaces ts rs) :
    table.expand ts = .ok (rs.flatMap Replacement.lexemes) := by
  induction h with
  | nil => exact expandHiding_nil table _ []
  | kept h hrest ih =>
    rw [expand_cons, h, ih]
    rfl
  | invocation h hargs hbody hrest ih =>
    rw [expand_cons, h]
    dsimp only
    rw [hargs]
    show (table.expandHiding _ _ _ >>= _) = _
    rw [hbody, ih]
    rfl

/-- What expansion leaves is a row of replacements. -/
theorem expand_eq_ok_iff :
    table.expand ts = .ok us ↔ ∃ rs, table.Replaces ts rs ∧
      us = rs.flatMap Replacement.lexemes := by
  constructor
  · exact exists_replaces_of_expand
  · rintro ⟨rs, hrs, rfl⟩
    exact hrs.expand_eq

/-- Replacements stand in the order of what they replace. -/
theorem Replaces.origins_sublist (h : table.Replaces ts rs) :
    (rs.map Replacement.origin).Sublist ts := by
  induction h with
  | nil => exact List.Sublist.slnil
  | kept h hrest ih => exact ih.cons_cons _
  | invocation h hargs hbody hrest ih => exact (ih.trans (front_rest_suffix h).sublist).cons_cons _

/-- A replacement stands on the line that it begins on. -/
theorem Replaces.line_eq (h : table.Replaces ts rs) :
    ∀ r ∈ rs, ∀ u ∈ r.lexemes, u.line = r.origin.line := by
  induction h with
  | nil => exact List.forall_mem_nil _
  | kept h hrest ih =>
    refine List.forall_mem_cons.2 ⟨?_, ih⟩
    exact List.forall_mem_singleton.2 (front_kept_line h)
  | invocation h hargs hbody hrest ih =>
    refine List.forall_mem_cons.2 ⟨?_, ih⟩
    exact expandHiding_lines (L := (· = _)) (fun u hu => (substitute_line u hu).2) hbody

/-- Lexemes that stand each on the line of its replacement are in order if the places are. -/
theorem Replaces.ordered (h : table.Replaces ts rs) (hts : ts.Pairwise (·.line ≤ ·.line)) :
    (rs.flatMap Replacement.lexemes).Pairwise (·.line ≤ ·.line) := by
  have horigins := List.pairwise_map.1 (hts.sublist h.origins_sublist)
  refine List.pairwise_flatMap.2 ⟨fun r hr => ?_, ?_⟩
  · refine List.pairwise_of_forall_mem_list fun u hu v hv => ?_
    rw [h.line_eq r hr u hu, h.line_eq r hr v hv]
  · refine horigins.imp_of_mem fun {r r'} hr hr' hle u hu v hv => ?_
    rw [h.line_eq r hr u hu, h.line_eq r' hr' v hv]
    exact hle

/-- **Expansion keeps the order of lines.** Let the lines of lexemes never decrease. If they
    expand, then the lines of what they expand to never decrease either, each of them is the
    line of one of the lexemes, and all that an invocation leaves stands on the line of the
    name that was invoked, also where other invocations stood in its arguments or in the body
    of its macro. If they do not expand, the error is on the line of one of the lexemes. -/
theorem expand_keeps_lines (table : MacroTable) {ts : List Lexeme}
    (hts : ts.Pairwise (·.line ≤ ·.line)) :
    match table.expand ts with
    | .ok us =>
      us.Pairwise (·.line ≤ ·.line) ∧ (∀ u ∈ us, ∃ t ∈ ts, u.line = t.line) ∧
        ∃ rs, table.Replaces ts rs ∧ us = rs.flatMap Replacement.lexemes ∧
          ∀ r ∈ rs, ∀ u ∈ r.lexemes, u.line = r.origin.line
    | .error e => ∃ t ∈ ts, e.line = t.line := by
  have hself : ∀ t ∈ ts, ∃ t' ∈ ts, t.line = t'.line := fun t ht => ⟨t, ht, rfl⟩
  split
  next us hus =>
    obtain ⟨rs, hrs, rfl⟩ := exists_replaces_of_expand hus
    have hlines := expandHiding_lines (L := fun line => ∃ t ∈ ts, line = t.line) hself hus
    exact ⟨hrs.ordered hts, hlines, rs, hrs, rfl, hrs.line_eq⟩
  next e he =>
    exact line_of_expandHiding_eq_error (L := fun line => ∃ t ∈ ts, line = t.line) hself he

/-- An invocation over three lines, with another in its argument, leaves what it leaves on
    the first of them. Behind it lines are counted on. -/
theorem expand_keeps_lines_nested :
    let table : MacroTable := ⟨[⟨"ID".toList, .fixed [['x']], [⟨.word, ['x'], 7⟩]⟩,
      ⟨"TWO".toList, .none, [⟨.number, ['2'], 9⟩]⟩]⟩
    let ts := scan "ID(\nID(\nTWO))\n__LINE__".toList
    let us : List Lexeme := [⟨.number, ['2'], 1⟩, ⟨.newline, ['\n'], 3⟩, ⟨.number, ['4'], 4⟩]
    ts.Pairwise (·.line ≤ ·.line) ∧ table.expand ts = .ok us ∧
      us.Pairwise (·.line ≤ ·.line) ∧ (∀ u ∈ us, ∃ t ∈ ts, u.line = t.line) ∧
        ∃ rs, table.Replaces ts rs ∧ us = rs.flatMap Replacement.lexemes ∧
          ∀ r ∈ rs, ∀ u ∈ r.lexemes, u.line = r.origin.line := by
  intro table ts us
  have hts : ts.Pairwise (·.line ≤ ·.line) := by decide +kernel
  have hexpand : table.expand ts = .ok us := by
    dsimp only [ts]
    decide +kernel
  have h := expand_keeps_lines table hts
  rw [hexpand] at h
  exact ⟨hts, hexpand, h⟩

end IdlFrontend.MacroTable
