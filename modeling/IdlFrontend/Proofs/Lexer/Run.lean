import IdlFrontend.Token.Lexer

/-!
# Runs of the lexer

The tokens of a text are what is left of the steps that read it. This module
describes a run by its steps, one stretch of text after the other.

Results:

* `tokenize_of_step`: the first step of a run, and the run behind it.
* `tokenize_eq_steps`: the tokens of a run are those of its steps, and a run without
  failure reads the whole text.
* `steps_of_stepsWithin`: a run of at most a given number of steps can be computed.
* `exists_of_steps_eq`: what every step preserves holds before every step of a run.
-/

namespace IdlFrontend.Lexer

/-- The steps of a run, up to the end of the text or the first place where no rule
    matches. -/
def steps (l : Lexer) : List Step :=
  if l.rest.isEmpty then []
  else match _h : l.step? with
    | none => []
    | some s => s :: steps s.next
termination_by l.work
decreasing_by exact work_step_lt _h

theorem steps_of_step {l : Lexer} {s : Step} (hrest : l.rest ≠ []) (h : l.step? = some s) :
    l.steps = s :: s.next.steps := by
  rw [steps, if_neg (by simpa using hrest)]
  split
  next hnone =>
    rw [hnone] at h
    cases h
  next t ht =>
    rw [ht] at h
    cases h
    rfl

theorem next_of_rest_eq_nil {l : Lexer} (hrest : l.rest = []) : l.next = (.ok none, l) := by
  rw [next, if_pos (by simp [hrest])]

theorem next_of_step {l : Lexer} {s : Step} (hrest : l.rest ≠ []) (h : l.step? = some s) :
    l.next = match s.token? with
      | some t => (.ok (some t), s.next)
      | none => s.next.next := by
  rw [next, if_neg (by simpa using hrest)]
  split
  next hnone =>
    rw [hnone] at h
    cases h
  next t ht =>
    rw [ht] at h
    cases h
    rfl

theorem next_of_no_step {l : Lexer} (hrest : l.rest ≠ []) (h : l.step? = none) :
    l.next = (.error l.illegal, l) := by
  rw [next, if_neg (by simpa using hrest)]
  split
  · rfl
  next t ht =>
    rw [ht] at h
    cases h

theorem tokenize_of_rest_eq_nil {l : Lexer} (hrest : l.rest = []) : l.tokenize = ([], none, l) := by
  have hnext := next_of_rest_eq_nil hrest
  rw [tokenize]
  split <;> rename_i heq <;> rw [hnext] at heq <;> cases heq
  rfl

theorem tokenize_of_no_step {l : Lexer} (hrest : l.rest ≠ []) (h : l.step? = none) :
    l.tokenize = ([], some l.illegal, l) := by
  have hnext := next_of_no_step hrest h
  rw [tokenize]
  split <;> rename_i heq <;> rw [hnext] at heq <;> cases heq
  rfl

theorem tokenize_of_step {l : Lexer} {s : Step} (hrest : l.rest ≠ []) (h : l.step? = some s) :
    l.tokenize =
      (s.token?.toList ++ s.next.tokenize.1, s.next.tokenize.2.1, s.next.tokenize.2.2) := by
  have hnext := next_of_step hrest h
  cases ht : s.token? with
  | some t =>
    rw [ht] at hnext
    rw [tokenize]
    split <;> rename_i heq <;> rw [hnext] at heq <;> cases heq
    rfl
  | none =>
    rw [ht] at hnext
    dsimp only at hnext
    rw [tokenize, tokenize, hnext]
    rfl

/-- The tokens of a run are those of its steps. A run without failure reads the whole
    text. -/
theorem tokenize_eq_steps (l : Lexer) :
    l.tokenize.1 = l.steps.filterMap Step.token? ∧
      (l.tokenize.2.1 = none → l.steps.flatMap Step.text = l.rest) := by
  fun_induction steps l with
  | case1 l hrest =>
    rw [tokenize_of_rest_eq_nil (by simpa using hrest)]
    exact ⟨rfl, fun _ => (by simpa using hrest : l.rest = []).symm⟩
  | case2 l hrest h =>
    rw [tokenize_of_no_step (by simpa using hrest) h]
    exact ⟨rfl, fun hfail => by cases hfail⟩
  | case3 l hrest s h ih =>
    rw [tokenize_of_step (by simpa using hrest) h]
    refine ⟨?_, fun hok => ?_⟩
    · rw [ih.1, List.filterMap_cons]
      cases s.token? <;> rfl
    · rw [List.flatMap_cons, ih.2 hok, Step.text_append_rest h]

theorem tokenize_of_ofText_ok {dialect : Dialect} {cs : Text} {ts : List Token}
    (h : Token.ofText dialect cs = .ok ts) :
    (ofText dialect cs).tokenize.1 = ts ∧ (ofText dialect cs).tokenize.2.1 = none := by
  unfold Token.ofText at h
  split at h
  next heq =>
    cases h
    rw [heq]
    exact ⟨rfl, rfl⟩
  · cases h

theorem ofText_of_tokenize_ok {dialect : Dialect} {cs : Text}
    (h : (ofText dialect cs).tokenize.2.1 = none) :
    Token.ofText dialect cs = .ok (ofText dialect cs).tokenize.1 := by
  unfold Token.ofText
  split
  next heq => rw [heq]
  next heq =>
    rw [heq] at h
    cases h

/-- The steps of a run, if it reads the whole text in at most `n` steps. -/
def stepsWithin (n : Nat) (l : Lexer) : Option (List Step) :=
  if l.rest.isEmpty then some []
  else match n with
    | 0 => none
    | n + 1 => l.step?.bind fun s => (stepsWithin n s.next).map (s :: ·)

theorem steps_of_stepsWithin {n : Nat} {l : Lexer} {ss : List Step}
    (h : l.stepsWithin n = some ss) : l.steps = ss ∧ l.tokenize.2.1 = none := by
  induction n generalizing l ss with
  | zero =>
    unfold stepsWithin at h
    split at h
    next hrest =>
      cases h
      rw [steps, if_pos hrest, tokenize_of_rest_eq_nil (by simpa using hrest)]
      exact ⟨rfl, rfl⟩
    · cases h
  | succ n ih =>
    unfold stepsWithin at h
    split at h
    next hrest =>
      cases h
      rw [steps, if_pos hrest, tokenize_of_rest_eq_nil (by simpa using hrest)]
      exact ⟨rfl, rfl⟩
    next hrest =>
      obtain ⟨s, hs, hmap⟩ := Option.bind_eq_some_iff.1 h
      obtain ⟨ss, hss, rfl⟩ := Option.map_eq_some_iff.1 hmap
      obtain ⟨hsteps, hok⟩ := ih hss
      have hne : l.rest ≠ [] := by simpa using hrest
      rw [steps_of_step hne hs, tokenize_of_step hne hs, hsteps]
      exact ⟨rfl, hok⟩

theorem ofText_of_stepsWithin {n : Nat} {dialect : Dialect} {cs : Text} {ss : List Step}
    (h : (ofText dialect cs).stepsWithin n = some ss) :
    Token.ofText dialect cs = .ok (ss.filterMap Step.token?) := by
  obtain ⟨hsteps, hok⟩ := steps_of_stepsWithin h
  rw [ofText_of_tokenize_ok hok, (tokenize_eq_steps _).1, hsteps]

/-- What holds at the start and is preserved by every step holds before every step of
    a run. -/
theorem exists_of_steps_eq {I : Text → Lexer → Prop}
    (hstep : ∀ {read : Text} {l : Lexer} {s : Step}, I read l → l.step? = some s →
      I (read ++ s.text) s.next)
    {l : Lexer} {read : Text} (hI : I read l) {before after : List Step} {s : Step}
    (h : l.steps = before ++ s :: after) :
    ∃ l' : Lexer, I (read ++ before.flatMap Step.text) l' ∧ l'.step? = some s ∧
      l'.steps = s :: after ∧ before.flatMap Step.text ++ l'.rest = l.rest := by
  induction before generalizing l read with
  | nil =>
    refine ⟨l, by simpa using hI, ?_, h, rfl⟩
    rw [steps] at h
    split at h
    · cases h
    · split at h
      · cases h
      next hs =>
        cases h
        exact hs
  | cons t before ih =>
    rw [steps] at h
    split at h
    · cases h
    · split at h
      · cases h
      next t' ht =>
        obtain ⟨rfl, hrest⟩ := List.cons.inj h
        obtain ⟨l', hI', hs', hsteps, htext⟩ := ih (hstep hI ht) hrest
        refine ⟨l', ?_, hs', hsteps, ?_⟩
        · rwa [List.flatMap_cons, ← List.append_assoc]
        · rw [List.flatMap_cons, List.append_assoc, htext, Step.text_append_rest ht]

end IdlFrontend.Lexer
