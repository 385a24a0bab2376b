import IdlFrontend.Proofs.Lexer.LineCount

/-!
# The lexer stops

A call for the next token reads one stretch after the other. Reading the body of a code
fragment can take no character, so the place in the text is no measure of what is left;
`Lexer.work` is one, as such a body also leaves the mode. A lexer that has failed has read
the stretches before the illegal token, and stands still.

Results:

* `call_next`: every call comes to a result.
* `length_read_calls_le`: the calls together read no more stretches than there is work.
* `next_after_last`: behind the last token, a call changes nothing.
* `call_calls`: all of this, from whatever place and modes.
-/

namespace IdlFrontend

namespace Lexer

/-- A call for the next token that comes to a result: the stretches that it reads, what it
    returns, and the lexer behind it. -/
inductive Call : Lexer → List Step → Except LexicalError (Option Token) × Lexer → Prop
  | atEnd {l : Lexer} (hrest : l.rest = []) : Call l [] (.ok none, l)
  | stuck {l : Lexer} (hrest : l.rest ≠ []) (hstep : l.step? = none) :
      Call l [] (.error l.illegal, l)
  | token {l : Lexer} {s : Step} {t : Token} (hrest : l.rest ≠ []) (hstep : l.step? = some s)
      (ht : s.token? = some t) : Call l [s] (.ok (some t), s.next)
  | skip {l : Lexer} {s : Step} {ss : List Step} {r : Except LexicalError (Option Token) × Lexer}
      (hrest : l.rest ≠ []) (hstep : l.step? = some s) (ht : s.token? = none)
      (hmore : Call s.next ss r) : Call l (s :: ss) r

variable {l l' : Lexer} {ss : List Step} {r : Except LexicalError (Option Token) × Lexer}
  {e : LexicalError} {n : Nat}

/-! ## One call -/

theorem call_next (l : Lexer) : Call l l.stretches l.next := by
  fun_induction stretches l with
  | case1 l hrest =>
    have hnil : l.rest = [] := by simpa using hrest
    rw [next_of_rest_eq_nil hnil]
    exact .atEnd hnil
  | case2 l hrest hnone =>
    have hne : l.rest ≠ [] := by simpa using hrest
    rw [next_of_no_step hne hnone]
    exact .stuck hne hnone
  | case3 l hrest s hs htoken =>
    have hne : l.rest ≠ [] := by simpa using hrest
    obtain ⟨t, ht⟩ := Option.isSome_iff_exists.1 htoken
    rw [next_of_step hne hs, ht]
    exact .token hne hs ht
  | case4 l hrest s hs htoken ih =>
    have hne : l.rest ≠ [] := by simpa using hrest
    have hnone : s.token? = none := by simpa using htoken
    rw [next_of_step hne hs, hnone]
    exact .skip hne hs hnone ih

/-- A call has one result. -/
theorem Call.eq (h : Call l ss r) {ss' : List Step}
    {r' : Except LexicalError (Option Token) × Lexer} (h' : Call l ss' r') :
    ss = ss' ∧ r = r' := by
  induction h generalizing ss' r' with
  | atEnd hrest =>
    cases h' with
    | atEnd => exact ⟨rfl, rfl⟩
    | stuck hne | token hne | skip hne => exact absurd hrest hne
  | stuck hne hstep =>
    cases h' with
    | atEnd hrest => exact absurd hrest hne
    | stuck => exact ⟨rfl, rfl⟩
    | token _ hs | skip _ hs => rw [hstep] at hs; cases hs
  | token hne hstep ht =>
    cases h' with
    | atEnd hrest => exact absurd hrest hne
    | stuck _ hnone => rw [hstep] at hnone; cases hnone
    | token _ hs ht' =>
      rw [hstep] at hs
      cases hs
      rw [ht] at ht'
      cases ht'
      exact ⟨rfl, rfl⟩
    | skip _ hs ht' =>
      rw [hstep] at hs
      cases hs
      rw [ht] at ht'
      cases ht'
  | skip hne hstep ht _ ih =>
    cases h' with
    | atEnd hrest => exact absurd hrest hne
    | stuck _ hnone => rw [hstep] at hnone; cases hnone
    | token _ hs ht' =>
      rw [hstep] at hs
      cases hs
      rw [ht] at ht'
      cases ht'
    | skip _ hs _ hmore =>
      rw [hstep] at hs
      cases hs
      obtain ⟨rfl, rfl⟩ := ih hmore
      exact ⟨rfl, rfl⟩

/-- Every stretch that a call reads takes some of the work. -/
theorem Call.length_add_work_le (h : Call l ss r) : ss.length + r.2.work ≤ l.work := by
  induction h with
  | atEnd | stuck => exact Nat.le_of_eq (Nat.zero_add _)
  | token _ hstep =>
    have hlt := work_step_lt hstep
    simp only [List.length_singleton]
    omega
  | skip _ hstep _ _ ih =>
    have hlt := work_step_lt hstep
    simp only [List.length_cons]
    omega

/-! ## Calls that find no token -/

/-- A call that finds no token stands where it has come to: at the end of the text, or where
    no rule matches. -/
theorem Call.end_of_not_token (h : Call l ss r) (hr : ∀ t, r.1 ≠ .ok (some t)) :
    (r.2.rest = [] ∧ r.1 = .ok none) ∨
      (r.2.rest ≠ [] ∧ r.2.step? = none ∧ r.1 = .error r.2.illegal) := by
  induction h with
  | atEnd hrest => exact .inl ⟨hrest, rfl⟩
  | stuck hne hstep => exact .inr ⟨hne, hstep, rfl⟩
  | @token l s t => exact absurd rfl (hr t)
  | skip _ _ _ _ ih => exact ih hr

/-- Behind a call that has found no token, the next call finds the same and changes nothing. -/
theorem next_after_last (hr : ∀ t, l.next.1 ≠ .ok (some t)) : l.next.2.next = l.next := by
  rcases (call_next l).end_of_not_token hr with ⟨hrest, hresult⟩ | ⟨hne, hstep, hresult⟩
  · rw [next_of_rest_eq_nil hrest, ← hresult]
  · rw [next_of_no_step hne hstep, ← hresult]

/-- A call that has failed fails again, with the same error, whichever pragmas have been
    taken meanwhile. -/
theorem next_after_error (h : l.next = (.error e, l')) (pragmas : Pragmas) :
    ({ l' with pragmas } : Lexer).next = (.error e, { l' with pragmas }) := by
  have hcall := call_next l
  rw [h] at hcall
  rcases hcall.end_of_not_token (by rintro t ⟨⟩) with ⟨-, hresult⟩ | ⟨hne, hstep, hresult⟩
  · cases hresult
  · have hstuck : ({ l' with pragmas } : Lexer).step? = none := by
      rw [step?, Option.map_eq_none_iff] at hstep ⊢
      exact hstep
    obtain rfl : e = l'.illegal := Except.error.inj hresult
    exact next_of_no_step hne hstuck

/-! ## Any number of calls -/

/-- The calls together read no more stretches than there is work. -/
theorem length_read_calls_le (l : Lexer) (n : Nat) :
    (l.calls n).read.length + (l.calls n).last.work ≤ l.work := by
  induction n generalizing l with
  | zero => exact Nat.le_of_eq (Nat.zero_add _)
  | succ n ih =>
    have hcall := (call_next l).length_add_work_le
    have hmore := ih l.next.2
    show (l.stretches ++ (l.next.2.calls n).read).length + _ ≤ _
    rw [List.length_append]
    show _ + (l.next.2.calls n).last.work ≤ _
    omega

/-- Behind the last token, all calls are alike. -/
theorem calls_after_last (hr : ∀ t, l.next.1 ≠ .ok (some t)) (n : Nat) :
    (l.calls (n + 1)).results = List.replicate (n + 1) l.next.1 ∧
      (l.calls (n + 1)).last = l.next.2 := by
  induction n generalizing l with
  | zero => exact ⟨rfl, rfl⟩
  | succ n ih =>
    have hlast := next_after_last hr
    obtain ⟨hresults, hbehind⟩ := ih (l := l.next.2) (by rwa [hlast])
    rw [hlast] at hresults hbehind
    refine ⟨?_, hbehind⟩
    show l.next.1 :: _ = _
    rw [hresults, ← List.replicate_succ]

/-- The calls come to the end of the text or to an error, and stay there. -/
theorem exists_calls_last (l : Lexer) :
    ∃ (ts : List Token) (r : Except LexicalError (Option Token)) (last : Lexer),
      ts.length ≤ l.work ∧ (∀ t, r ≠ .ok (some t)) ∧
        ∀ n, (l.calls (ts.length + (n + 1))).results =
            ts.map (fun t => .ok (some t)) ++ List.replicate (n + 1) r ∧
          (l.calls (ts.length + (n + 1))).last = last := by
  induction hw : l.work using Nat.strongRecOn generalizing l with
  | ind w ih =>
    subst hw
    by_cases htoken : ∃ t, l.next.1 = .ok (some t)
    · obtain ⟨t, ht⟩ := htoken
      have hlt := work_next_lt ht
      obtain ⟨ts, r, last, hlength, hr, hcalls⟩ := ih _ hlt l.next.2 rfl
      refine ⟨t :: ts, r, last, ?_, hr, fun n => ?_⟩
      · rw [List.length_cons]
        omega
      · obtain ⟨hresults, hbehind⟩ := hcalls n
        rw [List.length_cons, Nat.add_right_comm]
        refine ⟨?_, hbehind⟩
        show l.next.1 :: _ = _
        rw [hresults, ht]
        rfl
    · have hr : ∀ t, l.next.1 ≠ .ok (some t) := fun t ht => htoken ⟨t, ht⟩
      refine ⟨[], l.next.1, l.next.2, Nat.zero_le _, hr, fun n => ?_⟩
      rw [List.length_nil, Nat.zero_add]
      exact calls_after_last hr n

end Lexer

open Lexer in
/-- **The lexer stops**, wherever it is and whatever modes it is in. A call for the next
    token comes to one result, `Lexer.next`, by reading finitely many stretches. All calls
    together read at most `Lexer.work` stretches: after the tokens `ts`, every call finds the
    end of the text or one and the same error, and stays where the first such call has come
    to. A call that has failed leaves the lexer so that it fails again and changes nothing,
    also when pragmas have been taken meanwhile. -/
theorem call_calls (l : Lexer) :
    (∀ ss r, Lexer.Call l ss r ↔ ss = l.stretches ∧ r = l.next) ∧
    (∀ n, (l.calls n).read.length ≤ l.work) ∧
    (∃ (ts : List Token) (r : Except LexicalError (Option Token)) (last : Lexer),
      ts.length ≤ l.work ∧ (∀ t, r ≠ .ok (some t)) ∧
        ∀ n, (l.calls (ts.length + (n + 1))).results =
            ts.map (fun t => .ok (some t)) ++ List.replicate (n + 1) r ∧
          (l.calls (ts.length + (n + 1))).last = last) ∧
    ∀ e l', l.next = (.error e, l') → ∀ pragmas,
      ({ l' with pragmas } : Lexer).next = (.error e, { l' with pragmas }) := by
  refine ⟨fun ss r => ⟨fun h => h.eq (call_next l), ?_⟩, fun n => ?_, exists_calls_last l, ?_⟩
  · rintro ⟨rfl, rfl⟩
    exact call_next l
  · have hread := length_read_calls_le l n
    omega
  · intro e l' h
    exact next_after_error h

open Lexer in
/-- The mark that ends a fragment is read, and then the same mode finds no rule for what is
    left; taking a pragma changes nothing about it. -/
theorem call_calls_skipped :
    let l : Lexer :=
      { dialect := .web, rest := "%\x7d%".toList, mode := .fragmentEnd, below := [.fragmentEnd],
        pragmas := [] }
    let l' : Lexer := { l with rest := ['%'], atLineStart := false, below := [] }
    l.next = (.error ⟨['%'], .fragmentEnd, 1⟩, l') ∧
      l'.next = (.error ⟨['%'], .fragmentEnd, 1⟩, l') := by
  intro l l'
  have hnext : l.next = (.error ⟨['%'], .fragmentEnd, 1⟩, l') := by
    rw [next_of_step (by decide) (s := l.read 2 ⟨.mark '%' ['}'], .nothing, .leave⟩) (by decide)]
    exact next_of_no_step (by decide) (by decide)
  exact ⟨hnext, (call_calls l).2.2.2 _ l' hnext []⟩

end IdlFrontend
