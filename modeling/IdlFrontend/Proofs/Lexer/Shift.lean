import IdlFrontend.Proofs.Lexer.LineCount

/-!
# A text further down

What the lexer reads does not depend on the number of the line that it starts on. Only the lines
of the tokens do, up to the first marker, which numbers the lines anew.

Results:

* `step?_shift`: the same stretch is read further down, on a line that is as much further down.
* `tokenize_shift`: so are all tokens before the first stretch that sets the line.
-/

namespace IdlFrontend

/-- The stretch sets the number of the line behind it. -/
def Step.setsLine (s : Step) : Bool := s.rule.meaning == .lineMarker && (markedLine? s.text).isSome

/-- The token `k` lines further down. -/
def Token.shift (k : Nat) (t : Token) : Token := { t with line := t.line + .ofNat k }

/-- The lexer `k` lines further down. -/
def Lexer.shift (k : Nat) (l : Lexer) : Lexer := { l with line := l.line + .ofNat k }

/-- The stretch `k` lines further down. -/
def Step.shift (k : Nat) (s : Step) : Step :=
  { s with
    token? := s.token?.map (Token.shift k)
    next := if s.setsLine then s.next else s.next.shift k }

/-- The tokens of stretches that are read `k` lines further down. Behind one that sets the line,
    it makes no difference where they are read. -/
def shiftedTokens (k : Nat) (ss : List Step) : List Token :=
  ((ss.takeWhile (!·.setsLine)).filterMap Step.token?).map (Token.shift k) ++
    (ss.dropWhile (!·.setsLine)).filterMap Step.token?

theorem shiftedTokens_cons_of_setsLine {s : Step} (h : s.setsLine) (k : Nat) (ss : List Step) :
    shiftedTokens k (s :: ss) = s.token?.toList ++ ss.filterMap Step.token? := by
  simp only [shiftedTokens, List.takeWhile_cons, List.dropWhile_cons, h, Bool.not_true,
    Bool.false_eq_true,
    if_false, List.filterMap_cons, List.filterMap_nil, List.map_nil, List.nil_append]
  cases s.token? <;> rfl

theorem shiftedTokens_cons {s : Step} (h : s.setsLine = false) (k : Nat) (ss : List Step) :
    shiftedTokens k (s :: ss) = (s.token?.map (Token.shift k)).toList ++ shiftedTokens k ss := by
  simp only [shiftedTokens, List.takeWhile_cons, List.dropWhile_cons, h, Bool.not_false, if_true,
    List.filterMap_cons]
  cases s.token? <;> rfl

theorem Step.next_shift_of_setsLine {s : Step} (h : s.setsLine) (k : Nat) :
    (s.shift k).next = s.next :=
  if_pos h

theorem Step.next_shift {s : Step} (h : s.setsLine = false) (k : Nat) :
    (s.shift k).next = s.next.shift k :=
  if_neg (by simp [h])

namespace Lexer

variable (k : Nat) (l : Lexer)

theorem change_shift (c : ModeChange) : (l.shift k).change c = (l.change c).shift k := by
  have hpop : (l.shift k).pop = l.pop.shift k := by
    obtain ⟨_, _, _, _, _, below, _⟩ := l
    cases below <;> rfl
  cases c with
  | stay | enter => rfl
  | leave => exact hpop
  | switch mode =>
    show (l.shift k).pop.push mode = (l.pop.push mode).shift k
    rw [hpop]
    rfl

theorem skip_shift (n : Nat) : (l.shift k).skip n = (l.skip n).shift k := by
  simp only [skip, shift]
  rw [UInt64.add_assoc, UInt64.add_comm (.ofNat k), ← UInt64.add_assoc]

/-- What is remembered is the same further down, unless it is the line. -/
theorem note_shift (text : Text) (m : Meaning) :
    (l.shift k).note text m =
      if m == .lineMarker && (markedLine? text).isSome then l.note text m else
        (l.note text m).shift k := by
  cases m with
  | nothing | token | word | number => rfl
  | pragma =>
    dsimp only [note]
    cases Pragma.ofLine? text <;> rfl
  | lineMarker =>
    dsimp only [note]
    cases markedLine? text <;> rfl

theorem setsLine_read (n : Nat) (r : Rule) :
    (l.read n r).setsLine = (r.meaning == .lineMarker && (markedLine? (l.rest.take n)).isSome) :=
  rfl

theorem read_shift (n : Nat) (r : Rule) : (l.shift k).read n r = (l.read n r).shift k := by
  have hnext : ((l.shift k).read n r).next = ((l.read n r).shift k).next := by
    show (((l.shift k).skip n).note (l.rest.take n) r.meaning).change _ = _
    rw [skip_shift, note_shift]
    cases hsets : (l.read n r).setsLine with
    | true =>
      rw [Step.next_shift_of_setsLine hsets]
      rw [setsLine_read] at hsets
      rw [if_pos hsets]
      rfl
    | false =>
      rw [Step.next_shift hsets]
      rw [setsLine_read] at hsets
      rw [if_neg (Bool.eq_false_iff.1 hsets)]
      exact change_shift k _ _
  have htoken : ((l.shift k).read n r).token? = ((l.read n r).shift k).token? := by
    show (r.meaning.kind? l.dialect _).map _ = ((r.meaning.kind? l.dialect _).map _).map _
    rw [Option.map_map]
    rfl
  show Step.mk _ _ ((l.shift k).read n r).token? ((l.shift k).read n r).next = _
  rw [hnext, htoken]
  rfl

/-- The same stretch is read further down. -/
theorem step?_shift : (l.shift k).step? = l.step?.map (Step.shift k) := by
  unfold step?
  rw [Option.map_map]
  exact congrArg (Option.map · _) (funext fun ⟨n, r⟩ => read_shift k l n r)

/-- A stretch that sets the line is no token. -/
theorem token?_of_setsLine {l : Lexer} {s : Step} (h : l.step? = some s) (hsets : s.setsLine) :
    s.token? = none := by
  obtain ⟨n, r, -, rfl⟩ := step?_eq_some_iff.1 h
  rw [setsLine_read, Bool.and_eq_true, beq_iff_eq] at hsets
  simp only [read, hsets.1]
  rfl

/-- **The tokens of a text that begins further down.** They are as much further down, up to the
    first stretch that sets the line, and the same behind it. -/
theorem tokenize_shift :
    (l.shift k).tokenize.1 = shiftedTokens k l.steps ∧
      ((l.shift k).tokenize.2.1 = none ↔ l.tokenize.2.1 = none) := by
  fun_induction steps l with
  | case1 l hrest =>
    have hnil : l.rest = [] := by simpa using hrest
    rw [tokenize_of_rest_eq_nil hnil, tokenize_of_rest_eq_nil (l := l.shift k) hnil]
    exact ⟨rfl, Iff.rfl⟩
  | case2 l hrest h =>
    have hne : l.rest ≠ [] := by simpa using hrest
    rw [tokenize_of_no_step hne h, tokenize_of_no_step (l := l.shift k) hne
      (by rw [step?_shift, h]; rfl)]
    exact ⟨rfl, by simp⟩
  | case3 l hrest s h ih =>
    have hne : l.rest ≠ [] := by simpa using hrest
    have hstep := step?_shift k l
    rw [h, Option.map_some] at hstep
    rw [tokenize_of_step hne h, tokenize_of_step (l := l.shift k) hne hstep]
    cases hsets : s.setsLine with
    | true =>
      have htoken : s.token? = none := token?_of_setsLine h hsets
      have htoken' : (s.shift k).token? = none := by rw [Step.shift, htoken]; rfl
      rw [Step.next_shift_of_setsLine hsets, shiftedTokens_cons_of_setsLine hsets, htoken, htoken']
      exact ⟨(tokenize_eq_steps s.next).1, Iff.rfl⟩
    | false =>
      rw [Step.next_shift hsets, shiftedTokens_cons hsets]
      exact ⟨congrArg _ ih.1, ih.2⟩

end Lexer

end IdlFrontend
