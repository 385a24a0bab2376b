import IdlFrontend.Proofs.Lexer.Stretches

/-!
# Counting lines

The lexer is asked for one token after the other. What it has read is then a sequence of
stretches, one behind the other, and its line is that of the last marker it has read, plus
the line breaks since. The lexer keeps it in a word of 64 bits, so that line 0 comes behind
the line with the largest number a marker can set.

Results:

* `lineBreaks_append`: line breaks add up where no line break is cut in two.
* `Accounts.step`: a stretch that is read leaves the account in order.
* `accounts_calls`: after any number of calls for a token, the account of the text is in
  order.
-/

namespace IdlFrontend

namespace Text

theorem lineBreaks_cons {c : Char} {cs : Text} (h : ¬(c = '\r' ∧ cs.head? = some '\n')) :
    lineBreaks (c :: cs) = (if isLineEnd c then 1 else 0) + lineBreaks cs := by
  have hcr : ∀ rest, c = '\r' → cs = '\n' :: rest → False := by
    rintro rest rfl rfl
    exact h ⟨rfl, rfl⟩
  rw [lineBreaks.eq_3 c cs hcr]
  split <;> omega

theorem uncut_of_cons {c : Char} {cs ds : Text} (h : Uncut (c :: cs) ds) : Uncut cs ds := by
  rintro ⟨hlast, hhead⟩
  refine h ⟨?_, hhead⟩
  rw [List.getLast?_cons, hlast]
  rfl

/-- Line breaks add up, unless one of them is cut in two. -/
theorem lineBreaks_append {cs ds : Text} (h : Uncut cs ds) :
    lineBreaks (cs ++ ds) = lineBreaks cs + lineBreaks ds := by
  induction cs using lineBreaks.induct with
  | case1 => rw [List.nil_append, lineBreaks, Nat.zero_add]
  | case2 cs ih =>
    rw [List.cons_append, List.cons_append, lineBreaks, lineBreaks,
      ih (uncut_of_cons (uncut_of_cons h))]
    omega
  | case3 c cs hcr hend ih | case4 c cs hcr hend ih =>
    have hwhole : ¬(c = '\r' ∧ cs.head? = some '\n') := by
      rintro ⟨rfl, hhead⟩
      obtain ⟨rest, rfl⟩ := List.head?_eq_some_iff.1 hhead
      exact hcr rest rfl rfl
    have hjoined : ¬(c = '\r' ∧ (cs ++ ds).head? = some '\n') := by
      rintro ⟨rfl, hhead⟩
      cases cs with
      | nil => exact h ⟨rfl, hhead⟩
      | cons d cs => exact hwhole ⟨rfl, hhead⟩
    rw [List.cons_append, lineBreaks_cons hjoined, lineBreaks_cons hwhole, ih (uncut_of_cons h)]
    omega

end Text

namespace Lexer

/-! ## Asking for tokens -/

/-- The stretches that the lexer reads up to the end of the next token. -/
def stretches (l : Lexer) : List Step :=
  if l.rest.isEmpty then []
  else match _h : l.step? with
    | none => []
    | some s => if s.token?.isSome then [s] else s :: stretches s.next
termination_by l.work
decreasing_by exact work_step_lt _h

/-- What comes of calls for the next token. -/
structure Calls where
  results : List (Except LexicalError (Option Token))
  /-- The stretches that the calls have read. -/
  read : List Step
  /-- The lexer behind them. -/
  last : Lexer

/-- Asks `n` times for the next token. -/
def calls (l : Lexer) : Nat → Calls
  | 0 => ⟨[], [], l⟩
  | n + 1 =>
    let more := l.next.2.calls n
    ⟨l.next.1 :: more.results, l.stretches ++ more.read, more.last⟩

/-- The token that a call has come to, if it has come to one. -/
def token? : Except LexicalError (Option Token) → Option Token
  | .ok t => t
  | .error _ => none

/-! ## The line in force -/

/-- The stretch marks the line behind it as the line `k`. Numbers that do not fit 64 bits
    mark nothing. -/
def Marks (s : Step) (k : Nat) : Prop :=
  s.rule.meaning = .lineMarker ∧
    ∃ digits, MarkerLine digits s.text ∧ Text.ofDigits? 10 digits = some k ∧ k < unsignedLimit

/-- The number of the line behind the stretches: they begin on line 1, the last marker
    among them sets the number, and every line break since adds one. -/
inductive LineBehind : List Step → Nat → Prop
  | start {ss : List Step} (h : ∀ s ∈ ss, ∀ k, ¬Marks s k) :
      LineBehind ss (1 + Text.lineBreaks (ss.flatMap Step.text))
  | marked {before after : List Step} {s : Step} {k : Nat} (hs : Marks s k)
      (h : ∀ t ∈ after, ∀ k, ¬Marks t k) :
      LineBehind (before ++ s :: after) (k + Text.lineBreaks (after.flatMap Step.text))

/-- The line is the one behind the stretches, in a word of 64 bits: its number if that fits,
    and otherwise what the word keeps of it. -/
def OnLine (ss : List Step) (line : UInt64) : Prop := ∃ n, LineBehind ss n ∧ line = .ofNat n

/-- The account of a text of which the stretches have been read. -/
structure Accounts (cs : Text) (ss : List Step) (l : Lexer) : Prop where
  text : ss.flatMap Step.text ++ l.rest = cs
  /-- A token is the stretch it was read from, on the line of its first character. -/
  token : ∀ {before after s t}, ss = before ++ s :: after → s.token? = some t →
    t.text = s.text ∧ OnLine before t.line
  /-- What becomes no token means nothing, but for pragmas and markers. -/
  silent : ∀ {before after s}, ss = before ++ s :: after → s.token? = none →
    Silent (before.flatMap Step.text) s.text (after.flatMap Step.text ++ l.rest)
  line : OnLine ss l.line
  lineStart : l.atLineStart ↔ AtLineStart (ss.flatMap Step.text)
  uncut : Uncut (ss.flatMap Step.text) l.rest

/-! ## One stretch more -/

variable {cs : Text} {ss : List Step} {l : Lexer} {s : Step} {n : Nat} {r : Rule}

/-- A stretch marks a line if it is read by the rule for markers. -/
theorem marks_iff (hr : r ∈ Rule.inMode l.mode) (hlen : r.length? l.atLineStart l.rest = some n)
    (k : Nat) :
    Marks (l.read n r) k ↔ r.meaning = .lineMarker ∧ markedLine? (l.rest.take n) = some k := by
  have hnumber (digits : Text) :
      Text.lineNumber? digits = some k ↔ Text.ofDigits? 10 digits = some k ∧ k < unsignedLimit := by
    simp [Text.lineNumber?, Option.filter_eq_some_iff]
  refine and_congr_right fun hmeaning => ?_
  have hmarker := hlen
  rw [Rule.length?, Rule.pattern_of_lineMarker hr hmeaning] at hmarker
  obtain ⟨digits, hdigits⟩ := Pattern.markerLine_of_length? hmarker
  constructor
  · rintro ⟨digits, hdigits, hk⟩
    exact hdigits.markedLine?_eq.trans ((hnumber digits).2 hk)
  · intro hk
    exact ⟨digits, hdigits, (hnumber digits).1 (hdigits.markedLine?_eq.symm.trans hk)⟩

@[simp] theorem line_change (l : Lexer) (c : ModeChange) : (l.change c).line = l.line := by
  have hpop : l.pop.line = l.line := by
    unfold pop
    split <;> rfl
  cases c with
  | stay | enter => rfl
  | leave | switch => exact hpop

/-- The line behind a stretch that marks none, and behind one that does. -/
theorem line_read (l : Lexer) (n : Nat) (r : Rule) :
    (l.read n r).next.line =
      if r.meaning = .lineMarker then
        ((markedLine? (l.rest.take n)).map UInt64.ofNat).getD
          (l.line + .ofNat (Text.lineBreaks (l.rest.take n)))
      else l.line + .ofNat (Text.lineBreaks (l.rest.take n)) := by
  show ((note _ _ _).change _).line = _
  rw [line_change]
  cases r.meaning with
  | nothing | token | word | number => rfl
  | pragma =>
    dsimp only [note]
    cases Pragma.ofLine? (l.rest.take n) <;> rfl
  | lineMarker =>
    dsimp only [note]
    cases markedLine? (l.rest.take n) <;> rfl

/-- The line in force behind one stretch more that marks no line. -/
theorem LineBehind.concat {k : Nat} (h : LineBehind ss k) (hs : ∀ k, ¬Marks s k)
    (huncut : Uncut (ss.flatMap Step.text) s.text) :
    LineBehind (ss ++ [s]) (k + Text.lineBreaks s.text) := by
  have hmore {after : List Step} (hafter : ∀ t ∈ after, ∀ k, ¬Marks t k) :
      ∀ t ∈ after ++ [s], ∀ k, ¬Marks t k :=
    List.forall_mem_append.2 ⟨hafter, List.forall_mem_singleton.2 hs⟩
  have hjoin {after : List Step} (hcut : Uncut (after.flatMap Step.text) s.text) :
      Text.lineBreaks ((after ++ [s]).flatMap Step.text) =
        Text.lineBreaks (after.flatMap Step.text) + Text.lineBreaks s.text := by
    rw [List.flatMap_append, List.flatMap_singleton, Text.lineBreaks_append hcut]
  cases h with
  | start h =>
    rw [Nat.add_assoc, ← hjoin huncut]
    exact .start (hmore h)
  | @marked before after t k ht h =>
    have hcut : Uncut (after.flatMap Step.text) s.text := by
      rintro ⟨hlast, hhead⟩
      refine huncut ⟨?_, hhead⟩
      rw [List.flatMap_append, List.flatMap_cons, List.getLast?_append, List.getLast?_append, hlast]
      rfl
    rw [Nat.add_assoc, ← hjoin hcut, List.append_assoc]
    exact .marked ht (hmore h)

theorem OnLine.concat {line : UInt64} (h : OnLine ss line) (hs : ∀ k, ¬Marks s k)
    (huncut : Uncut (ss.flatMap Step.text) s.text) :
    OnLine (ss ++ [s]) (line + .ofNat (Text.lineBreaks s.text)) := by
  obtain ⟨n, hn, rfl⟩ := h
  exact ⟨_, hn.concat hs huncut, (UInt64.ofNat_add _ _).symm⟩

/-- The last stretch, or one of those before it. -/
theorem eq_or_of_concat_eq {before after : List Step} {t : Step}
    (h : ss ++ [s] = before ++ t :: after) :
    (before = ss ∧ t = s ∧ after = []) ∨ ∃ more, after = more ++ [s] ∧
      ss = before ++ t :: more := by
  rcases List.eq_nil_or_concat after with rfl | ⟨more, u, rfl⟩
  · obtain ⟨rfl, hlast⟩ := List.append_inj' h rfl
    exact .inl ⟨rfl, (List.cons.inj hlast).1.symm, rfl⟩
  · rw [List.concat_eq_append, ← List.cons_append, ← List.append_assoc] at h
    obtain ⟨rfl, hlast⟩ := List.append_inj' h rfl
    rw [← (List.cons.inj hlast).1]
    exact .inr ⟨more, List.concat_eq_append, rfl⟩

theorem silent_of_token?_eq_none (h : (l.read n r).token? = none) :
    r.meaning ∈ [.nothing, .pragma, .lineMarker] := by
  have hkind : r.meaning.kind? l.dialect (l.rest.take n) = none := Option.map_eq_none_iff.1 h
  cases hm : r.meaning with
  | nothing | pragma | lineMarker => decide
  | token | word | number =>
    rw [hm] at hkind
    cases hkind

/-- A stretch that is read leaves the account in order. -/
theorem Accounts.step (h : Accounts cs ss l) (hs : l.step? = some s) :
    Accounts cs (ss ++ [s]) s.next := by
  have hrest : s.text ++ s.next.rest = l.rest := Step.text_append_rest hs
  have hjoin : (ss ++ [s]).flatMap Step.text = ss.flatMap Step.text ++ s.text := by
    rw [List.flatMap_append, List.flatMap_singleton]
  obtain ⟨n, r, hmatch, rfl⟩ := step?_eq_some_iff.1 hs
  obtain ⟨hr, hlen⟩ := Rule.longestMatch_mem hmatch
  have hcut : Uncut (ss.flatMap Step.text) (l.read n r).text := by
    rintro ⟨hlast, hhead⟩
    refine h.uncut ⟨hlast, ?_⟩
    rw [← hrest, List.head?_append, hhead]
    rfl
  refine ⟨?_, ?_, ?_, ?_, ?_, ?_⟩
  · rw [hjoin, List.append_assoc, hrest, h.text]
  · intro before after t token heq ht
    rcases eq_or_of_concat_eq heq with ⟨rfl, rfl, rfl⟩ | ⟨more, rfl, rfl⟩
    · obtain ⟨kind, -, rfl⟩ := Option.map_eq_some_iff.1 ht
      exact ⟨rfl, h.line⟩
    · exact h.token rfl ht
  · intro before after t heq ht
    rcases eq_or_of_concat_eq heq with ⟨rfl, rfl, rfl⟩ | ⟨more, rfl, rfl⟩
    · have hsilent := Rule.pattern_of_silent hr (silent_of_token?_eq_none ht)
      rw [List.flatMap_nil, List.nil_append, rest_read]
      exact Pattern.silent_of_length? hsilent h.lineStart.1 hlen
    · rw [List.flatMap_append, List.flatMap_singleton, List.append_assoc, hrest]
      exact h.silent rfl ht
  · have hline := line_read l n r
    by_cases hmeaning : r.meaning = .lineMarker
    · rw [if_pos hmeaning] at hline
      cases hk : markedLine? (l.rest.take n) with
      | some k =>
        rw [hk, Option.map_some, Option.getD_some] at hline
        rw [hline]
        have hmarks : Marks (l.read n r) k := (marks_iff hr hlen k).2 ⟨hmeaning, hk⟩
        exact ⟨k, .marked hmarks (List.forall_mem_nil _), rfl⟩
      | none =>
        rw [hk, Option.map_none, Option.getD_none] at hline
        rw [hline]
        refine h.line.concat (fun k hmarks => ?_) hcut
        have hsome := ((marks_iff hr hlen k).1 hmarks).2
        rw [hk] at hsome
        cases hsome
    · rw [if_neg hmeaning] at hline
      rw [hline]
      exact h.line.concat (fun k hmarks => hmeaning ((marks_iff hr hlen k).1 hmarks).1) hcut
  · rw [atLineStart_read, hjoin, AtLineStart, List.getLast?_append]
    show _ ↔ ∀ c ∈ (l.rest.take n).getLast?.or _, _
    cases (l.rest.take n).getLast? with
    | none => exact h.lineStart
    | some c => simp
  · have hread : Uncut (l.read n r).text (l.read n r).next.rest := by
      rw [rest_read]
      exact Pattern.uncut_of_length? (Rule.hasInlineMarks_of_mem hr) hlen
    rw [hjoin]
    by_cases hnil : (l.read n r).text = []
    · rw [hnil, List.nil_append] at hrest
      rw [hnil, List.append_nil, hrest]
      exact h.uncut
    · exact (Pattern.uncut_append hnil _ _).2 hread

/-- A call reads stretches up to the first one with a token, if there is one. -/
theorem Accounts.next (h : Accounts cs ss l) :
    Accounts cs (ss ++ l.stretches) l.next.2 ∧
      (token? l.next.1).toList = l.stretches.filterMap Step.token? := by
  fun_induction stretches l generalizing ss with
  | case1 l hrest =>
    rw [next_of_rest_eq_nil (by simpa using hrest), List.append_nil]
    exact ⟨h, rfl⟩
  | case2 l hrest hnone =>
    rw [next_of_no_step (by simpa using hrest) hnone, List.append_nil]
    exact ⟨h, rfl⟩
  | case3 l hrest s hs htoken =>
    obtain ⟨t, ht⟩ := Option.isSome_iff_exists.1 htoken
    rw [next_of_step (by simpa using hrest) hs, ht]
    exact ⟨h.step hs, by simp [ht, token?]⟩
  | case4 l hrest s hs htoken ih =>
    have hnone : s.token? = none := by simpa using htoken
    rw [next_of_step (by simpa using hrest) hs, hnone]
    obtain ⟨hmore, htokens⟩ := ih (h.step hs)
    refine ⟨by rwa [List.append_assoc] at hmore, ?_⟩
    rw [List.filterMap_cons, hnone]
    exact htokens

theorem Accounts.calls (h : Accounts cs ss l) (n : Nat) :
    Accounts cs (ss ++ (l.calls n).read) (l.calls n).last ∧
      (l.calls n).results.filterMap token? = (l.calls n).read.filterMap Step.token? := by
  induction n generalizing l ss with
  | zero => exact ⟨(List.append_nil ss).symm ▸ h, rfl⟩
  | succ n ih =>
    obtain ⟨hnext, htoken⟩ := h.next
    obtain ⟨hmore, htokens⟩ := ih hnext
    refine ⟨by rwa [List.append_assoc] at hmore, ?_⟩
    show (l.next.1 :: _).filterMap token? = (l.stretches ++ _).filterMap Step.token?
    rw [List.filterMap_append, ← htoken, ← htokens]
    cases hresult : token? l.next.1 <;> simp [hresult]

end Lexer

open Lexer

/-- A line break behind the marker with the largest number leads to line 0. -/
example :
    (ofText .omg "# 18446744073709551615\n\n".toList).step?.bind (fun s =>
      s.next.step?.map fun t => (s.next.line, t.next.line)) = some (18446744073709551615, 0) := by
  decide +kernel

end IdlFrontend
