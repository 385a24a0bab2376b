import Mathlib.Algebra.Group.Nat.Defs
import IdlFrontend.Proofs.Layout.Output
import IdlFrontend.Proofs.Lexer.Extension
import IdlFrontend.Proofs.Lexer.Relexing
import IdlFrontend.Proofs.Lexer.Shift

/-!
# Code fragments

The body of a code fragment is raw text up to the first closing mark. In its mode, the rule for
the body competes with those of all modes, and the longest match is used. Line breaks at the
front of a body are never longer than the body, and pragmas and markers cannot begin there. A
comment can be longer: it is skipped then, and the closing mark with it.

Results:

* `Pattern.lengthBefore?_of_mark`: the body ends before the first closing mark.
* `Lexer.step?_body`: the body is read as a whole, unless a comment at its front goes on behind it.
* `Lexer.ne_of_overruns`: otherwise there is no such token at the front of the text.
* `Token.ofText_fragment_iff`: so a fragment is one token exactly if no comment overruns its end.
-/

namespace IdlFrontend

open Pattern (isInline lengthBefore? runLength)

/-! ## Pairs of characters -/

/-- A pair does not reach over an item that is not part of it. -/
theorem pair_infix_append_iff {α : Type} {a b z : α} (ha : z ≠ a) (hb : z ≠ b) {xs ys : List α} :
    [a, b] <:+: xs ++ z :: ys ↔ [a, b] <:+: xs ∨ [a, b] <:+: ys := by
  induction xs with
  | nil => simp [List.infix_cons_iff, List.cons_prefix_cons, ha.symm]
  | cons c xs ih =>
    rw [List.cons_append, List.infix_cons_iff, List.infix_cons_iff, ih, or_assoc]
    refine or_congr_left ?_
    cases xs with
    | nil => simp [List.cons_prefix_cons, hb.symm]
    | cons d xs => simp [List.cons_prefix_cons]

namespace Pattern

theorem lengthBefore?_eq_none_iff {a b : Char} {cs : Text} :
    lengthBefore? a b cs = none ↔ ¬[a, b] <:+: cs := by
  induction cs with
  | nil => simp [lengthBefore?]
  | cons c cs ih =>
    rw [List.infix_cons_iff, not_or, ← ih, lengthBefore?]
    cases cs with
    | nil => simp [lengthBefore?]
    | cons d cs =>
      simp only [List.head?_cons, Option.some_beq_some, Bool.and_eq_true, beq_iff_eq,
        List.cons_prefix_cons, List.nil_prefix, and_true, eq_comm (a := a), eq_comm (a := b)]
      split
      next h => simp [h]
      next h => simp [h]

/-- A pair that is not in the text is found behind it. -/
theorem lengthBefore?_append_of_none {a b : Char} {cs rest : Text} (h : ¬[a, b] <:+: cs)
    (hhead : rest.head? ≠ some b) :
    lengthBefore? a b (cs ++ rest) = (lengthBefore? a b rest).map (· + cs.length) := by
  induction cs with
  | nil => simp
  | cons c cs ih =>
    rw [List.infix_cons_iff, not_or] at h
    have hc : ¬(c = a ∧ (cs ++ rest).head? = some b) := by
      rintro ⟨rfl, hcs⟩
      cases cs with
      | nil => exact hhead hcs
      | cons d cs =>
        obtain rfl := Option.some.inj hcs
        exact h.1 (List.prefix_append [c, d] cs)
    rw [List.cons_append, Lexeme.lengthBefore?_cons hc, ih h.2, Option.map_map]
    exact congrArg (Option.map · _) (funext fun n => Nat.add_assoc n _ _)

/-- A text that does not hold the pair ends before it. -/
theorem lengthBefore?_of_mark {a b : Char} (hne : a ≠ b) {cs : Text} (h : ¬[a, b] <:+: cs)
    (rest : Text) :
    lengthBefore? a b (cs ++ a :: b :: rest) = some cs.length := by
  have hfound : lengthBefore? a b (a :: b :: rest) = some 0 := by simp [lengthBefore?]
  have hhead : (a :: b :: rest).head? ≠ some b := by simpa using hne
  rw [lengthBefore?_append_of_none h hhead, hfound, Option.map_some, Nat.zero_add]

end Pattern

/-! ## Comments that go on behind the body -/

/-- A fragment with the given body, and the line feed behind it. -/
def fragmentText (body : Text) : Text := '%' :: '{' :: (body ++ ['%', '}', '\n'])

/-- A comment at the front of a body goes on behind its closing mark: a line comment if no line
    ends in the body, and a block comment if its end mark is not in the body but in the text
    behind the fragment. -/
inductive Overruns : (body rest : Text) → Prop
  | lineComment {cs rest : Text} (hopen : ∀ c ∈ cs, isInline c) : Overruns ('/' :: '/' :: cs) rest
  | blockComment {cs rest : Text} (hopen : ¬['*', '/'] <:+: cs) (hclosed : ['*', '/'] <:+: rest) :
      Overruns ('/' :: '*' :: cs) rest

namespace Lexer

variable {l : Lexer} {b t rest : Text}

/-! ## The marks of a fragment -/

theorem step?_openMark (hmode : l.mode = .ordinary) (hrest : l.rest = '%' :: '{' :: rest) :
    l.step? = some (l.read 2 ⟨.mark '%' ['{'], .nothing, .enter .fragment⟩) := by
  have hrules : ∀ r ∈ (⟨.word, .word, .stay⟩ :: Rule.literals ++ Punct.all.map
      (·.rule)) ++ Rule.general, r.pattern.canBegin '%' → r = Punct.percent.rule := by decide
  refine step?_eq_some_iff.2 ⟨2, _, ?_, rfl⟩
  rw [hmode, hrest]
  show Rule.longestMatch _ _ ([⟨.blanks, .nothing, .stay⟩] ++ ⟨.mark '%' ['{'], .nothing,
    .enter .fragment⟩ ::
    ((⟨.word, .word, .stay⟩ :: Rule.literals ++ Punct.all.map (·.rule)) ++ Rule.general)) = _
  refine Rule.longestMatch_of_first rfl (fun q hq k hk => ?_) fun q hq k hk => ?_
  · obtain rfl := List.mem_singleton.1 hq
    exact absurd (Pattern.canBegin_of_length? hk) (by decide)
  · obtain rfl := hrules q hq (Pattern.canBegin_of_length? hk)
    cases hk
    decide

theorem step?_closeMark (hmode : l.mode = .fragmentEnd) (hrest : l.rest = '%' :: '}' :: rest) :
    l.step? = some (l.read 2 ⟨.mark '%' ['}'], .nothing, .leave⟩) := by
  have hrules : ∀ r ∈ Rule.inMode .fragmentEnd, r.pattern.canBegin '%' →
      r = ⟨.mark '%' ['}'], .nothing, .leave⟩ := by decide
  refine step?_of_unique (by rw [hmode]; decide) (by rw [hrest]; rfl) ?_
  rw [hmode, hrest]
  exact fun s hs k hk => hrules s hs (Pattern.canBegin_of_length? hk)

/-! ## The body -/

/-- The mark of a comment in front of the closing mark stands in the body. -/
theorem exists_of_append_eq {c d : Char} (hc : c ≠ '%') (hd : d ≠ '%') {cs : Text}
    (h : b ++ '%' :: rest = c :: d :: cs) : ∃ cs', b = c :: d :: cs' ∧ cs = cs' ++ '%' :: rest := by
  cases b with
  | nil => exact absurd (List.cons.inj h).1.symm hc
  | cons e b =>
    rw [List.cons_append, List.cons.injEq] at h
    cases b with
    | nil => exact absurd (List.cons.inj h.2).1.symm hd
    | cons e' b =>
      rw [List.cons_append, List.cons.injEq] at h
      exact ⟨b, by rw [h.1, h.2.1], h.2.2.symm⟩

theorem le_of_lineCommentLength? (hover : ¬Overruns b t) {n : Nat}
    (h : Pattern.lineCommentLength? (b ++ '%' :: '}' :: '\n' :: t) = some n) : n ≤ b.length := by
  unfold Pattern.lineCommentLength? at h
  split at h
  next heq =>
    cases h
    obtain ⟨cs, rfl, rfl⟩ := exists_of_append_eq (by decide) (by decide) heq
    have hlt : runLength isInline cs < cs.length := by
      refine Nat.lt_of_not_le fun hle => hover (.lineComment ?_)
      have hall := Pattern.forall_mem_take_of_le_runLength hle
      rwa [List.take_length] at hall
    show runLength isInline (cs ++ _) + 2 ≤ _
    rw [Pattern.runLength_append_of_lt hlt, List.length_cons, List.length_cons]
    omega
  · cases h

/-- The end mark of a comment stands in the body or behind the fragment. -/
theorem closes_iff {cs : Text} :
    ['*', '/'] <:+: cs ++ '%' :: '}' :: '\n' :: t ↔ ['*', '/'] <:+: cs ∨ ['*', '/'] <:+: t := by
  have hclose : ['*', '/'] <:+: ['}'] ++ '\n' :: t ↔ ['*', '/'] <:+: ['}'] ∨ ['*', '/'] <:+: t :=
    pair_infix_append_iff (by decide) (by decide)
  rw [pair_infix_append_iff (by decide) (by decide)]
  exact or_congr_right (hclose.trans (or_iff_right (by decide)))

theorem le_of_blockCommentLength? (hover : ¬Overruns b t) {n : Nat}
    (h : Pattern.blockCommentLength? (b ++ '%' :: '}' :: '\n' :: t) = some n) : n ≤ b.length := by
  unfold Pattern.blockCommentLength? at h
  split at h
  next heq =>
    obtain ⟨k, hk, rfl⟩ := Option.map_eq_some_iff.1 h
    obtain ⟨cs, rfl, rfl⟩ := exists_of_append_eq (by decide) (by decide) heq
    cases hbody : lengthBefore? '*' '/' cs with
    | some j =>
      have hlt := Pattern.lengthBefore?_lt hbody
      rw [Pattern.lengthBefore?_append hbody] at hk
      cases hk
      rw [List.length_cons, List.length_cons]
      omega
    | none =>
      have hnone := Pattern.lengthBefore?_eq_none_iff.1 hbody
      have hsome : ['*', '/'] <:+: cs ++ '%' :: '}' :: '\n' :: t := by
        refine Decidable.byContradiction fun hnot => ?_
        rw [Pattern.lengthBefore?_eq_none_iff.2 hnot] at hk
        cases hk
      exact absurd (.blockComment hnone ((closes_iff.1 hsome).resolve_left hnone)) hover
  · cases h

/-- The body is read as a whole, unless a comment at its front overruns it. -/
theorem step?_body (hmode : l.mode = .fragment) (hstart : l.atLineStart = false)
    (hrest : l.rest = b ++ '%' :: '}' :: '\n' :: t) (hb : ¬['%', '}'] <:+: b)
    (hover : ¬Overruns b t) :
    l.step? = some (l.read b.length ⟨.fragmentBody, .token .fragment, .switch .fragmentEnd⟩) := by
  have hbody := Pattern.lengthBefore?_of_mark (by decide) hb ('\n' :: t)
  refine step?_eq_some_iff.2 ⟨_, _, ?_, rfl⟩
  rw [hmode, hstart, hrest]
  refine Rule.longestMatch_cons_of_le hbody fun k r hmatch => ?_
  obtain ⟨hr, hk⟩ := Rule.longestMatch_mem hmatch
  have hpattern := (Rule.of_mem_general hr).2.2
  simp only [List.mem_cons, List.not_mem_nil, or_false] at hpattern
  rw [← or_assoc] at hpattern
  rcases hpattern with hp | hp | hp | hp
  · exact absurd (Pattern.lineStart_of_length? hp hk).1 Bool.false_ne_true
  · rw [Rule.length?, hp] at hk
    obtain ⟨rfl, -⟩ := Pattern.nonzero_eq_some.1 hk
    exact Nat.le_trans (Pattern.lineBreakLength_le_runLength _)
      (Pattern.le_of_lengthBefore? (p := isLineEnd) rfl hbody)
  · rw [Rule.length?, hp] at hk
    exact le_of_lineCommentLength? hover hk
  · rw [Rule.length?, hp] at hk
    exact le_of_blockCommentLength? hover hk

/-! ## A fragment and the text behind it -/

/-- The lexer behind the opening mark of a fragment at the front of a text. -/
def inFragment (d : Dialect) (rest : Text) : Lexer :=
  { dialect := d, rest, atLineStart := false, mode := .fragment, below := [.ordinary] }

theorem reads_openMark (d : Dialect) (cs : Text) :
    Reads (ofText d ('%' :: '{' :: cs)) [] (inFragment d cs) :=
  Reads.of_step (List.cons_ne_nil _ _) (step?_openMark rfl rfl)

/-- The lexer in front of the closing mark. -/
def behindBody (d : Dialect) (body rest : Text) : Lexer :=
  { dialect := d, rest, atLineStart := (body.getLast?.map isLineEnd).getD false,
    line := 1 + .ofNat (Text.lineBreaks body), mode := .fragmentEnd, below := [.ordinary] }

theorem next_inFragment (d : Dialect) (hb : ¬['%', '}'] <:+: b) (hover : ¬Overruns b t) :
    (inFragment d (b ++ '%' :: '}' :: '\n' :: t)).next =
      (.ok (some ⟨.fragment, b, 1⟩), behindBody d b ('%' :: '}' :: '\n' :: t)) := by
  have hstep := step?_body (l := inFragment d (b ++ '%' :: '}' :: '\n' :: t)) rfl rfl rfl hb hover
  rw [next_of_step (by simp [inFragment]) hstep]
  simp [read, inFragment, behindBody, Meaning.kind?, change, skip, note, push, pop]

theorem lineBreaks_append_mark (cs rest : Text) :
    Text.lineBreaks (cs ++ '%' :: '}' :: '\n' :: rest) =
      Text.lineBreaks cs + (Text.lineBreaks rest + 1) := by
  have hcut : Uncut cs ('%' :: '}' :: '\n' :: rest) := fun h => by cases h.2
  rw [Text.lineBreaks_append hcut]
  rfl

theorem lineBreaks_fragmentText (b : Text) :
    Text.lineBreaks (fragmentText b) = Text.lineBreaks b + 1 :=
  lineBreaks_append_mark b []

/-- Behind the fragment, the lexer is in its ordinary mode and reads the text from its start, on
    the line that it is on. -/
theorem reads_behindBody (d : Dialect) (b t : Text) :
    Reads (behindBody d b ('%' :: '}' :: '\n' :: t)) []
      ((ofText d t).shift (Text.lineBreaks (fragmentText b))) := by
  have hclose := Reads.of_step (l := behindBody d b ('%' :: '}' :: '\n' :: t))
    (List.cons_ne_nil _ _) (step?_closeMark rfl rfl)
  refine hclose.trans ?_
  have hfeed := Reads.of_step (l := ((behindBody d b ('%' :: '}' :: '\n' :: t)).read 2
    ⟨.mark '%' ['}'], .nothing, .leave⟩).next) (List.cons_ne_nil _ _) (step?_lineFeed rfl rfl)
  have hline : 1 + .ofNat (Text.lineBreaks b) + .ofNat 0 + .ofNat 1 =
      1 + UInt64.ofNat (Text.lineBreaks (fragmentText b)) := by
    rw [lineBreaks_fragmentText, UInt64.ofNat_add, ← UInt64.add_assoc]
    exact congrArg (· + .ofNat 1) (UInt64.add_zero _)
  have hnext : (ofText d t).shift (Text.lineBreaks (fragmentText b)) =
      { ofText d t with line := 1 + .ofNat (Text.lineBreaks b) + .ofNat 0 + .ofNat 1 } := by
    rw [hline]
    rfl
  rw [hnext]
  exact hfeed

/-! ## A body that is overrun -/

/-- No token is read in a fragment without a closing mark. -/
theorem next_ne_of_open_fragment (hmode : l.mode = .fragment)
    (hbody : lengthBefore? '%' '}' l.rest = none) (u : Token) :
    l.next.1 ≠ .ok (some u) := by
  fun_induction Lexer.next l with
  | case1 | case2 => simp
  | case3 l _ s hs v hv =>
    rw [(step_of_open_fragment hmode hbody hs).1] at hv
    cases hv
  | case4 l _ s hs hv ih =>
    obtain ⟨-, hmode', hbody'⟩ := step_of_open_fragment hmode hbody hs
    exact ih hmode' hbody'

/-- A fragment that begins with a line feed is a token that does. -/
theorem head?_of_next_lineFeed (hmode : l.mode = .fragment) (hrest : l.rest = '\n' :: t)
    {u : Token} (h : l.next.1 = .ok (some u)) : u.text.head? = some '\n' := by
  cases hbody : lengthBefore? '%' '}' l.rest with
  | none => exact absurd h (next_ne_of_open_fragment hmode hbody u)
  | some k =>
    have hrules : ∀ r ∈ Rule.general, r.pattern.canBegin '\n' → r.pattern = .lineBreak := by decide
    have hle := Pattern.le_of_lengthBefore? (p := isLineEnd) rfl hbody
    have hstep :
        l.step? = some (l.read k ⟨.fragmentBody, .token .fragment, .switch .fragmentEnd⟩) := by
      refine step?_eq_some_iff.2 ⟨_, _, ?_, rfl⟩
      rw [hmode]
      refine Rule.longestMatch_cons_of_le hbody fun n r hmatch => ?_
      obtain ⟨hr, hn⟩ := Rule.longestMatch_mem hmatch
      rw [hrest] at hn
      rw [Rule.length?, hrules r hr (Pattern.canBegin_of_length? hn), ← hrest] at hn
      obtain ⟨rfl, -⟩ := Pattern.nonzero_eq_some.1 hn
      exact Nat.le_trans (Pattern.lineBreakLength_le_runLength _) hle
    have hpos : 1 ≤ k := by
      refine Nat.le_trans ?_ hle
      rw [hrest]
      exact Pattern.le_runLength_cons rfl (Nat.zero_le _)
    rw [next_of_step (by simp [hrest]) hstep] at h
    cases h
    show (l.rest.take k).head? = some '\n'
    rw [hrest, List.head?_take, if_neg (by omega)]
    rfl

/-- The line of a lexer behind a stretch that marks none, if the lines of its text can be
    counted. -/
theorem toNat_line_add {n : Nat} (hsize : l.line.toNat + l.rest.length < 2 ^ 64) :
    (l.line + .ofNat (Text.lineBreaks (l.rest.take n))).toNat =
      l.line.toNat + Text.lineBreaks (l.rest.take n) := by
  have hbreaks := Text.lineBreaks_le_length (l.rest.take n)
  rw [List.length_take] at hbreaks
  rw [UInt64.toNat_add, UInt64.toNat_ofNat_of_lt' (by rw [UInt64.size]; omega),
    Nat.mod_eq_of_lt (by omega)]

/-- A token in a fragment is not before the line of the lexer. A marker before it would be at
    the start of a line, and there is no closing mark behind such a place. -/
theorem le_line_of_next {read : Text} (hread : Coherent read l) (hmode : l.mode = .fragment)
    (hsize : l.line.toNat + l.rest.length < 2 ^ 64) {u : Token} (h : l.next.1 = .ok (some u)) :
    l.line.toNat ≤ u.line.toNat := by
  fun_induction Lexer.next l generalizing read with
  | case1 => cases h
  | case2 => cases h
  | case3 l _ s hs v hv =>
    obtain rfl : v = u := by cases h; rfl
    obtain ⟨n, r, -, rfl⟩ := step?_eq_some_iff.1 hs
    obtain ⟨kind, -, rfl⟩ := Option.map_eq_some_iff.1 hv
    exact Nat.le_refl _
  | case4 l hne s hs hv ih =>
    have hnext : l.next.1 = .ok (some u) := by
      rw [next_of_step (by simpa using hne) hs, hv]
      exact h
    have hstart : l.atLineStart = false := by
      refine Bool.eq_false_iff.2 fun hstart => ?_
      exact next_ne_of_open_fragment hmode (hread.fragment hmode hstart) u hnext
    obtain ⟨n, r, hmatch, rfl⟩ := step?_eq_some_iff.1 hs
    obtain ⟨hr, hn⟩ := Rule.longestMatch_mem hmatch
    have hmeaning : r.meaning ≠ .lineMarker := fun hm =>
      absurd (Pattern.lineStart_of_length? (.inr (Rule.pattern_of_lineMarker hr hm)) hn).1
        (by simp [hstart])
    have hgeneral : r ∈ Rule.general := by
      rw [hmode] at hr
      refine (List.mem_append.1 hr).resolve_left fun hown => ?_
      obtain rfl := List.mem_singleton.1 hown
      cases hv
    obtain ⟨hkeyword, hstay, -⟩ := Rule.of_mem_general hgeneral
    have hmode' := (modes_read_of_not_isKeyword (l := l) (n := n) hkeyword).1
    rw [hstay] at hmode'
    have hline : (l.read n r).next.line.toNat = l.line.toNat + Text.lineBreaks (l.rest.take n) := by
      rw [line_read, if_neg hmeaning, toNat_line_add hsize]
    have hbreaks := Text.lineBreaks_le_length (l.rest.take n)
    have hnle := Pattern.length?_le hn
    rw [List.length_take, Nat.min_eq_left hnle] at hbreaks
    have hle := ih (hread.step hs) (hmode'.trans hmode)
      (by rw [hline, rest_read, List.length_drop]; omega) h
    omega

/-- Two comments begin with different marks. -/
theorem length?_comment_of_mark {c d : Char} {p : Pattern}
    (hp : p = .lineComment ∧ d ≠ '/' ∨ p = .blockComment ∧ d ≠ '*') (cs : Text) (lineStart : Bool) :
    p.length? lineStart (c :: d :: cs) = none := by
  rcases hp with ⟨rfl, hd⟩ | ⟨rfl, hd⟩
  · exact Pattern.lineCommentLength?.eq_2 _ fun _ h => hd (List.cons.inj (List.cons.inj h).2).1
  · exact Pattern.blockCommentLength?.eq_2 _ fun _ h => hd (List.cons.inj (List.cons.inj h).2).1

/-- A comment that is longer than the body is read in its place. -/
theorem step?_longer {q : Rule} {c : Char} {k n : Nat} (hmode : l.mode = .fragment)
    (hrest : l.rest = '/' :: c :: rest) (hbody : lengthBefore? '%' '}' l.rest = some k)
    (hq : q = ⟨.lineComment, .nothing, .stay⟩ ∧ c = '/' ∨ q = ⟨.blockComment, .nothing,
      .stay⟩ ∧ c = '*')
    (hn : q.length? l.atLineStart l.rest = some n) (hlt : k < n) : l.step? = some (l.read n q) := by
  have hrules : ∀ r ∈ Rule.general, r.pattern.canBegin '/' →
      r = ⟨.lineComment, .nothing, .stay⟩ ∨ r = ⟨.blockComment, .nothing, .stay⟩ := by decide
  have hgeneral : q ∈ Rule.general := by rcases hq with ⟨rfl, -⟩ | ⟨rfl, -⟩ <;> decide
  have hother : ∀ r ∈ Rule.general, r ≠ q → r.length? l.atLineStart l.rest = none := by
    intro r hr hne
    rw [hrest]
    by_cases hbegin : r.pattern.canBegin '/'
    · rcases hq with ⟨rfl, rfl⟩ | ⟨rfl, rfl⟩
      · obtain rfl := (hrules r hr hbegin).resolve_left hne
        exact length?_comment_of_mark (.inr ⟨rfl, by decide⟩) rest _
      · obtain rfl := (hrules r hr hbegin).resolve_right hne
        exact length?_comment_of_mark (.inl ⟨rfl, by decide⟩) rest _
    · exact Pattern.length?_of_not_canBegin (Bool.eq_false_iff.2 hbegin) _ _
  obtain ⟨before, after, hsplit, hfirst⟩ := List.eq_append_cons_of_mem hgeneral
  refine step?_eq_some_iff.2 ⟨n, q, ?_, rfl⟩
  have hin : Rule.inMode l.mode =
      (⟨.fragmentBody, .token .fragment, .switch .fragmentEnd⟩ :: before) ++ q :: after := by
    rw [hmode, Rule.inMode, hsplit]
    rfl
  rw [hin]
  refine Rule.longestMatch_of_first hn (fun r hr m hm => ?_) fun r hr m hm => ?_
  · rcases List.mem_cons.1 hr with rfl | hr
    · rw [Rule.length?, Pattern.length?, hbody] at hm
      exact Option.some.inj hm ▸ hlt
    · rw [hother r (hsplit ▸ List.mem_append_left _ hr) (ne_of_mem_of_not_mem hr hfirst)] at hm
      cases hm
  · by_cases hrq : r = q
    · rw [hrq, hn] at hm
      exact Nat.le_of_eq (Option.some.inj hm).symm
    · rw [hother r (hsplit ▸ List.mem_append_right _ (List.mem_cons_of_mem _ hr)) hrq] at hm
      cases hm

/-- The comment that overruns a body is skipped. Behind it, the lexer is at the line feed behind the
    fragment, or on a later line. -/
theorem step?_overruns (d : Dialect) (hb : ¬['%', '}'] <:+: b) (hover : Overruns b t)
    (hsize : (fragmentText b ++ t).length < 2 ^ 64) :
    ∃ s, (inFragment d (b ++ '%' :: '}' :: '\n' :: t)).step? = some s ∧ s.token? = none ∧
      s.next.mode = .fragment ∧ (s.next.rest = '\n' :: t ∨
        1 < s.next.line.toNat ∧ s.next.line.toNat + s.next.rest.length < 2 ^ 64) := by
  have hbody := Pattern.lengthBefore?_of_mark (by decide) hb ('\n' :: t)
  cases hover with
  | @lineComment cs rest hopen =>
    have hrun : runLength isInline (cs ++ '%' :: '}' :: '\n' :: t) = cs.length + 2 := by
      rw [Pattern.runLength_append_of_all hopen]
      rfl
    have hlen : Pattern.lineCommentLength? ('/' :: '/' :: cs ++ '%' :: '}' :: '\n' :: t) =
        some (cs.length + 4) := congrArg (fun n => some (n + 2)) hrun
    refine ⟨_, step?_longer rfl rfl hbody (.inl ⟨rfl, rfl⟩) hlen (by simp), rfl, rfl, .inl ?_⟩
    rw [rest_read]
    show (cs ++ '%' :: '}' :: '\n' :: t).drop (cs.length + 2) = _
    simp
  | @blockComment cs rest hopen hclosed =>
    obtain ⟨j, hj⟩ := Option.ne_none_iff_exists'.1
      (mt Pattern.lengthBefore?_eq_none_iff.1 (not_not_intro hclosed))
    have hlen : Pattern.blockCommentLength? ('/' :: '*' :: cs ++ '%' :: '}' :: '\n' :: t) =
        some (j + 3 + cs.length + 4) := by
      have hmarks : lengthBefore? '*' '/' ('%' :: '}' :: '\n' :: t) = some (j + 3) := by
        rw [Lexeme.lengthBefore?_cons (by simp), Lexeme.lengthBefore?_cons (by simp),
          Lexeme.lengthBefore?_cons (by simp), hj]
        rfl
      show (lengthBefore? '*' '/' (cs ++ _)).map (· + 4) = _
      rw [Pattern.lengthBefore?_append_of_none hopen (by simp), hmarks]
      rfl
    have hlt : ('/' :: '*' :: cs).length < j + 3 + cs.length + 4 := by
      rw [List.length_cons, List.length_cons]
      omega
    have hcounted : UInt64.toNat 1 + ('/' :: '*' :: cs ++ '%' :: '}' :: '\n' :: t).length <
        2 ^ 64 := by
      simp only [fragmentText, List.cons_append, List.length_cons, List.length_append,
        List.length_nil] at hsize ⊢
      have hone : UInt64.toNat 1 = 1 := rfl
      omega
    refine ⟨_, step?_longer rfl rfl hbody (.inr ⟨rfl, rfl⟩) hlen hlt, rfl, rfl, .inr ?_⟩
    have htake : ('/' :: '*' :: cs ++ '%' :: '}' :: '\n' :: t).take (j + 3 + cs.length + 4) =
        '/' :: '*' :: cs ++ '%' :: '}' :: '\n' :: t.take (j + 2) := by
      rw [show j + 3 + cs.length + 4 = cs.length + (j + 2 + 3) + 2 by omega]
      simp [List.take_append, List.take_of_length_le]
    have hline := toNat_line_add (l := inFragment d ('/' :: '*' :: cs ++ '%' :: '}' :: '\n' :: t))
      (n := j + 3 + cs.length + 4) hcounted
    have hbreaks := Text.lineBreaks_le_length
      (('/' :: '*' :: cs ++ '%' :: '}' :: '\n' :: t).take (j + 3 + cs.length + 4))
    rw [List.length_take] at hbreaks
    rw [rest_read, line_read, if_neg (by simp), hline, List.length_drop]
    constructor
    · show 1 < 1 + Text.lineBreaks (('/' :: '*' :: cs ++ '%' :: '}' :: '\n' :: t).take _)
      rw [htake, lineBreaks_append_mark]
      omega
    · show 1 + Text.lineBreaks (('/' :: '*' :: cs ++ '%' :: '}' :: '\n' :: t).take _) +
        (('/' :: '*' :: cs ++ '%' :: '}' :: '\n' :: t).length - _) < _
      have hone : UInt64.toNat 1 = 1 := rfl
      omega

/-- If a comment overruns the body, no token at the front of the text is the fragment. -/
theorem ne_of_overruns (d : Dialect) (hb : ¬['%', '}'] <:+: b) (hover : Overruns b t)
    (hsize : (fragmentText b ++ t).length < 2 ^ 64) (us : List Token) :
    Token.ofText d (fragmentText b ++ t) ≠ .ok (⟨.fragment, b, 1⟩ :: us) := by
  intro h
  have htext : fragmentText b ++ t =
      '%' :: '{' :: (b ++ '%' :: '}' :: '\n' :: t) := by simp [fragmentText]
  rw [htext] at h
  have hopen :=
    step?_openMark (l := ofText d ('%' :: '{' :: (b ++ '%' :: '}' :: '\n' :: t))) rfl rfl
  obtain ⟨s, hs, htoken, hmode, hplace⟩ := step?_overruns d hb hover hsize
  have hread := ((coherent_ofText d _).step hopen).step hs
  have htokens : s.next.tokenize.1 = ⟨.fragment, b, 1⟩ :: us := by
    have hreads := (reads_openMark d _).trans (Reads.of_step (by simp [inFragment]) hs)
    rw [htoken] at hreads
    exact hreads.tokens.symm.trans (tokenize_of_ofText_ok h).1
  obtain ⟨m, hnext, -⟩ := next_of_tokenize_eq_cons htokens
  rcases hplace with hrest | ⟨hline, hcounted⟩
  · have hhead := head?_of_next_lineFeed hmode hrest (congrArg Prod.fst hnext)
    cases hover <;> cases hhead
  · exact absurd (le_line_of_next hread hmode hcounted (congrArg Prod.fst hnext))
      (Nat.not_le_of_lt hline)

end Lexer

/-! ## A fragment is one token -/

open Lexer in
/-- **A code fragment is one raw token.** Let `b` be a text without a closing mark, and let `t`
    be a text that can be cut into tokens. A fragment with the body `b`, on a line of its own
    before `t`, is cut into the token `b` and the tokens of `t`, which are on the lines they
    have there, and the lexer is in its ordinary mode behind the fragment, unless `b` begins
    with a comment that overruns it; and in that case the token `b` does not come first, if the
    lines can be counted in 64 bits as those of every text in memory can. -/
theorem Token.ofText_fragment_iff (d : Dialect) {b t : Text} {ts : List Token}
    (hb : ¬['%', '}'] <:+: b) (ht : Token.ofText d t = .ok ts) :
    let fragment := Token.mk .fragment b 1
    let more := shiftedTokens (Text.lineBreaks (fragmentText b)) (Lexer.ofText d t).steps
    ((fragmentText b ++ t).length < 2 ^ 64 →
      (Token.ofText d (fragmentText b ++ t) = .ok (fragment :: more) ↔ ¬Overruns b t)) ∧
    (¬Overruns b t → Token.ofText d (fragmentText b ++ t) = .ok (fragment :: more) ∧
      ∃ l s, (Lexer.ofText d (fragmentText b ++ t)).next = (.ok (some fragment), l) ∧
        l.step? = some s ∧ s.text = ['%', '}'] ∧ s.token? = none ∧ s.next.rest = '\n' :: t ∧
        s.next.mode = .ordinary ∧ s.next.below = []) := by
  intro fragment more
  have htext : fragmentText b ++ t =
      '%' :: '{' :: (b ++ '%' :: '}' :: '\n' :: t) := by simp [fragmentText]
  have hread (hover : ¬Overruns b t) : Token.ofText d (fragmentText b ++ t) =
      .ok (fragment :: more) := by
    have hnext := next_inFragment d hb hover
    have hbody : Reads (inFragment d (b ++ '%' :: '}' :: '\n' :: t)) [⟨.fragment, b, 1⟩]
        (behindBody d b ('%' :: '}' :: '\n' :: t)) :=
        ⟨tokenize_of_next hnext, failure_of_next hnext⟩
    have hreads := ((reads_openMark d _).trans hbody).trans (reads_behindBody d b t)
    rw [← htext] at hreads
    obtain ⟨htokens, hfailure⟩ :=
      tokenize_shift (Text.lineBreaks (fragmentText b)) (Lexer.ofText d t)
    rw [ofText_of_tokenize_ok (hreads.failure.trans (hfailure.2 (tokenize_of_ofText_ok ht).2)),
      hreads.tokens, htokens]
    rfl
  refine ⟨fun hsize => ⟨fun h hover => ne_of_overruns d hb hover hsize _ h, hread⟩,
    fun hover => ⟨hread hover, ?_⟩⟩
  refine ⟨behindBody d b ('%' :: '}' :: '\n' :: t), _, ?_, step?_closeMark rfl rfl, rfl, rfl,
    rfl, rfl, rfl⟩
  rw [htext, next_of_step (List.cons_ne_nil _ _) (step?_openMark rfl rfl)]
  exact next_inFragment d hb hover

/-- A body that begins with a comment and ends in a percent sign, in front of a text with a
    marker. -/
theorem Token.ofText_fragment_iff_marker :
    let b : Text := ['/', '*', 'x', '*', '/', '\n', '%']
    let t : Text := "y\n# 7 \"n\"\nz".toList
    ¬['%', '}'] <:+: b ∧ Token.ofText .omg t =
      .ok [⟨.identifier, ['y'], 1⟩, ⟨.identifier, ['z'], 7⟩] ∧
      ¬Overruns b t ∧ Token.ofText .omg (fragmentText b ++ t) =
        .ok [⟨.fragment, b, 1⟩, ⟨.identifier, ['y'], 3⟩, ⟨.identifier, ['z'], 7⟩] := by
  intro b t
  have hb : ¬['%', '}'] <:+: b := by decide
  have hover : ¬Overruns ['/', '*', 'x', '*', '/', '\n', '%'] t := by
    intro h
    cases h with
    | blockComment hopen => exact hopen (by decide)
  have hsteps : ((Lexer.ofText .omg t).stepsWithin 8).map
      (fun ss => (ss.filterMap Step.token?, shiftedTokens (Text.lineBreaks (fragmentText b)) ss)) =
      some ([⟨.identifier, ['y'], 1⟩, ⟨.identifier, ['z'], 7⟩],
        [⟨.identifier, ['y'], 3⟩, ⟨.identifier, ['z'], 7⟩]) := by decide +kernel
  obtain ⟨ss, hss, hts⟩ := Option.map_eq_some_iff.1 hsteps
  obtain ⟨htokens, hshifted⟩ := Prod.mk.inj hts
  have ht := htokens ▸ Lexer.ofText_of_stepsWithin hss
  have hall := ((Token.ofText_fragment_iff .omg hb ht).1 (by decide)).2 hover
  rw [(Lexer.steps_of_stepsWithin hss).1, hshifted] at hall
  exact ⟨hb, ht, hover, hall⟩

end IdlFrontend
