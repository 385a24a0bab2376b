import IdlFrontend.Proofs.Lexer.Locality
import IdlFrontend.Proofs.Lexer.Stretches

/-!
# Matches in a text that goes on

A text `w` is followed by a text `x` that begins with a line feed. A pattern matches the
same characters at the start of `w ++ x` as at the start of `w`, with few exceptions: raw
text and literals that are not closed in `w`, and the last line of `w`, to which the line
feed is added.

Results:

* `length?_append_of_isShort`: patterns that end with what they match.
* `Rule.longestMatch_of_grows`: a match that becomes longer together with all others of its
  length remains the longest one.
* `length?_append_of_isLinewise`: the patterns of whole lines.
-/

namespace IdlFrontend

/-- Nothing, or a text that begins with a line feed. -/
def OnNewLine (x : Text) : Prop := ∀ c ∈ x.head?, c = '\n'

theorem OnNewLine.ends {x : Text} (h : OnNewLine x) : Ends x := fun c hc => by
  rw [h c hc]
  decide

theorem OnNewLine.head?_eq_false {x : Text} (h : OnNewLine x) {p : Char → Bool}
    (hp : p '\n' = false) :
    ∀ c ∈ x.head?, p c = false := fun c hc => by rw [h c hc, hp]

theorem OnNewLine.eq_nil_or_cons {x : Text} (h : OnNewLine x) : x = [] ∨ ∃ t, x = '\n' :: t := by
  cases x with
  | nil => exact .inl rfl
  | cons c t => exact .inr ⟨t, by rw [h c rfl]⟩

namespace Rule

/-- The first rule is used if none behind it matches more. -/
theorem longestMatch_cons_of_le {lineStart : Bool} {cs : Text} {r : Rule} {rs : List Rule} {n : Nat}
    (hr : r.length? lineStart cs = some n)
    (hrs : ∀ k s, longestMatch lineStart cs rs = some (k, s) → k ≤ n) :
    longestMatch lineStart cs (r :: rs) = some (n, r) := by
  rw [longestMatch, hr]
  cases hbest : longestMatch lineStart cs rs with
  | none => rfl
  | some best =>
    obtain ⟨k, s⟩ := best
    exact if_neg (Nat.not_lt_of_le (hrs k s hbest))

/-- A match that grows by one character remains the longest, if all that are as long and
    do not stay as they are grow by one character as well. -/
theorem longestMatch_of_grows {lineStart lineStart' : Bool} {cs ds : Text}
    {rs : List Rule} {n : Nat} {r : Rule} (h : longestMatch lineStart cs rs = some (n, r))
    (hr : r.length? lineStart' ds = some (n + 1))
    (hrs : ∀ s ∈ rs, s.length? lineStart' ds = s.length? lineStart cs ∨
      s.length? lineStart cs = some n ∧ s.length? lineStart' ds = some (n + 1)) :
    longestMatch lineStart' ds rs = some (n + 1, r) := by
  induction rs generalizing n r with
  | nil => cases h
  | cons s rs ih =>
    rw [List.forall_mem_cons] at hrs
    have hle (k : Nat) (q : Rule) (hk : longestMatch lineStart' ds rs = some (k, q)) :
        k ≤ n + 1 := by
      obtain ⟨hq, hlen⟩ := longestMatch_mem hk
      rcases hrs.2 q hq with heq | ⟨-, hgrown⟩
      · rw [hlen] at heq
        have := length_le_of_longestMatch h (List.mem_cons_of_mem _ hq) heq.symm
        omega
      · rw [hlen] at hgrown
        cases hgrown
        exact Nat.le_refl _
    simp only [longestMatch] at h
    split at h
    next hs =>
      have hs' : s.length? lineStart' ds = none := by
        rcases hrs.1 with heq | ⟨hsome, -⟩
        · rw [heq, hs]
        · rw [hs] at hsome
          cases hsome
      rw [longestMatch, hs', ih h hr hrs.2]
    next =>
      cases h
      exact longestMatch_cons_of_le hr hle
    next m k q hs hbest =>
      split at h
      next hlt =>
        cases h
        have hs' : s.length? lineStart' ds = some m := by
          rcases hrs.1 with heq | ⟨hsome, -⟩
          · rw [heq, hs]
          · rw [hs] at hsome
            cases hsome
            omega
        rw [longestMatch, hs', ih hbest hr hrs.2]
        exact if_pos (by omega)
      · cases h
        exact longestMatch_cons_of_le hr hle

end Rule

namespace Pattern

variable {x w : Text} {c : Char} {lineStart : Bool}

/-! ## Short patterns -/

/-- A pattern that ends with what it matches, and does not look at whole lines. -/
def isShort : Pattern → Bool
  | mark _ cs => cs.all (· ∉ boundary)
  | blanks | word | octal | hexadecimal | decimal | lineComment => true
  | _ => false

theorem lineCommentLength?_append (hx : OnNewLine x) :
    lineCommentLength? (c :: w ++ x) = lineCommentLength? (c :: w) := by
  have hrun (cs : Text) := runLength_append (hx.head?_eq_false (p := fun c => !isLineEnd c) rfl) cs
  by_cases hc : c = '/'
  · subst hc
    cases w with
    | nil => rcases hx.eq_nil_or_cons with rfl | ⟨t, rfl⟩ <;> rfl
    | cons d w =>
      by_cases hd : d = '/'
      · subst hd
        exact congrArg (fun n => some (n + 2)) (hrun w)
      · have hne (cs : Text) : lineCommentLength? ('/' :: d :: cs) = none :=
          lineCommentLength?.eq_2 _ fun _ h => hd (List.cons.inj (List.cons.inj h).2).1
        exact (hne (w ++ x)).trans (hne w).symm
  · have hne (cs : Text) : lineCommentLength? (c :: cs) = none :=
      lineCommentLength?.eq_2 _ fun _ h => hc (List.cons.inj h).1
    exact (hne (w ++ x)).trans (hne w).symm

theorem length?_append_of_isShort (hx : OnNewLine x) {p : Pattern} (hp : p.isShort) :
    p.length? lineStart (c :: w ++ x) = p.length? lineStart (c :: w) := by
  cases p with
  | mark d m =>
    have hm : ∀ e ∈ m, e ∉ boundary := by simpa [isShort] using hp
    show (if (d :: m).isPrefixOf (c :: (w ++ x)) then _ else _) =
      if (d :: m).isPrefixOf (c :: w) then _ else _
    rw [List.isPrefixOf_cons_cons, List.isPrefixOf_cons_cons, isPrefixOf_append hx.ends hm]
  | blanks => exact congrArg nonzero (runLength_append (hx.head?_eq_false rfl) (c :: w))
  | word => exact wordLength?_append hx.ends (c :: w)
  | octal => exact octalLength?_append hx.ends (c :: w)
  | hexadecimal => exact hexadecimalLength?_append hx.ends (c :: w)
  | decimal => exact decimalLength?_append hx.ends (c :: w)
  | lineComment => exact lineCommentLength?_append hx
  | _ => cases hp

/-- No block comment begins in a text without the mark of one. -/
theorem blockComment_append (lineStart : Bool) (hx : OnNewLine x) (hw : ¬['/', '*'] <:+: c :: w) :
    blockComment.length? lineStart (c :: w ++ x) = none ∧
      blockComment.length? lineStart (c :: w) = none := by
  have hnone (cs : Text) (h : ¬['/', '*'] <+: cs) : blockCommentLength? cs = none := by
    unfold blockCommentLength?
    split
    · exact absurd (List.prefix_append ['/', '*'] _) h
    · rfl
  refine ⟨hnone _ fun hpre => ?_, hnone _ fun hpre => hw hpre.isInfix⟩
  cases w with
  | nil =>
    obtain ⟨-, hpre⟩ := List.cons_prefix_cons.1 hpre
    rcases hx.eq_nil_or_cons with rfl | ⟨t, rfl⟩
    · simp at hpre
    · simp at hpre
  | cons d w =>
    refine hw (List.IsPrefix.isInfix ?_)
    simpa using hpre

/-! ## Raw text -/

theorem length?_quoted_append {quote : Char}
    (h : (quoted quote).length? lineStart (c :: w) ≠ none) :
    (quoted quote).length? lineStart (c :: w ++ x) = (quoted quote).length? lineStart (c :: w) := by
  simp only [length?, List.cons_append] at h ⊢
  split
  next hc =>
    rw [if_pos hc] at h
    cases hn : quotedLength? quote w with
    | none => simp [hn] at h
    | some n => rw [quotedLength?_append hn]
  · rfl

theorem runLength_append_of_lt {p : Char → Bool} (h : runLength p w < w.length) (x : Text) :
    runLength p (w ++ x) = runLength p w := by
  induction w with
  | nil => exact absurd h (Nat.not_lt_zero _)
  | cons d w ih =>
    rw [List.cons_append, runLength_cons, runLength_cons]
    rw [runLength_cons] at h
    split
    next hd =>
      rw [if_pos hd, List.length_cons] at h
      rw [ih (by omega)]
    · rfl

theorem length?_propertyArgs_append (h : propertyArgs.length? lineStart (c :: w) ≠ none) :
    propertyArgs.length? lineStart (c :: w ++ x) = propertyArgs.length? lineStart (c :: w) := by
  by_cases hc : c = '('
  · subst hc
    simp only [length?, List.cons_append, propertyArgsLength?] at h ⊢
    split at h
    next hlt =>
      have hlt' : runLength (· != ')') (w ++ x) < (w ++ x).length := by
        rw [runLength_append_of_lt hlt, List.length_append]
        omega
      rw [if_pos hlt', if_pos hlt, runLength_append_of_lt hlt]
    · exact absurd rfl h
  · refine absurd (length?_of_not_canBegin ?_ lineStart w) h
    simpa [canBegin] using hc

theorem lengthBefore?_append {a b : Char} {n : Nat} (h : lengthBefore? a b w = some n) (x : Text) :
    lengthBefore? a b (w ++ x) = some n := by
  induction w generalizing n with
  | nil => cases h
  | cons d w ih =>
    simp only [lengthBefore?, List.cons_append] at h ⊢
    split at h
    next hd =>
      cases w with
      | nil => simp at hd
      | cons e w =>
        rw [List.cons_append, List.head?_cons, ← List.head?_cons (l := w), if_pos hd]
        exact h
    next hd =>
      obtain ⟨k, hk, rfl⟩ := Option.map_eq_some_iff.1 h
      have hne : w ≠ [] := by
        rintro rfl
        cases hk
      have hhead : (w ++ x).head? = w.head? := by
        cases w with
        | nil => contradiction
        | cons => rfl
      rw [hhead, if_neg hd, ih hk]
      rfl

/-- A pair is not found in a text that goes on without its first character. -/
theorem lengthBefore?_append_eq_none {a b : Char} (h : lengthBefore? a b w = none)
    (hhead : x.head? ≠ some b) (hx : a ∉ x) : lengthBefore? a b (w ++ x) = none := by
  have hnone : ∀ cs : Text, a ∉ cs → lengthBefore? a b cs = none := by
    intro cs hcs
    induction cs with
    | nil => rfl
    | cons d cs ih =>
      rw [List.mem_cons, not_or] at hcs
      have hd : (d == a) = false := beq_eq_false_iff_ne.2 (Ne.symm hcs.1)
      simp [lengthBefore?, hd, ih hcs.2]
  induction w with
  | nil => exact hnone x hx
  | cons d w ih =>
    simp only [lengthBefore?, List.cons_append] at h ⊢
    split at h
    · cases h
    next hd =>
      rw [Option.map_eq_none_iff] at h
      rw [ih h, if_neg]
      · rfl
      · cases w with
        | nil =>
          rw [List.nil_append, Bool.and_eq_true, beq_iff_eq, beq_iff_eq, not_and]
          exact fun _ => hhead
        | cons e w => exact hd

/-! ## Whole lines -/

/-- A pattern of a line, with its line break. -/
def isLinewise : Pattern → Bool
  | pragma | lineMarker | lineBreak => true
  | _ => false

/-- The first line of `w` is all of `w`, and the line feed of `x` belongs to it. -/
def Unended (x w : Text) : Prop :=
  (∃ t, x = '\n' :: t) ∧ lineLength w = w.length ∧ lineLength (w ++ x) = w.length + 1

theorem lineBreakLength_append (hx : OnNewLine x) (hc : isLineEnd c) (w : Text) :
    lineBreakLength (c :: w ++ x) = lineBreakLength (c :: w) ∨
      (∃ t, x = '\n' :: t) ∧ w = [] ∧ lineBreakLength (c :: w) = 1 ∧
        lineBreakLength (c :: w ++ x) = 2 := by
  have hcases : c = '\n' ∨ c = '\r' := by simpa [isLineEnd] using hc
  rcases hcases with rfl | rfl
  · exact .inl rfl
  · cases w with
    | nil =>
      rcases hx.eq_nil_or_cons with rfl | ⟨t, rfl⟩
      · exact .inl rfl
      · exact .inr ⟨⟨t, rfl⟩, rfl, rfl, rfl⟩
    | cons d w =>
      refine .inl ?_
      by_cases hd : d = '\n'
      · subst hd
        rfl
      · have hone (cs : Text) : lineBreakLength ('\r' :: d :: cs) = 1 := by
          rw [lineBreakLength.eq_2 _ _ fun _ _ h => hd (List.cons.inj h).1]
          rfl
        exact (hone (w ++ x)).trans (hone w).symm

theorem lineLength_of_isLineEnd (hc : isLineEnd c) (w : Text) :
    lineLength (c :: w) = lineBreakLength (c :: w) := by
  have hzero : runLength (fun c => !isLineEnd c) (c :: w) = 0 := by
    rw [runLength_cons, if_neg (by simp [hc])]
  simp only [lineLength, hzero, List.drop_zero, Nat.zero_add]

/-- The first line of a text that goes on is the same one, unless the text ends before it. -/
theorem lineLength_append_or (hx : OnNewLine x) (w : Text) :
    lineLength (w ++ x) = lineLength w ∨ Unended x w := by
  have hsplit : w = w.takeWhile isInline ++ w.dropWhile isInline :=
    List.takeWhile_append_dropWhile.symm
  have hinline : ∀ c ∈ w.takeWhile isInline, isInline c := fun c hc => List.mem_takeWhile_imp hc
  generalize w.takeWhile isInline = line at hsplit hinline
  cases hrest : w.dropWhile isInline with
  | nil =>
    rw [hrest, List.append_nil] at hsplit
    subst hsplit
    rcases hx.eq_nil_or_cons with rfl | ⟨t, rfl⟩
    · exact .inl (by rw [List.append_nil])
    · refine .inr ⟨⟨t, rfl⟩, ?_, lineLength_append hinline _⟩
      have hend := lineLength_append hinline []
      rwa [List.append_nil] at hend
  | cons c rest =>
    have hc : isLineEnd c := by
      have := List.head_dropWhile_not isInline (l := w) (by rw [hrest]; exact List.cons_ne_nil _ _)
      simpa [hrest, isInline] using this
    rw [hrest] at hsplit
    subst hsplit
    rw [Unended, List.append_assoc, lineLength_append hinline, lineLength_append hinline,
      List.cons_append, lineLength_of_isLineEnd hc, lineLength_of_isLineEnd hc]
    rcases lineBreakLength_append hx hc rest with heq | ⟨ht, rfl, hone, htwo⟩
    · exact .inl (by rw [← heq]; rfl)
    · rw [List.cons_append] at htwo
      refine .inr ⟨ht, ?_, ?_⟩
      · rw [hone, List.length_append, List.length_singleton]
      · rw [htwo, List.length_append, List.length_singleton]

theorem drop_runLength (p : Char → Bool) (cs : Text) :
    cs.drop (runLength p cs) = cs.dropWhile p := by
  induction cs with
  | nil => rfl
  | cons d cs ih =>
    rw [runLength_cons, List.dropWhile_cons]
    split
    · exact ih
    · rfl

theorem dropWhile_append_of_head {p : Char → Bool} (h : ∀ c ∈ x.head?, p c = false) (w : Text) :
    (w ++ x).dropWhile p = w.dropWhile p ++ x := by
  induction w with
  | nil =>
    cases x with
    | nil => rfl
    | cons c x => exact List.dropWhile_cons_of_neg (by simp [h c rfl])
  | cons c w ih =>
    rw [List.cons_append, List.dropWhile_cons, List.dropWhile_cons, ih]
    split <;> rfl

theorem afterNumberSign?_append_newLine (hx : OnNewLine x) (w : Text) :
    afterNumberSign? (w ++ x) = (afterNumberSign? w).map (· ++ x) := by
  have hdrop (cs : Text) : (cs ++ x).dropWhile isBlank = cs.dropWhile isBlank ++ x :=
    dropWhile_append_of_head (hx.head?_eq_false rfl) cs
  unfold afterNumberSign?
  rw [hdrop]
  cases w.dropWhile isBlank with
  | nil => rcases hx.eq_nil_or_cons with rfl | ⟨t, rfl⟩ <;> rfl
  | cons c rest =>
    by_cases hc : c = '#'
    · subst hc
      exact congrArg some (hdrop rest)
    · rw [List.cons_append]
      split
      next heq => exact absurd (List.cons.inj heq).1 hc
      · split
        next heq => exact absurd (List.cons.inj heq).1 hc
        · rfl

theorem drop_append_of_isPrefixOf {m cs : Text} (h : m.isPrefixOf cs) (x : Text) :
    (cs ++ x).drop m.length = cs.drop m.length ++ x :=
  List.drop_append_of_le_length (List.isPrefixOf_iff_prefix.1 h).length_le

theorem notMem_boundary {m : Text} (h : m.all fun c => decide (c ∉ boundary)) :
    ∀ c ∈ m, c ∉ boundary :=
  fun c hc => of_decide_eq_true (List.all_eq_true.1 h c hc)

theorem afterPragma?_append (hx : OnNewLine x) (w : Text) :
    afterPragma? (w ++ x) = (afterPragma? w).map (· ++ x) := by
  simp only [afterPragma?, afterNumberSign?_append_newLine hx, Option.bind_eq_bind]
  cases afterNumberSign? w with
  | none => rfl
  | some body =>
    have hprefix : "pragma".toList.isPrefixOf (body ++ x) = "pragma".toList.isPrefixOf body :=
      isPrefixOf_append hx.ends (notMem_boundary rfl) body
    simp only [Option.map_some, Option.bind_some, hprefix]
    split
    next h => exact congrArg some (drop_append_of_isPrefixOf h x)
    · rfl

theorem afterLineWord?_append (hx : OnNewLine x) (w : Text) :
    afterLineWord? (w ++ x) = (afterLineWord? w).map (· ++ x) := by
  simp only [afterLineWord?, afterNumberSign?_append_newLine hx, Option.bind_eq_bind]
  cases afterNumberSign? w with
  | none => rfl
  | some body =>
    have hprefix : "line".toList.isPrefixOf (body ++ x) = "line".toList.isPrefixOf body :=
      isPrefixOf_append hx.ends (notMem_boundary rfl) body
    simp only [Option.map_some, Option.bind_some, hprefix, Option.pure_def, Option.some_inj]
    split
    next h =>
      have hdrop : (body ++ x).drop 4 = body.drop 4 ++ x := drop_append_of_isPrefixOf h x
      rw [hdrop, dropWhile_append_of_head (hx.head?_eq_false rfl)]
    · rfl

/-- What `lineMarkerLength?` asks for, but the line break. -/
def opensMarker (cs : Text) : Bool := (afterLineWord? cs).any (·.head?.any Char.isDigit)

theorem lineMarkerLength?_eq (cs : Text) :
    lineMarkerLength? cs =
      if opensMarker cs ∧ runLength isInline cs <
        cs.length then some (lineLength cs) else none := by
  unfold lineMarkerLength? opensMarker
  cases afterLineWord? cs with
  | none => rfl
  | some body =>
    simp only [Option.bind_eq_bind, Option.bind_some, Option.any_some, Bool.and_eq_true,
      decide_eq_true_eq]
    rfl

theorem opensMarker_append (hx : OnNewLine x) (w : Text) :
    opensMarker (w ++ x) = opensMarker w := by
  unfold opensMarker
  rw [afterLineWord?_append hx]
  cases afterLineWord? w with
  | none => rfl
  | some body =>
    cases body with
    | nil => rcases hx.eq_nil_or_cons with rfl | ⟨t, rfl⟩ <;> rfl
    | cons => rfl

/-- The last line of `w` opens a marker but has no line break, so that it is none. -/
def HalfMarker (w : Text) : Prop := opensMarker w ∧ runLength isInline w = w.length

/-- A pattern of a line matches the same line, or the last line of `w` with and without the
    line feed. A marker needs the line feed. -/
theorem length?_append_of_isLinewise (lineStart : Bool) (hx : OnNewLine x) {p : Pattern}
    (hp : p.isLinewise) :
    p.length? lineStart (c :: w ++ x) = p.length? lineStart (c :: w) ∨
      Unended x (c :: w) ∧
        (p.length? lineStart (c :: w) = some (c :: w).length ∧
            p.length? lineStart (c :: w ++ x) = some ((c :: w).length + 1) ∨
          p = lineMarker ∧ lineStart ∧ HalfMarker (c :: w)) := by
  cases p with
  | pragma =>
    cases lineStart with
    | false => exact .inl rfl
    | true =>
      simp only [length?, if_true, afterPragma?_append hx (c :: w), Option.map_map]
      rcases lineLength_append_or hx (c :: w) with heq | hunended
      · rw [heq]
        exact .inl (by cases afterPragma? (c :: w) <;> rfl)
      · cases hbody : afterPragma? (c :: w) with
        | none => exact .inl rfl
        | some body =>
          refine .inr ⟨hunended, .inl ⟨?_, ?_⟩⟩
          · exact congrArg some hunended.2.1
          · exact congrArg some hunended.2.2
  | lineMarker =>
    cases lineStart with
    | false => exact .inl rfl
    | true =>
      simp only [length?, if_true, lineMarkerLength?_eq, opensMarker_append hx]
      by_cases hopens : opensMarker (c :: w)
      · by_cases hlt : runLength isInline (c :: w) < (c :: w).length
        · have hlt' : runLength isInline (c :: w ++ x) < (c :: w ++ x).length := by
            rw [runLength_append_of_lt hlt, List.length_append]
            omega
          rw [if_pos ⟨hopens, hlt'⟩, if_pos ⟨hopens, hlt⟩]
          rcases lineLength_append_or hx (c :: w) with heq | hunended
          · exact .inl (by rw [heq])
          · exact .inr ⟨hunended, .inl ⟨by rw [hunended.2.1], by rw [hunended.2.2]⟩⟩
        · have hall : runLength isInline (c :: w) = (c :: w).length :=
            Nat.le_antisymm (runLength_le _ _) (Nat.not_lt.1 hlt)
          have hinline : ∀ d ∈ c :: w, isInline d := by
            have := forall_mem_take_of_le_runLength (Nat.le_of_eq hall.symm)
            rwa [List.take_length] at this
          rcases hx.eq_nil_or_cons with rfl | ⟨t, rfl⟩
          · exact .inl (by rw [List.append_nil])
          · refine .inr ⟨⟨⟨t, rfl⟩, ?_, lineLength_append hinline _⟩, .inr ⟨trivial, trivial,
              hopens, hall⟩⟩
            have hend := lineLength_append hinline []
            rwa [List.append_nil] at hend
      · exact .inl (by rw [if_neg fun h => hopens h.1, if_neg fun h => hopens h.1])
  | lineBreak =>
    by_cases hc : isLineEnd c
    · rcases lineBreakLength_append hx hc w with heq | ⟨⟨t, rfl⟩, rfl, hone, htwo⟩
      · exact .inl (congrArg nonzero heq)
      · refine .inr ⟨⟨⟨t, rfl⟩, ?_, ?_⟩, .inl ⟨?_, ?_⟩⟩
        · rw [lineLength_of_isLineEnd hc, hone]
          rfl
        · rw [List.cons_append, lineLength_of_isLineEnd hc]
          exact htwo
        · exact congrArg nonzero hone
        · exact congrArg nonzero htwo
    · have hc : lineBreak.canBegin c = false := Bool.eq_false_iff.2 hc
      exact .inl ((length?_of_not_canBegin hc _ _).trans (length?_of_not_canBegin hc _ _).symm)
  | _ => cases hp

/-- The line that ends with the text grows by the line feed. -/
theorem length?_append_of_unended (hx : OnNewLine x) {p : Pattern} (hp : p.isLinewise)
    (hunended : Unended x (c :: w)) {n : Nat} (h : p.length? lineStart (c :: w) = some n) :
    n = (c :: w).length ∧ p.length? lineStart (c :: w ++ x) = some (n + 1) := by
  obtain ⟨⟨t, rfl⟩, hone, htwo⟩ := hunended
  cases p with
  | pragma =>
    simp only [length?, afterPragma?_append hx (c :: w), Option.map_map] at h ⊢
    split at h
    next hstart =>
      obtain ⟨body, hbody, rfl⟩ := Option.map_eq_some_iff.1 h
      rw [if_pos hstart, hbody, hone]
      exact ⟨rfl, congrArg some htwo⟩
    · cases h
  | lineMarker =>
    simp only [length?, lineMarkerLength?_eq, opensMarker_append hx] at h ⊢
    split at h
    next hstart =>
      split at h
      next hopens =>
        cases h
        have hlt : runLength isInline (c :: w ++ '\n' :: t) < (c :: w ++ '\n' :: t).length := by
          rw [runLength_append_of_lt hopens.2, List.length_append]
          omega
        rw [if_pos hstart, if_pos ⟨hopens.1, hlt⟩, hone, htwo]
        exact ⟨rfl, rfl⟩
      · cases h
    · cases h
  | lineBreak =>
    have hc : isLineEnd c := canBegin_of_length? h
    simp only [length?] at h ⊢
    rw [← lineLength_of_isLineEnd hc, hone] at h
    rw [List.cons_append, ← lineLength_of_isLineEnd hc, ← List.cons_append, htwo]
    cases h
    exact ⟨rfl, rfl⟩
  | _ => cases hp

/-- A line is no pragma and a marker at once. -/
theorem length?_pragma_of_opensMarker {cs : Text} (h : opensMarker cs) :
    pragma.length? lineStart cs = none := by
  have hnone : afterPragma? cs = none := by
    simp only [opensMarker, afterLineWord?, afterPragma?, Option.bind_eq_bind] at h ⊢
    cases hbody : afterNumberSign? cs with
    | none => rfl
    | some body =>
      simp only [hbody, Option.bind_some] at h ⊢
      refine if_neg fun hpre => ?_
      obtain ⟨rest, rfl⟩ := List.isPrefixOf_iff_prefix.1 hpre
      exact Bool.false_ne_true h
  rw [length?, hnone]
  split <;> rfl

end Pattern

end IdlFrontend
