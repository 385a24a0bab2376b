import Mathlib.Data.List.TakeWhile
import IdlFrontend.Proofs.Lexer.Marker

/-!
# What a stretch looks like

Every stretch that the lexer reads as a whole is a match of one of its patterns. This
module says what the matches look like that become no token, and that no match ends
between the two characters of a line break.

Results:

* `silent_of_length?`: a match without a token is white space, a line break, a comment,
  the mark of a code fragment, or a line of its own for a pragma or a marker.
* `MarkerLine.markedLine?_eq`: the number in a marker is that of its digits.
* `uncut_of_length?`: no match ends inside of a line break.
-/

namespace IdlFrontend

open Pattern (isInline runLength)

/-! ## Places -/

/-- A place behind the given text is the start of a line: nothing stands before it, or the
    end of a line does. -/
def AtLineStart (read : Text) : Prop := ∀ c ∈ read.getLast?, isLineEnd c

/-- No line break is cut in two by the place between two texts. -/
def Uncut (read rest : Text) : Prop := ¬(read.getLast? = some '\r' ∧ rest.head? = some '\n')

/-- One line break. -/
def IsLineBreak (cs : Text) : Prop := cs ∈ [['\n'], ['\r'], ['\r', '\n']]

/-! ## Stretches without a token -/

/-- A line that marks the number of the next one: a number sign, the word `line` or not,
    digits, whatever follows them, and a line break. -/
structure MarkerLine (digits cs : Text) : Prop where
  shape : ∃ before between word tail ending : Text,
    cs = before ++ '#' :: (between ++ (word ++ (digits ++ (tail ++ ending)))) ∧
    (∀ c ∈ before, isBlank c) ∧ (∀ c ∈ between, isBlank c) ∧
    (word = [] ∨ ∃ blanks, (∀ c ∈ blanks, isBlank c) ∧ word = "line".toList ++ blanks) ∧
    (∀ c ∈ tail, isInline c) ∧ (∀ c ∈ tail.head?, c.isDigit = false) ∧ IsLineBreak ending
  ne_nil : digits ≠ []
  isDigit : ∀ c ∈ digits, c.isDigit

/-- A pragma line: a number sign, the word `pragma`, whatever follows it, and a line break,
    which only the last line of a text can lack. -/
def PragmaLine (cs rest : Text) : Prop :=
  ∃ before between tail ending : Text,
    cs = before ++ '#' :: (between ++ ("pragma".toList ++ (tail ++ ending))) ∧
    (∀ c ∈ before, isBlank c) ∧ (∀ c ∈ between, isBlank c) ∧ (∀ c ∈ tail, isInline c) ∧
    (IsLineBreak ending ∨ ending = [] ∧ rest = [])

/-- The stretches that become no token. `read` stands before the stretch and `rest` behind
    it. -/
inductive Silent (read : Text) : (cs rest : Text) → Prop
  | blanks {cs rest : Text} (hne : cs ≠ []) (h : ∀ c ∈ cs, isBlank c) : Silent read cs rest
  | lineBreak {cs rest : Text} (h : IsLineBreak cs) : Silent read cs rest
  /-- It ends before the end of its line. -/
  | lineComment {cs rest : Text} (h : ∀ c ∈ cs, isInline c) (hend : ∀ c ∈ rest.head?, isLineEnd c) :
      Silent read ('/' :: '/' :: cs) rest
  /-- It ends with the first end mark. -/
  | blockComment {cs rest : Text} (h : ¬['*', '/'] <:+: cs ++ ['*']) :
      Silent read ('/' :: '*' :: (cs ++ ['*', '/'])) rest
  | openMark {rest : Text} : Silent read ['%', '{'] rest
  | closeMark {rest : Text} : Silent read ['%', '}'] rest
  | pragma {cs rest : Text} (hstart : AtLineStart read) (h : PragmaLine cs rest) :
      Silent read cs rest
  | marker {cs rest : Text} (hstart : AtLineStart read) {digits : Text} (h : MarkerLine digits cs) :
      Silent read cs rest

namespace Pattern

/-! ## Lines -/

theorem runLength_append_of_all {p : Char → Bool} {xs : Text} (h : ∀ c ∈ xs, p c) (cs : Text) :
    runLength p (xs ++ cs) = xs.length + runLength p cs := by
  rw [runLength, List.takeWhile_append_of_pos h, List.length_append, runLength]

theorem lineLength_append {xs : Text} (h : ∀ c ∈ xs, isInline c) (cs : Text) :
    lineLength (xs ++ cs) = xs.length + lineLength cs := by
  simp only [lineLength, runLength_append_of_all (p := fun c => !isLineEnd c) h]
  rw [List.drop_append, List.drop_eq_nil_of_le (Nat.le_add_right _ _), List.nil_append,
    Nat.add_sub_cancel_left, Nat.add_assoc]

theorem take_lineLength_append {xs : Text} (h : ∀ c ∈ xs, isInline c) (cs : Text) :
    (xs ++ cs).take (lineLength (xs ++ cs)) = xs ++ cs.take (lineLength cs) := by
  rw [lineLength_append h, List.take_append, List.take_of_length_le (Nat.le_add_right _ _),
    Nat.add_sub_cancel_left]

theorem drop_lineLength_append {xs : Text} (h : ∀ c ∈ xs, isInline c) (cs : Text) :
    (xs ++ cs).drop (lineLength (xs ++ cs)) = cs.drop (lineLength cs) := by
  rw [lineLength_append h, List.drop_append, List.drop_eq_nil_of_le (Nat.le_add_right _ _),
    List.nil_append, Nat.add_sub_cancel_left]

/-- The line break at the front of a text is a whole one. -/
theorem isLineBreak_take {c : Char} (hc : isLineEnd c) (cs : Text) :
    IsLineBreak ((c :: cs).take (lineBreakLength (c :: cs))) ∧
      Uncut ((c :: cs).take (lineBreakLength (c :: cs)))
        ((c :: cs).drop (lineBreakLength (c :: cs))) := by
  have hcases : c = '\n' ∨ c = '\r' := by simpa [isLineEnd] using hc
  unfold lineBreakLength
  split
  next heq =>
    cases heq
    exact ⟨by simp [IsLineBreak], by simp [Uncut]⟩
  next hcut heq =>
    cases heq
    rw [if_pos hc]
    refine ⟨?_, ?_⟩
    · rcases hcases with rfl | rfl <;> simp [IsLineBreak]
    · rintro ⟨hlast, hhead⟩
      obtain rfl : c = '\r' := by simpa using hlast
      obtain ⟨rest, hrest⟩ := List.head?_eq_some_iff.1 hhead
      exact hcut rest rfl hrest
  next heq => cases heq

/-- A line is characters of one line and a line break, or all that is left. -/
theorem exists_take_lineLength (cs : Text) :
    ∃ tail ending, cs.take (lineLength cs) = tail ++ ending ∧ (∀ c ∈ tail, isInline c) ∧
      (IsLineBreak ending ∧ Uncut ending (cs.drop (lineLength cs)) ∨
        ending = [] ∧ cs.drop (lineLength cs) = [] ∧ runLength isInline cs = cs.length) := by
  have hsplit : cs = cs.takeWhile isInline ++ cs.dropWhile isInline :=
    List.takeWhile_append_dropWhile.symm
  have hinline : ∀ c ∈ cs.takeWhile isInline, isInline c := fun c hc => List.mem_takeWhile_imp hc
  refine ⟨cs.takeWhile isInline, (cs.dropWhile isInline).take (lineLength (cs.dropWhile isInline)),
    ?_, hinline, ?_⟩
  · conv => lhs; rw [hsplit]
    exact take_lineLength_append hinline _
  · cases hrest : cs.dropWhile isInline with
    | nil =>
      refine .inr ⟨List.take_nil, ?_, ?_⟩
      · rw [hsplit, drop_lineLength_append hinline, hrest, List.drop_nil]
      · rw [hrest, List.append_nil] at hsplit
        rw [runLength, ← hsplit]
    | cons c rest =>
      have hc : isLineEnd c := by
        have := List.head_dropWhile_not isInline (l := cs)
          (by rw [hrest]; exact List.cons_ne_nil _ _)
        simpa [hrest, isInline] using this
      have hzero : runLength (fun c => !isLineEnd c) (c :: rest) = 0 := by
        rw [runLength_cons, if_neg (by simp [hc])]
      have hlength : lineLength (c :: rest) = lineBreakLength (c :: rest) := by
        simp only [lineLength, hzero, List.drop_zero, Nat.zero_add]
      have hdrop : cs.drop (lineLength cs) = (c :: rest).drop (lineLength (c :: rest)) := by
        conv => lhs; rw [hsplit]
        rw [drop_lineLength_append hinline, hrest]
      rw [hdrop, hlength]
      exact .inl (isLineBreak_take hc rest)

/-! ## Directives -/

theorem isInline_of_isBlank (c : Char) (h : isBlank c) : isInline c :=
  isInline_of_mem (p := isBlank) rfl rfl c h

theorem exists_of_afterNumberSign? {cs body : Text} (h : afterNumberSign? cs = some body) :
    ∃ before between, cs = before ++ '#' :: (between ++ body) ∧ (∀ c ∈ before, isBlank c) ∧
      (∀ c ∈ between, isBlank c) := by
  unfold afterNumberSign? at h
  split at h
  next rest heq =>
    cases h
    refine ⟨cs.takeWhile isBlank, rest.takeWhile isBlank, ?_, fun c hc => List.mem_takeWhile_imp hc,
      fun c hc => List.mem_takeWhile_imp hc⟩
    rw [List.takeWhile_append_dropWhile, ← heq, List.takeWhile_append_dropWhile]
  · cases h

/-- What stands behind the number sign, when it begins with no blank. -/
theorem afterNumberSign?_append {before between body : Text} (hbefore : ∀ c ∈ before, isBlank c)
    (hbetween : ∀ c ∈ between, isBlank c) (hbody : ∀ c ∈ body.head?, isBlank c = false) :
    afterNumberSign? (before ++ '#' :: (between ++ body)) = some body := by
  have hdrop : body.dropWhile isBlank = body := by
    cases body with
    | nil => rfl
    | cons c body => exact List.dropWhile_cons_of_neg (by simp [hbody c rfl])
  unfold afterNumberSign?
  rw [List.dropWhile_append_of_pos hbefore, List.dropWhile_cons_of_neg (by decide)]
  show some ((between ++ body).dropWhile isBlank) = some body
  rw [List.dropWhile_append_of_pos hbetween, hdrop]

theorem pragmaLine_of_length? {lineStart : Bool} {cs : Text} {n : Nat}
    (h : pragma.length? lineStart cs = some n) : PragmaLine (cs.take n) (cs.drop n) := by
  simp only [length?] at h
  split at h
  · obtain ⟨_, hbody, rfl⟩ := Option.map_eq_some_iff.1 h
    simp only [afterPragma?, Option.bind_eq_bind, Option.bind_eq_some_iff] at hbody
    obtain ⟨body, hsign, hword⟩ := hbody
    split at hword
    next hprefix =>
      obtain ⟨rest, rfl⟩ := List.isPrefixOf_iff_prefix.1 hprefix
      obtain ⟨before, between, rfl, hbefore, hbetween⟩ := exists_of_afterNumberSign? hsign
      have hinline : ∀ c ∈ before ++ '#' :: (between ++ "pragma".toList), isInline c := by
        refine List.forall_mem_append.2 ⟨fun c hc => isInline_of_isBlank c (hbefore c hc), ?_⟩
        refine List.forall_mem_cons.2 ⟨rfl, List.forall_mem_append.2 ⟨?_, List.all_eq_true.1 rfl⟩⟩
        exact fun c hc => isInline_of_isBlank c (hbetween c hc)
      have hassoc : before ++ '#' :: (between ++ ("pragma".toList ++ rest)) =
          (before ++ '#' :: (between ++ "pragma".toList)) ++ rest := by simp
      obtain ⟨tail, ending, htake, htail, hending⟩ := exists_take_lineLength rest
      refine ⟨before, between, tail, ending, ?_, hbefore, hbetween, htail, ?_⟩
      · rw [hassoc, take_lineLength_append hinline, htake]
        simp
      · rw [hassoc, drop_lineLength_append hinline]
        exact hending.imp And.left fun h => ⟨h.1, h.2.1⟩
    · cases hword
  · cases h

theorem exists_of_afterLineWord? {cs number : Text} (h : afterLineWord? cs = some number) :
    ∃ before between word, cs = before ++ '#' :: (between ++ (word ++ number)) ∧
      (∀ c ∈ before, isBlank c) ∧ (∀ c ∈ between, isBlank c) ∧
      (word = [] ∨ ∃ blanks, (∀ c ∈ blanks, isBlank c) ∧ word = "line".toList ++ blanks) := by
  simp only [afterLineWord?, Option.bind_eq_bind, Option.bind_eq_some_iff] at h
  obtain ⟨body, hsign, hnumber⟩ := h
  obtain ⟨before, between, rfl, hbefore, hbetween⟩ := exists_of_afterNumberSign? hsign
  cases hnumber
  split
  next hprefix =>
    obtain ⟨rest, rfl⟩ := List.isPrefixOf_iff_prefix.1 hprefix
    refine ⟨before, between, "line".toList ++ rest.takeWhile isBlank, ?_, hbefore, hbetween,
      .inr ⟨_, fun c hc => List.mem_takeWhile_imp hc, rfl⟩⟩
    rw [List.append_assoc]
    show _ = before ++ '#' :: (between ++ ("line".toList ++ (rest.takeWhile isBlank ++
      rest.dropWhile isBlank)))
    rw [List.takeWhile_append_dropWhile]
  · exact ⟨before, between, [], rfl, hbefore, hbetween, .inl rfl⟩

/-- A marker is a line of its own, with digits for the number. -/
theorem markerLine_of_length? {lineStart : Bool} {cs : Text} {n : Nat}
    (h : lineMarker.length? lineStart cs = some n) :
    ∃ digits, MarkerLine digits (cs.take n) := by
  simp only [length?] at h
  split at h
  · cases hnumber : afterLineWord? cs with
    | none => simp [lineMarkerLength?, hnumber] at h
    | some number =>
      simp only [lineMarkerLength?, hnumber, Option.bind_eq_bind, Option.bind_some] at h
      split at h
      next hcond =>
        cases h
        rw [Bool.and_eq_true, decide_eq_true_eq] at hcond
        obtain ⟨before, between, word, hcs, hbefore, hbetween, hword⟩ :=
          exists_of_afterLineWord? hnumber
        have hdigits : ∀ c ∈ number.takeWhile Char.isDigit, c.isDigit :=
          fun c hc => List.mem_takeWhile_imp hc
        have hne : number.takeWhile Char.isDigit ≠ [] := by
          cases number with
          | nil => simp at hcond
          | cons c number => simp [show c.isDigit from hcond.1]
        have hinline : ∀ c ∈ before ++ '#' :: (between ++ (word ++ number.takeWhile Char.isDigit)),
            isInline c := by
          refine List.forall_mem_append.2 ⟨fun c hc => isInline_of_isBlank c (hbefore c hc), ?_⟩
          refine List.forall_mem_cons.2 ⟨rfl, List.forall_mem_append.2
            ⟨fun c hc => isInline_of_isBlank c (hbetween c hc), List.forall_mem_append.2
              ⟨?_, fun c hc => isInline_of_isDigit c (hdigits c hc)⟩⟩⟩
          rcases hword with rfl | ⟨blanks, hblanks, rfl⟩
          · exact List.forall_mem_nil _
          · exact List.forall_mem_append.2
              ⟨List.all_eq_true.1 rfl, fun c hc => isInline_of_isBlank c (hblanks c hc)⟩
        have hassoc : cs =
            (before ++ '#' :: (between ++ (word ++ number.takeWhile Char.isDigit))) ++
            number.dropWhile Char.isDigit := by
          conv => lhs; rw [hcs, ← List.takeWhile_append_dropWhile (p := Char.isDigit) (l := number)]
          simp only [List.append_assoc, List.cons_append]
        obtain ⟨tail, ending, htake, htail, hending⟩ :=
          exists_take_lineLength (number.dropWhile Char.isDigit)
        have hstop : ∀ c ∈ tail.head?, c.isDigit = false := by
          intro c hc
          obtain ⟨more, rfl⟩ := List.head?_eq_some_iff.1 hc
          have hfront : (number.dropWhile Char.isDigit).head? = some c := by
            cases hrest : number.dropWhile Char.isDigit with
            | nil =>
              rw [hrest, List.take_nil] at htake
              cases htake
            | cons d rest =>
              rw [hrest, List.take_cons (lineLength_pos (List.cons_ne_nil _ _))] at htake
              rw [List.head?_cons, (List.cons.inj htake).1]
          have hnot := List.head?_dropWhile_not Char.isDigit number
          rwa [hfront] at hnot
        refine ⟨number.takeWhile Char.isDigit,
          ⟨before, between, word, tail, ending, ?_, hbefore, hbetween, hword, htail, hstop, ?_⟩,
            hne, hdigits⟩
        · conv => lhs; rw [hassoc]
          rw [take_lineLength_append hinline, htake]
          simp only [List.append_assoc, List.cons_append]
        · refine (hending.resolve_right fun hlast => ?_).1
          -- the line would go on to the end of the text
          have hrun : runLength isInline cs = cs.length := by
            rw [hassoc, runLength_append_of_all hinline, hlast.2.2, ← List.length_append]
          exact absurd hcond.2 (Nat.not_lt_of_ge (Nat.le_of_eq hrun.symm))
      · cases h
  · cases h

end Pattern

theorem isBlank_of_isDigit {c : Char} (h : c.isDigit) : isBlank c = false := by
  refine Bool.eq_false_iff.2 fun hblank => ?_
  simp only [isBlank, Bool.or_eq_true, beq_iff_eq] at hblank
  rcases hblank with ((rfl | rfl) | rfl) | rfl <;> exact absurd h (by decide)

/-- The number in a marker is that of its digits, if it fits 64 bits. -/
theorem MarkerLine.markedLine?_eq {digits cs : Text} (h : MarkerLine digits cs) :
    markedLine? cs = Text.lineNumber? digits := by
  obtain ⟨before, between, word, tail, ending, rfl, hbefore, hbetween, hword, -, hstop, hending⟩ :=
    h.shape
  obtain ⟨d, ds, rfl⟩ := List.exists_cons_of_ne_nil h.ne_nil
  have hd : d.isDigit := h.isDigit d List.mem_cons_self
  have hblank := isBlank_of_isDigit hd
  have hafter : Pattern.afterLineWord?
      (before ++ '#' :: (between ++ (word ++ (d :: ds ++ (tail ++ ending))))) =
        some (d :: ds ++ (tail ++ ending)) := by
    unfold Pattern.afterLineWord?
    rcases hword with rfl | ⟨blanks, hblanks, rfl⟩
    · rw [Pattern.afterNumberSign?_append hbefore hbetween (by simpa using hblank)]
      have hother : "line".toList.isPrefixOf (d :: (ds ++ (tail ++ ending))) = false :=
        isPrefixOf_digit rfl hd _ _
      simp only [Option.bind_eq_bind, Option.bind_some, List.nil_append, List.cons_append, hother]
      rfl
    · rw [Pattern.afterNumberSign?_append hbefore hbetween (by simp [isBlank])]
      have hdrop : (blanks ++ (d :: ds ++ (tail ++ ending))).dropWhile isBlank =
          d :: ds ++ (tail ++ ending) := by
        rw [List.dropWhile_append_of_pos hblanks, List.cons_append,
          List.dropWhile_cons_of_neg (by simp [hblank])]
      exact congrArg some hdrop
  have hdigits : (d :: ds ++ (tail ++ ending)).takeWhile Char.isDigit = d :: ds := by
    have hnone : (tail ++ ending).takeWhile Char.isDigit = [] := by
      cases tail with
      | nil =>
        simp only [IsLineBreak, List.mem_cons, List.not_mem_nil, or_false] at hending
        rcases hending with rfl | rfl | rfl <;> rfl
      | cons c tail => simp [hstop c rfl]
    rw [List.takeWhile_append_of_pos h.isDigit, hnone, List.append_nil]
  rw [markedLine?, hafter]
  show Text.lineNumber? ((d :: ds ++ (tail ++ ending)).takeWhile Char.isDigit) = _
  rw [hdigits]

/-! ## The stretches of each rule -/

/-- The patterns whose matches become no token. -/
def Pattern.silent : List Pattern :=
  [.blanks, .mark '%' ['{'], .mark '%' ['}'], .pragma, .lineMarker, .lineBreak, .lineComment,
    .blockComment]

/-- The rules without a token, whatever the mode is. -/
theorem Rule.pattern_of_silent {mode : Mode} {r : Rule} (hr : r ∈ Rule.inMode mode)
    (h : r.meaning ∈ [.nothing, .pragma, .lineMarker]) : r.pattern ∈ Pattern.silent := by
  have hrules : ∀ mode ∈ [Mode.ordinary, .properties, .native, .nativeType, .fragment,
      .fragmentEnd], ∀ r ∈ Rule.inMode mode, r.meaning ∈ [.nothing, .pragma, .lineMarker] →
        r.pattern ∈ Pattern.silent := by decide
  exact hrules mode (by cases mode <;> decide) r hr h

/-- Only the rule for markers marks lines. -/
theorem Rule.pattern_of_lineMarker {mode : Mode} {r : Rule} (hr : r ∈ Rule.inMode mode)
    (h : r.meaning = .lineMarker) : r.pattern = .lineMarker := by
  have hrules : ∀ mode ∈ [Mode.ordinary, .properties, .native, .nativeType, .fragment,
      .fragmentEnd],
      ∀ r ∈ Rule.inMode mode, r.meaning = .lineMarker → r.pattern = .lineMarker := by decide
  exact hrules mode (by cases mode <;> decide) r hr h

namespace Pattern

/-- The pair that is found is the first one. -/
theorem not_infix_of_lengthBefore? {a b : Char} {cs : Text} {n : Nat}
    (h : lengthBefore? a b cs = some n) : ¬[a, b] <:+: cs.take (n + 1) := by
  induction cs generalizing n with
  | nil => cases h
  | cons c cs ih =>
    simp only [lengthBefore?] at h
    split at h
    · cases h
      intro hinfix
      have := hinfix.length_le
      simp at this
    next hc =>
      obtain ⟨k, hk, rfl⟩ := Option.map_eq_some_iff.1 h
      rw [List.take_succ_cons, List.infix_cons_iff, not_or]
      refine ⟨fun hprefix => hc ?_, ih hk⟩
      obtain ⟨rest, hrest⟩ := hprefix
      obtain ⟨rfl, htake⟩ := List.cons.inj hrest
      cases cs with
      | nil => cases htake
      | cons d cs =>
        rw [List.take_succ_cons] at htake
        rw [← (List.cons.inj htake).1]
        simp

/-- A match of a silent pattern, and what stands behind it. -/
theorem silent_of_length? {p : Pattern} (hp : p ∈ silent) {read cs : Text} {lineStart : Bool}
    (hstart : lineStart → AtLineStart read) {n : Nat} (h : p.length? lineStart cs = some n) :
    Silent read (cs.take n) (cs.drop n) := by
  have hpos : 0 < n := length?_pos h (by rintro rfl; exact absurd hp (by decide))
  simp only [silent, List.mem_cons, List.not_mem_nil, or_false] at hp
  rcases hp with rfl | rfl | rfl | rfl | rfl | rfl | rfl | rfl
  · have hle := length?_le h
    obtain ⟨rfl, -⟩ := nonzero_eq_some.1 h
    refine .blanks (List.ne_nil_of_length_pos ?_) (forall_mem_take_of_le_runLength (Nat.le_refl _))
    rw [List.length_take]
    omega
  · rw [take_of_mark h]
    exact .openMark
  · rw [take_of_mark h]
    exact .closeMark
  · exact .pragma (hstart (lineStart_of_length? (.inl rfl) h).1) (pragmaLine_of_length? h)
  · obtain ⟨digits, hdigits⟩ := markerLine_of_length? h
    exact .marker (hstart (lineStart_of_length? (.inr rfl) h).1) hdigits
  · obtain ⟨rfl, -⟩ := nonzero_eq_some.1 h
    cases cs with
    | nil => exact absurd hpos (by decide)
    | cons c cs =>
      refine .lineBreak (isLineBreak_take ?_ cs).1
      refine Decidable.byContradiction fun hc => absurd hpos ?_
      rw [lineBreakLength_of_not_isLineEnd (Bool.eq_false_iff.2 hc)]
      decide
  · simp only [length?, lineCommentLength?] at h
    split at h
    next rest =>
      cases h
      rw [List.take_succ_cons, List.take_succ_cons, List.drop_succ_cons, List.drop_succ_cons]
      refine .lineComment (forall_mem_take_of_le_runLength (p := isInline) (Nat.le_refl _))
        fun c hc => ?_
      simpa using not_of_mem_head?_drop hc
    · cases h
  · simp only [length?, blockCommentLength?] at h
    split at h
    next rest =>
      obtain ⟨k, hk, rfl⟩ := Option.map_eq_some_iff.1 h
      have hdrop := drop_of_lengthBefore? hk
      have hlast : rest.take (k + 1) = rest.take k ++ ['*'] := by
        rw [List.take_add, hdrop]
        rfl
      have hinner : rest.take (k + 2) = rest.take k ++ ['*', '/'] := by
        rw [List.take_add, hdrop]
        rfl
      rw [List.take_succ_cons, List.take_succ_cons, List.drop_succ_cons,
        List.drop_succ_cons, hinner]
      exact .blockComment (hlast ▸ not_infix_of_lengthBefore? hk)
    · cases h

/-! ## Line breaks -/

theorem uncut_append {ending : Text} (hne : ending ≠ []) (read rest : Text) :
    Uncut (read ++ ending) rest ↔ Uncut ending rest := by
  have hlast : (read ++ ending).getLast? = ending.getLast? := by
    rw [List.getLast?_append, List.getLast?_eq_some_getLast hne]
    rfl
  rw [Uncut, Uncut, hlast]

theorem uncut_of_last {cs rest : Text} {c : Char} (hlast : cs.getLast? = some c)
    (hc : isLineEnd c = false) :
    Uncut cs rest := by
  rintro ⟨hcr, -⟩
  rw [hlast] at hcr
  cases hcr
  cases hc

theorem uncut_of_inline {cs : Text} (h : ∀ c ∈ cs, isInline c) (rest : Text) : Uncut cs rest := by
  rintro ⟨hcr, -⟩
  exact absurd (h _ (List.mem_of_getLast? hcr)) (by decide)

theorem uncut_lineLength (cs : Text) :
    Uncut (cs.take (lineLength cs)) (cs.drop (lineLength cs)) := by
  obtain ⟨tail, ending, htake, -, hending⟩ := exists_take_lineLength cs
  rcases hending with ⟨hbreak, huncut⟩ | ⟨-, hdrop, -⟩
  · have hne : ending ≠ [] := by
      rintro rfl
      simp [IsLineBreak] at hbreak
    rw [htake]
    exact (uncut_append hne tail _).2 huncut
  · rw [hdrop]
    rintro ⟨-, hhead⟩
    cases hhead

theorem getLast?_take_quoted {quote : Char} {cs : Text} {n : Nat}
    (h : quotedLength? quote cs = some n) :
    (cs.take n).getLast? = some quote := by
  have hmore {c d : Char} {cs : Text} {k : Nat} (hcs : (cs.take k).getLast? = some d) :
      (c :: cs.take k).getLast? = some d := by
    rw [List.getLast?_cons, hcs]
    rfl
  fun_induction quotedLength? quote cs generalizing n with
  | case1 => cases h
  | case2 => cases h
  | case3 d cs ih =>
    obtain ⟨k, hk, rfl⟩ := Option.map_eq_some_iff.1 h
    rw [List.take_succ_cons, List.take_succ_cons, List.getLast?_cons_cons]
    exact hmore (ih hk)
  | case4 c cs _ _ hc =>
    cases h
    rw [beq_iff_eq.1 hc]
    rfl
  | case5 c cs _ _ _ ih =>
    obtain ⟨k, hk, rfl⟩ := Option.map_eq_some_iff.1 h
    rw [List.take_succ_cons]
    exact hmore (ih hk)

/-- The characters of a mark, and the quotes of a literal, belong to no line break. -/
def hasInlineMarks : Pattern → Bool
  | mark c cs => (c :: cs).all isInline
  | quoted quote => isInline quote
  | _ => true

end Pattern

theorem Rule.hasInlineMarks_of_mem {mode : Mode} {r : Rule} (hr : r ∈ Rule.inMode mode) :
    r.pattern.hasInlineMarks := by
  have hrules : ∀ mode ∈ [Mode.ordinary, .properties, .native, .nativeType, .fragment,
      .fragmentEnd], ∀ r ∈ Rule.inMode mode, r.pattern.hasInlineMarks := by decide
  exact hrules mode (by cases mode <;> decide) r hr

namespace Pattern

/-- No match ends inside of a line break. -/
theorem uncut_of_length? {p : Pattern} (hp : p.hasInlineMarks) {lineStart : Bool}
    {cs : Text} {n : Nat} (h : p.length? lineStart cs = some n) :
    Uncut (cs.take n) (cs.drop n) := by
  have hinline (hspans : p.spansLines = false) (hline : p ∉ [pragma, lineMarker, lineBreak]) :
      Uncut (cs.take n) (cs.drop n) :=
    uncut_of_inline (forall_mem_take_of_le_runLength (length?_le_inline hspans hline h)) _
  cases p with
  | mark c rest =>
    have hall : (c :: rest).all isInline = true := hp
    exact hinline (congrArg not hall) (by simp)
  | blanks | word | octal | hexadecimal | decimal | lineComment => exact hinline rfl (by simp)
  | quoted quote =>
    simp only [length?] at h
    split at h
    next c rest =>
      split at h
      · obtain ⟨k, hk, rfl⟩ := Option.map_eq_some_iff.1 h
        refine uncut_of_last (c := quote) ?_ (by simpa [hasInlineMarks, isInline] using hp)
        rw [List.take_succ_cons, List.getLast?_cons, getLast?_take_quoted hk]
        rfl
      · cases h
    · cases h
  | propertyArgs =>
    simp only [length?, propertyArgsLength?] at h
    split at h
    next rest =>
      split at h
      next hlt =>
        cases h
        refine uncut_of_last (c := ')') ?_ rfl
        have hclose : rest.drop (runLength (· != ')') rest) =
            ')' :: rest.drop (runLength (· != ')') rest + 1) := by
          cases hdrop : rest.drop (runLength (· != ')') rest) with
          | nil =>
            have := congrArg List.length hdrop
            rw [List.length_drop, List.length_nil] at this
            omega
          | cons c tail =>
            have hc := @not_of_mem_head?_drop (· != ')') rest c (by rw [hdrop]; rfl)
            obtain rfl : c = ')' := by simpa using hc
            rw [← List.drop_drop, hdrop]
            rfl
        rw [List.take_succ_cons, List.take_add, hclose]
        exact List.getLast?_concat (l := '(' :: rest.take _)
      · cases h
    · cases h
  | nativeType =>
    obtain ⟨rfl, -⟩ := nonzero_eq_some.1 h
    rintro ⟨-, hhead⟩
    exact absurd (not_of_mem_head?_drop hhead) (by decide)
  | fragmentBody =>
    rw [drop_of_lengthBefore? h]
    rintro ⟨-, hhead⟩
    cases hhead
  | pragma =>
    simp only [length?] at h
    split at h
    · obtain ⟨_, -, rfl⟩ := Option.map_eq_some_iff.1 h
      exact uncut_lineLength cs
    · cases h
  | lineMarker =>
    simp only [length?, lineMarkerLength?] at h
    split at h
    · obtain ⟨_, -, h⟩ := Option.bind_eq_some_iff.1 h
      split at h
      · cases h
        exact uncut_lineLength cs
      · cases h
    · cases h
  | lineBreak =>
    obtain ⟨rfl, hpos⟩ := nonzero_eq_some.1 h
    cases cs with
    | nil => exact absurd hpos (by decide)
    | cons c cs =>
      refine (isLineBreak_take ?_ cs).2
      refine Decidable.byContradiction fun hc => absurd hpos ?_
      rw [lineBreakLength_of_not_isLineEnd (Bool.eq_false_iff.2 hc)]
      decide
  | blockComment =>
    obtain ⟨c, hlast, hc⟩ := getLast?_take_comment (.inr rfl) h
    exact uncut_of_last hlast hc

end Pattern

end IdlFrontend
