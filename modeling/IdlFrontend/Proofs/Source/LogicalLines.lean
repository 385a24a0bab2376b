import IdlFrontend.Proofs.Source.Place

/-!
# Logical lines and their physical lines

A logical line collects physical lines for as long as the text collected so far ends in a
backslash. What ends in a backslash is mostly the physical line right before, but not always: an
empty line leaves the end of the collected text as it is. Behind two backslashes at the end of a
line, an empty line is absorbed and then asks for one more.

Results:

* `splice_eq_flatMap`: the spliced lines are the collected texts, each with an empty line for every
  physical line it has absorbed.
* `collected_logicalLines`: where a logical line goes on, and where it ends.
* `joinContinuations_collects`: the logical text of any source, and when looking at the physical
  line right before is as good as looking at the collected text.
-/

namespace IdlFrontend.Source

variable {cs : Text} {block : List Text}

/-- The physical lines of a text without the white space at their ends. -/
def bareLines (cs : Text) : List Text := cs.physicalLines.map (Text.trimEnd isWhiteSpace)

/-- Lines as a text. A line feed stands between them, and behind them if `cs` ends in a line
    break. -/
def layOut (cs : Text) (lines : List Text) : Text :=
  Text.join ['\n'] lines ++ if cs.endsInLineBreak then ['\n'] else []

/-! ## Collecting -/

/-- The text of a logical line: each of its physical lines takes the place of the last character
    that the ones before it have left. -/
def collect : List Text → Text
  | [] => []
  | line :: more => more.foldl (fun current next => current.dropLast ++ next) line

/-- The logical lines, each a list of physical lines, of which the first begins with `block`. -/
def logicalLinesFrom (block : List Text) : List Text → List (List Text)
  | [] => [block]
  | line :: lines =>
    if isContinued (collect block) then logicalLinesFrom (block ++ [line]) lines
    else block :: logicalLinesFrom [line] lines

/-- The physical lines as they are put together to logical lines. -/
def logicalLines : List Text → List (List Text)
  | [] => []
  | line :: lines => logicalLinesFrom [line] lines

/-- A logical line and the empty lines behind it, one for each physical line but its first. -/
def written (text : List Text → Text) (block : List Text) : List Text :=
  text block :: List.replicate (block.length - 1) []

/-- Before each line of the block but its first, the text collected so far ends in a backslash. -/
def AsksForAll (block : List Text) : Prop :=
  ∀ front back, block = front ++ back → front ≠ [] → back ≠ [] → isContinued (collect front)

/-- The blocks are the lines, and a block goes on exactly where the text collected so far ends in a
    backslash. -/
structure Collected (lines : List Text) (blocks : List (List Text)) : Prop where
  flatten : blocks.flatten = lines
  ne_nil : ∀ block ∈ blocks, block ≠ []
  continued : ∀ block ∈ blocks, AsksForAll block
  ended : ∀ block ∈ blocks.dropLast, isContinued (collect block) = false

theorem collect_concat (hne : block ≠ []) (line : Text) :
    collect (block ++ [line]) = (collect block).dropLast ++ line := by
  obtain ⟨first, more, rfl⟩ := List.exists_cons_of_ne_nil hne
  simp [collect]

theorem length_written (text : List Text → Text) (hne : block ≠ []) :
    (written text block).length = block.length := by
  have := List.length_pos_of_ne_nil hne
  simp only [written, List.length_cons, List.length_replicate]
  omega

theorem spliceOnto_collect (hne : block ≠ []) (lines : List Text) :
    spliceOnto (collect block) (block.length - 1) lines =
      (logicalLinesFrom block lines).flatMap (written collect) := by
  induction lines generalizing block with
  | nil => simp [spliceOnto, logicalLinesFrom, written]
  | cons line lines ih =>
    rw [spliceOnto, logicalLinesFrom]
    split
    · have hlength : block.length - 1 + 1 = (block ++ [line]).length - 1 := by
        have := List.length_pos_of_ne_nil hne
        simp only [List.length_append, List.length_singleton]
        omega
      rw [← collect_concat hne, hlength, ih (by simp)]
    · rw [List.flatMap_cons, ← ih (List.cons_ne_nil line [])]
      rfl

theorem splice_eq_flatMap (lines : List Text) :
    splice lines = (logicalLines lines).flatMap (written collect) := by
  cases lines with
  | nil => rfl
  | cons line lines => exact spliceOnto_collect (List.cons_ne_nil line []) lines

theorem logicalLinesFrom_ne_nil (block lines : List Text) : logicalLinesFrom block lines ≠ [] := by
  induction lines generalizing block with
  | nil => simp [logicalLinesFrom]
  | cons line lines ih =>
    rw [logicalLinesFrom]
    split
    · exact ih _
    · simp

theorem asksForAll_singleton (line : Text) : AsksForAll [line] := by
  intro front back hsplit hfront hback
  rcases List.append_eq_singleton_iff.1 hsplit.symm with ⟨hnil, -⟩ | ⟨-, hnil⟩
  · exact absurd hnil hfront
  · exact absurd hnil hback

theorem AsksForAll.concat (h : AsksForAll block) (hcontinued : isContinued (collect block))
    (line : Text) : AsksForAll (block ++ [line]) := by
  intro front back hsplit hfront hback
  rcases List.eq_nil_or_concat back with rfl | ⟨back, last, rfl⟩
  · exact absurd rfl hback
  · rw [List.concat_eq_append, ← List.append_assoc] at hsplit
    obtain ⟨rfl, -⟩ := List.append_inj' hsplit rfl
    by_cases hnil : back = []
    · rwa [hnil, List.append_nil] at hcontinued
    · exact h front back rfl hfront hnil

theorem collected_logicalLinesFrom (hne : block ≠ []) (h : AsksForAll block) (lines : List Text) :
    Collected (block ++ lines) (logicalLinesFrom block lines) := by
  induction lines generalizing block with
  | nil =>
    rw [logicalLinesFrom]
    exact ⟨by simp, by simpa using hne, by simpa using h, by simp⟩
  | cons line lines ih =>
    rw [logicalLinesFrom]
    split
    next hcontinued =>
      rw [List.append_cons]
      exact ih (by simp) (h.concat hcontinued line)
    next hcontinued =>
      have hrest := ih (List.cons_ne_nil line []) (asksForAll_singleton line)
      refine ⟨?_, List.forall_mem_cons.2 ⟨hne, hrest.ne_nil⟩,
        List.forall_mem_cons.2 ⟨h, hrest.continued⟩, ?_⟩
      · rw [List.flatten_cons, hrest.flatten, List.singleton_append]
      · rw [List.dropLast_cons_of_ne_nil (logicalLinesFrom_ne_nil _ _)]
        exact List.forall_mem_cons.2 ⟨by simpa using hcontinued, hrest.ended⟩

theorem collected_logicalLines (lines : List Text) : Collected lines (logicalLines lines) := by
  cases lines with
  | nil => exact ⟨rfl, by simp [logicalLines], by simp [logicalLines], by simp [logicalLines]⟩
  | cons line lines =>
    exact collected_logicalLinesFrom (List.cons_ne_nil line []) (asksForAll_singleton line) lines

/-! ## Looking at the line right before -/

/-- The text of physical lines of which each but the last has lost its last character. -/
def joined : List Text → Text
  | [] => []
  | [line] => line
  | line :: next :: more => line.dropLast ++ joined (next :: more)

/-- The physical lines, cut behind each one that does not end in a backslash. -/
def continuedLines : List Text → List (List Text)
  | [] => []
  | line :: lines =>
    match continuedLines lines with
    | [] => [[line]]
    | block :: rest => if isContinued line then (line :: block) :: rest else [line] :: block :: rest

/-- The number of characters in the lines. -/
def size (lines : List Text) : Nat := lines.flatten.length

theorem size_cons (line : Text) (lines : List Text) :
    size (line :: lines) = line.length + size lines := by
  simp [size]

theorem size_append (lines more : List Text) : size (lines ++ more) = size lines + size more := by
  simp [size]

theorem size_replicate_nil (n : Nat) : size (List.replicate n []) = 0 := by
  simp [size]

theorem continuedLines_cons (line : Text) (lines : List Text) :
    ∃ more rest, continuedLines (line :: lines) = (line :: more) :: rest := by
  rw [continuedLines]
  split
  · exact ⟨[], [], rfl⟩
  next block rest _ =>
    split
    · exact ⟨block, rest, rfl⟩
    · exact ⟨[], block :: rest, rfl⟩

/-- What the first block and the rest of them are written as, if the text `pre` stands before the
    first block and `absorbed` lines are absorbed already. -/
def writtenBehind (pre : Text) (absorbed : Nat) (block : List Text) (rest : List (List Text)) :
    List Text :=
  (pre ++ joined block) ::
    (List.replicate (absorbed + (block.length - 1)) [] ++ rest.flatMap (written joined))

/-- No block that another one stands behind has a text that ends in a backslash. -/
def NoneAsks (pre : Text) (block : List Text) (rest : List (List Text)) : Prop :=
  (rest ≠ [] → isContinued (pre ++ joined block) = false) ∧
    ∀ b ∈ rest.dropLast, isContinued (joined b) = false

/-- The lines are as expected if `clean` holds, and otherwise they have fewer characters. -/
def SameOrShorter (clean : Prop) (lines expected : List Text) : Prop :=
  clean ∧ lines = expected ∨ ¬clean ∧ size lines < size expected

theorem SameOrShorter.size_le {clean : Prop} {lines expected : List Text}
    (h : SameOrShorter clean lines expected) : size lines ≤ size expected := by
  rcases h with ⟨-, rfl⟩ | ⟨-, hlt⟩
  · exact Nat.le_refl _
  · exact Nat.le_of_lt hlt

theorem SameOrShorter.append_left {clean : Prop} {lines expected : List Text}
    (h : SameOrShorter clean lines expected) (front : List Text) :
    SameOrShorter clean (front ++ lines) (front ++ expected) := by
  rcases h with ⟨hclean, rfl⟩ | ⟨hclean, hlt⟩
  · exact .inl ⟨hclean, rfl⟩
  · refine .inr ⟨hclean, ?_⟩
    rw [size_append, size_append]
    omega

/-- The line behind one that is continued takes the place of its backslash. -/
theorem writtenBehind_cons (pre line next : Text) (absorbed : Nat) (more : List Text)
    (rest : List (List Text)) :
    writtenBehind pre absorbed (line :: next :: more) rest =
      writtenBehind (pre ++ line.dropLast) (absorbed + 1) (next :: more) rest := by
  have hlength : absorbed + ((line :: next :: more).length - 1) =
      absorbed + 1 + ((next :: more).length - 1) := by
    simp only [List.length_cons]
    omega
  rw [writtenBehind, writtenBehind, hlength, joined, List.append_assoc]

theorem writtenBehind_singleton (pre line : Text) (absorbed : Nat) (block : List Text)
    (rest : List (List Text)) :
    writtenBehind pre absorbed [line] (block :: rest) =
      (pre ++ line) :: List.replicate absorbed [] ++ writtenBehind [] 0 block rest := by
  simp [writtenBehind, written, joined]

theorem noneAsks_singleton_iff {pre line : Text} (h : isContinued (pre ++ line) = false)
    (block : List Text) (rest : List (List Text)) :
    NoneAsks pre [line] (block :: rest) ↔ NoneAsks [] block rest := by
  cases rest <;> simp [NoneAsks, joined, h]

/-- Looking at the line right before gives what is spliced, or else longer lines. -/
theorem spliceOnto_sameOrShorter (pre line : Text) (absorbed : Nat) (lines : List Text)
    {block : List Text} {rest : List (List Text)}
    (h : continuedLines (line :: lines) = block :: rest) :
    SameOrShorter (NoneAsks pre block rest) (spliceOnto (pre ++ line) absorbed lines)
      (writtenBehind pre absorbed block rest) := by
  induction lines generalizing pre line absorbed block rest with
  | nil =>
    obtain ⟨rfl, rfl⟩ := List.cons.inj h
    refine .inl ⟨⟨by simp, by simp⟩, ?_⟩
    simp [spliceOnto, writtenBehind, joined]
  | cons next lines ih =>
    obtain ⟨more, others, hnext⟩ := continuedLines_cons next lines
    rw [continuedLines, hnext] at h
    by_cases hline : isContinued line
    · obtain ⟨rfl, rfl⟩ := List.cons.inj ((if_pos hline).symm.trans h)
      have hne : line ≠ [] := by
        rintro rfl
        cases hline
      have hcontinued : isContinued (pre ++ line) := by
        rw [isContinued, List.getLast?_append_of_ne_nil _ hne]
        exact hline
      have hasks : NoneAsks pre (line :: next :: more) others ↔
          NoneAsks (pre ++ line.dropLast) (next :: more) others := by
        rw [NoneAsks, NoneAsks, joined, List.append_assoc]
      rw [hasks, writtenBehind_cons, spliceOnto, if_pos hcontinued,
        List.dropLast_append_of_ne_nil hne]
      exact ih (pre ++ line.dropLast) next (absorbed + 1) hnext
    · obtain ⟨rfl, rfl⟩ := List.cons.inj ((if_neg hline).symm.trans h)
      rw [writtenBehind_singleton, spliceOnto]
      by_cases hcontinued : isContinued (pre ++ line)
      · -- Only an empty line leaves a backslash at the end of the collected text.
        obtain rfl : line = [] := by
          by_contra hne
          rw [isContinued, List.getLast?_append_of_ne_nil _ hne] at hcontinued
          exact hline hcontinued
        rw [List.append_nil] at hcontinued ⊢
        have hpre : 0 < pre.length := by
          refine List.length_pos_of_ne_nil ?_
          rintro rfl
          cases hcontinued
        have hle := (ih pre.dropLast next (absorbed + 1) hnext).size_le
        rw [if_pos hcontinued]
        refine .inr ⟨fun hnone => ?_, Nat.lt_of_le_of_lt hle ?_⟩
        · have hlast := hnone.1 (List.cons_ne_nil _ _)
          simp [joined, hcontinued] at hlast
        · simp only [writtenBehind, size_append, size_cons, size_replicate_nil,
            List.length_append, List.length_dropLast, List.nil_append]
          omega
      · have hfalse : isContinued (pre ++ line) = false := by simpa using hcontinued
        rw [if_neg hcontinued, noneAsks_singleton_iff hfalse, ← List.cons_append]
        exact (ih [] next 0 hnext).append_left _

/-! ## The logical text of a source -/

theorem length_join {parts : List Text} (hne : parts ≠ []) :
    (Text.join ['\n'] parts).length + 1 = size parts + parts.length := by
  induction parts with
  | nil => exact absurd rfl hne
  | cons part parts ih =>
    cases parts with
    | nil => simp [Text.join, size]
    | cons next parts =>
      have hrest := ih (List.cons_ne_nil next parts)
      rw [join_cons_cons, size_cons]
      simp only [List.length_append, List.length_cons, List.length_nil] at hrest ⊢
      omega

theorem length_flatMap_written (text : List Text → Text) {blocks : List (List Text)}
    (h : ∀ b ∈ blocks, b ≠ []) : (blocks.flatMap (written text)).length =
      blocks.flatten.length := by
  induction blocks with
  | nil => rfl
  | cons b blocks ih =>
    rw [List.forall_mem_cons] at h
    rw [List.flatMap_cons, List.flatten_cons, List.length_append, List.length_append,
      length_written text h.1, ih h.2]

theorem flatten_continuedLines (lines : List Text) :
    (continuedLines lines).flatten = lines ∧ ∀ b ∈ continuedLines lines, b ≠ [] := by
  induction lines with
  | nil => simp [continuedLines]
  | cons line lines ih =>
    rw [continuedLines]
    split
    next hnil =>
      rw [hnil] at ih
      simp [← ih.1]
    next block rest hcons =>
      rw [hcons, List.forall_mem_cons] at ih
      split
      · refine ⟨by rw [List.flatten_cons, List.cons_append, ← List.flatten_cons, ih.1], ?_⟩
        exact List.forall_mem_cons.2 ⟨List.cons_ne_nil _ _, ih.2.2⟩
      · refine ⟨by rw [List.flatten_cons, List.singleton_append, ih.1], ?_⟩
        exact List.forall_mem_cons.2 ⟨List.cons_ne_nil _ _, List.forall_mem_cons.2 ih.2⟩

/-- The blocks that the single lines suggest are what is spliced, or longer lines are written. -/
theorem splice_sameOrShorter (lines : List Text) :
    SameOrShorter (∀ b ∈ (continuedLines lines).dropLast, isContinued (joined b) = false)
      (splice lines) ((continuedLines lines).flatMap (written joined)) := by
  cases lines with
  | nil => exact .inl ⟨by simp [continuedLines], rfl⟩
  | cons line lines =>
    obtain ⟨more, rest, hblocks⟩ := continuedLines_cons line lines
    have hcases := spliceOnto_sameOrShorter [] line 0 lines hblocks
    have hasks : NoneAsks [] (line :: more) rest ↔
        ∀ b ∈ ((line :: more) :: rest).dropLast, isContinued (joined b) = false := by
      cases rest <;> simp [NoneAsks]
    have hwritten : writtenBehind [] 0 (line :: more) rest =
        ((line :: more) :: rest).flatMap (written joined) := by
      simp [writtenBehind, written]
    rwa [hasks, hwritten, ← hblocks] at hcases

theorem SameOrShorter.layOut_iff {clean : Prop} {lines expected : List Text}
    (h : SameOrShorter clean lines expected) (hlength : lines.length = expected.length)
    (cs : Text) :
    layOut cs lines = layOut cs expected ↔ clean := by
  rcases h with ⟨hclean, rfl⟩ | ⟨hclean, hlt⟩
  · simp [hclean]
  · refine ⟨fun heq => ?_, fun hc => absurd hc hclean⟩
    have hjoin : Text.join ['\n'] lines = Text.join ['\n'] expected := List.append_cancel_right heq
    have hne : expected ≠ [] := by
      rintro rfl
      simp [size] at hlt
    have hne' : lines ≠ [] := by
      rintro rfl
      exact hne (List.length_eq_zero_iff.1 hlength.symm)
    have h₁ := length_join hne
    have h₂ := length_join hne'
    rw [hjoin] at h₂
    omega

/-- A logical line goes on where the text collected so far ends in a backslash, and nowhere
    else. The logical text is that of the collected lines, each followed by an empty line for
    every line that it has absorbed. To look at the physical line right before, and to join
    lines without the backslashes at their ends, gives the same text exactly if no text that is
    joined so, other than the last one, ends in a backslash again. -/
theorem joinContinuations_collects (cs : Text) :
    Collected (bareLines cs) (logicalLines (bareLines cs)) ∧
      joinContinuations cs = layOut cs ((logicalLines (bareLines cs)).flatMap (written collect)) ∧
      (joinContinuations cs = layOut cs ((continuedLines (bareLines cs)).flatMap (written joined)) ↔
        ∀ block ∈ (continuedLines (bareLines cs)).dropLast, isContinued (joined block) =
          false) := by
  have hlayOut : joinContinuations cs = layOut cs (splice (bareLines cs)) := rfl
  refine ⟨collected_logicalLines _, by rw [hlayOut, splice_eq_flatMap], ?_⟩
  rw [hlayOut]
  refine (splice_sameOrShorter _).layOut_iff ?_ cs
  obtain ⟨hflatten, hne⟩ := flatten_continuedLines (bareLines cs)
  rw [length_splice, length_flatMap_written joined hne, hflatten]

/-- Behind two backslashes an empty line asks for another one. -/
example : joinContinuations ['a', '\\', '\\', '\n', '\n', 'b'] = ['a', 'b', '\n', '\n'] := by
  decide +kernel

end IdlFrontend.Source
