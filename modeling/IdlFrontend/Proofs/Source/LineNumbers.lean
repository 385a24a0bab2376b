import IdlFrontend.Proofs.Lexeme.Neighbours
import IdlFrontend.Proofs.Source.LogicalLines
import IdlFrontend.Proofs.Source.WholeLines

/-!
# Line numbers of the logical text

Trigraphs are replaced within their lines, and a logical line is followed by one empty line for
every physical line that it has absorbed. So the lines of the logical text have the numbers that
the physical lines had.

Results:

* `physicalLines_replaceTrigraphs`: replacing trigraphs works line by line.
* `splitOn_layOut`: the lines of a text that is laid out.
* `joinContinuations_keeps_lines`: what the first two passes keep of the lines of any source.
-/

namespace IdlFrontend.Source

variable {cs : Text}

/-! ## Trigraphs -/

theorem isLineEnd_of_trigraph? {c r : Char} (h : trigraph? c = some r) :
    isLineEnd c = false ∧ isLineEnd r = false := by
  unfold trigraph? at h
  split at h <;> first | cases h; decide | cases h

/-- A character that ends no line stands before the first line of what follows it. -/
theorem physicalLines_cons {c : Char} (h : isLineEnd c = false) (cs : Text) :
    Text.physicalLines (c :: cs) =
      (c :: (Text.physicalLines cs).headD []) :: (Text.physicalLines cs).tail := by
  rw [Text.physicalLines.eq_3, if_neg (by simp [h])]
  · cases Text.physicalLines cs <;> rfl
  · rintro rest rfl -
    cases h

/-- Behind a character that ends a line, a line begins. -/
theorem physicalLines_cons_of_isLineEnd {c : Char} (h : isLineEnd c) {cs : Text}
    (huncut : c = '\r' → cs.head? ≠ some '\n') :
    Text.physicalLines (c :: cs) = [] :: Text.physicalLines cs := by
  rw [Text.physicalLines.eq_3, if_pos h]
  intro rest hc hcs
  exact huncut hc (by rw [hcs]; rfl)

theorem headD_physicalLines (cs : Text) :
    (Text.physicalLines cs).headD [] = cs.takeWhile fun c => !isLineEnd c := by
  cases hlines : Text.physicalLines cs with
  | nil =>
    cases cs with
    | nil => rfl
    | cons c cs => exact absurd hlines (Text.physicalLines_ne_nil c cs)
  | cons line lines => exact head_physicalLines hlines

/-- The first line of a text with one more character before it. -/
theorem map_physicalLines_cons {c : Char} (h : isLineEnd c = false) {cs : Text}
    (hcons : replaceTrigraphs (c :: cs.takeWhile fun c => !isLineEnd c) =
      c :: replaceTrigraphs (cs.takeWhile fun c => !isLineEnd c))
    {ds : Text} (hds : Text.physicalLines ds = (Text.physicalLines cs).map replaceTrigraphs) :
    Text.physicalLines (c :: ds) = (Text.physicalLines (c :: cs)).map replaceTrigraphs := by
  rw [physicalLines_cons h, physicalLines_cons h, hds, List.map_cons, headD_physicalLines, hcons,
    ← headD_physicalLines]
  cases Text.physicalLines cs <;> simp [replaceTrigraphs]

theorem replaceTrigraphs_lineFeed (cs : Text) :
    replaceTrigraphs ('\n' :: cs) = '\n' :: replaceTrigraphs cs :=
  replaceTrigraphs_append_lineEnd (by decide) [] cs

theorem physicalLines_replaceTrigraphs (cs : Text) :
    (replaceTrigraphs cs).physicalLines = cs.physicalLines.map replaceTrigraphs := by
  fun_induction replaceTrigraphs cs with
  | case1 c cs r hr ih =>
    obtain ⟨hc, hr'⟩ := isLineEnd_of_trigraph? hr
    rw [physicalLines_cons hr', ih, physicalLines_cons (by decide), physicalLines_cons (by decide),
      physicalLines_cons hc]
    cases Text.physicalLines cs <;> simp [replaceTrigraphs, hr]
  | case2 c cs hnone ih =>
    refine map_physicalLines_cons (by decide) ?_ ih
    have hmark : isLineEnd '?' = false := by decide
    rw [List.takeWhile_cons_of_pos (by simp [hmark])]
    by_cases hc : isLineEnd c
    · rw [List.takeWhile_cons_of_neg (by simp [hc])]
      rfl
    · rw [List.takeWhile_cons_of_pos (by simp [hc]), replaceTrigraphs, hnone]
  | case3 c cs hnot ih =>
    by_cases hc : isLineEnd c
    · by_cases hcut : c = '\r' ∧ cs.head? = some '\n'
      · -- The line feed belongs to the same line break.
        obtain ⟨rfl, hfeed⟩ := hcut
        obtain ⟨rest, rfl⟩ := List.head?_eq_some_iff.1 hfeed
        rw [replaceTrigraphs_lineFeed] at ih ⊢
        exact ih
      · have huncut : c = '\r' → (replaceTrigraphs cs).head? ≠ some '\n' :=
          fun hreturn hfeed => hcut ⟨hreturn, head?_replaceTrigraphs hfeed⟩
        rw [physicalLines_cons_of_isLineEnd hc huncut, ih,
          physicalLines_cons_of_isLineEnd hc fun hreturn hfeed => hcut ⟨hreturn, hfeed⟩]
        rfl
    · refine map_physicalLines_cons (by simpa using hc) ?_ ih
      rw [replaceTrigraphs]
      rintro d rest rfl hline
      obtain ⟨more, hmore⟩ := List.takeWhile_prefix (fun c => !isLineEnd c) (l := cs)
      rw [hline] at hmore
      exact hnot d (rest ++ more) rfl hmore.symm
  | case4 => rfl

theorem lineBreaks_cons {c : Char} (h : isLineEnd c = false) (cs : Text) :
    Text.lineBreaks (c :: cs) = Text.lineBreaks cs := by
  rw [Text.lineBreaks.eq_3, if_neg (by simp [h])]
  rintro rest rfl -
  cases h

theorem lineBreaks_replaceTrigraphs (cs : Text) :
    (replaceTrigraphs cs).lineBreaks = cs.lineBreaks := by
  fun_induction replaceTrigraphs cs with
  | case1 c cs r hr ih =>
    obtain ⟨hc, hr'⟩ := isLineEnd_of_trigraph? hr
    rw [lineBreaks_cons hr', ih, lineBreaks_cons (by decide), lineBreaks_cons (by decide),
      lineBreaks_cons hc]
  | case2 c cs _ ih =>
    rw [lineBreaks_cons (by decide), ih]
    exact (lineBreaks_cons (by decide) _).symm
  | case3 c cs _ ih =>
    by_cases hcut : c = '\r' ∧ cs.head? = some '\n'
    · obtain ⟨rfl, hfeed⟩ := hcut
      obtain ⟨rest, rfl⟩ := List.head?_eq_some_iff.1 hfeed
      rw [replaceTrigraphs_lineFeed] at ih ⊢
      exact ih
    · have huncut {ds : Text} (hds : ds.head? = some '\n' → cs.head? = some '\n') :
          ∀ rest, c = '\r' → ds = '\n' :: rest → False := by
        rintro rest hreturn rfl
        exact hcut ⟨hreturn, hds rfl⟩
      rw [Text.lineBreaks.eq_3 _ _ (huncut head?_replaceTrigraphs), ih,
        Text.lineBreaks.eq_3 _ _ (huncut id)]
  | case4 => rfl

/-! ## Lines that are laid out -/

theorem splitOn_layOut {lines : List Text} (hne : lines ≠ [])
    (hlines : ∀ line ∈ lines, '\n' ∉ line) :
    (layOut cs lines).splitOn '\n' = lines ++ if cs.endsInLineBreak then [[]] else [] := by
  have hjoin : layOut cs lines =
      Text.join ['\n'] (lines ++ if cs.endsInLineBreak then [[]] else []) := by
    unfold layOut
    split
    · rw [join_append_of_ne_nil _ hne (List.cons_ne_nil _ _)]
      rfl
    · rw [List.append_nil, List.append_nil]
  rw [hjoin]
  refine List.splitOn_intercalate '\n' (List.forall_mem_append.2 ⟨hlines, ?_⟩) (by simp [hne])
  split <;> simp

theorem count_join {lines : List Text} (hne : lines ≠ []) (hlines : ∀ line ∈ lines, '\n' ∉ line) :
    (Text.join ['\n'] lines).count '\n' + 1 = lines.length := by
  induction lines with
  | nil => exact absurd rfl hne
  | cons line lines ih =>
    rw [List.forall_mem_cons, ← List.count_eq_zero] at hlines
    cases lines with
    | nil => simpa [Text.join] using hlines.1
    | cons next lines =>
      have hrest := ih (List.cons_ne_nil _ _) hlines.2
      rw [join_cons_cons]
      simp only [List.count_append, List.length_cons, List.count_singleton_self,
        hlines.1] at hrest ⊢
      omega

theorem bareLines_ne_nil (hne : cs ≠ []) : bareLines cs ≠ [] := by
  obtain ⟨c, cs, rfl⟩ := List.exists_cons_of_ne_nil hne
  rw [bareLines, Ne, List.map_eq_nil_iff]
  exact Text.physicalLines_ne_nil c cs

theorem not_mem_of_mem_splice (cs : Text) : ∀ line ∈ splice (bareLines cs), '\n' ∉ line :=
  fun line hline hmem => absurd (isLineEnd_of_mem_splice hline '\n' hmem) (by decide)

theorem count_joinContinuations (cs : Text) :
    (joinContinuations cs).count '\n' = cs.lineBreaks := by
  by_cases hne : cs = []
  · rw [hne]
    rfl
  · have hsplice : splice (bareLines cs) ≠ [] := mt splice_eq_nil_iff.1 (bareLines_ne_nil hne)
    have hcount := count_join hsplice (not_mem_of_mem_splice cs)
    have hlength : (splice (bareLines cs)).length = cs.physicalLines.length := by
      rw [length_splice, bareLines, List.length_map]
    rw [hlength, Text.length_physicalLines] at hcount
    have hlayOut : joinContinuations cs = layOut cs (splice (bareLines cs)) := rfl
    rw [hlayOut, layOut, List.count_append]
    cases hends : cs.endsInLineBreak <;> simp [hne, hends] at hcount ⊢ <;> omega

theorem return_not_mem_joinContinuations (cs : Text) : '\r' ∉ joinContinuations cs :=
  fun hmem => absurd (eq_lineFeed_of_mem_joinContinuations hmem (by decide)) (by decide)

/-! ## Where logical lines begin -/

/-- A logical line begins with its first physical line. What is missing at the end of that is
    backslashes, no more of them than lines have been absorbed. -/
theorem exists_prefix_collect {first : Text} {more : List Text} (h : AsksForAll (first :: more)) :
    ∃ start n, n ≤ more.length ∧ first = start ++ List.replicate n '\\' ∧
      start <+: collect (first :: more) := by
  induction more using List.reverseRecOn with
  | nil => exact ⟨first, 0, Nat.le_refl 0, (List.append_nil first).symm, List.prefix_rfl⟩
  | append_singleton more line ih =>
    have hcontinued : isContinued (collect (first :: more)) :=
      h (first :: more) [line] rfl (List.cons_ne_nil _ _) (List.cons_ne_nil _ _)
    obtain ⟨start, n, hn, hfirst, text, htext⟩ := ih fun front back hsplit hfront hback =>
      h front (back ++ [line]) (by rw [← List.append_assoc, ← hsplit]; rfl) hfront (by simp)
    rw [← List.cons_append, collect_concat (List.cons_ne_nil _ _), ← htext]
    by_cases hnil : text = []
    · -- All of the collected text is from the first line, so its backslash is.
      rw [hnil, List.append_nil] at htext
      rw [← htext, isContinued, beq_iff_eq, List.getLast?_eq_some_iff] at hcontinued
      obtain ⟨start, rfl⟩ := hcontinued
      refine ⟨start, n + 1, by simpa using hn, ?_, ?_⟩
      · rw [hfirst, List.append_assoc, List.singleton_append, List.replicate_succ]
      · rw [hnil, List.append_nil, List.dropLast_concat]
        exact List.prefix_append _ _
    · refine ⟨start, n, ?_, hfirst, ?_⟩
      · rw [List.length_append]
        omega
      · rw [List.dropLast_append_of_ne_nil hnil, List.append_assoc]
        exact List.prefix_append _ _

theorem getElem?_flatMap_written (text : List Text → Text) {before after : List (List Text)}
    (hne : ∀ b ∈ before, b ≠ []) (block : List Text) (rest : List Text) :
    ((before ++ block :: after).flatMap (written text) ++ rest)[before.flatten.length]? =
      some (text block) := by
  rw [List.flatMap_append, List.append_assoc, ← length_flatMap_written text hne,
    List.getElem?_append_right (Nat.le_refl _), Nat.sub_self]
  rfl

/-- Replacing trigraphs works line by line. The logical text has a line feed for each line break of
    its source, and no carriage return. A physical line that is not absorbed begins the line with
    its own number in the logical text. -/
theorem joinContinuations_keeps_lines (cs : Text) :
    ((replaceTrigraphs cs).physicalLines = cs.physicalLines.map replaceTrigraphs ∧
      (replaceTrigraphs cs).lineBreaks = cs.lineBreaks) ∧
    (joinContinuations cs).count '\n' = cs.lineBreaks ∧ '\r' ∉ joinContinuations cs ∧
    Collected (bareLines cs) (logicalLines (bareLines cs)) ∧
    ∀ before first more after, logicalLines (bareLines cs) = before ++ (first :: more) :: after →
      (bareLines cs)[before.flatten.length]? = some first ∧
      ((joinContinuations cs).splitOn '\n')[before.flatten.length]? =
        some (collect (first :: more)) ∧
      ∃ start n, n ≤ more.length ∧ first = start ++ List.replicate n '\\' ∧
        start <+: collect (first :: more) := by
  have hcollected := collected_logicalLines (bareLines cs)
  refine ⟨⟨physicalLines_replaceTrigraphs cs, lineBreaks_replaceTrigraphs cs⟩,
    count_joinContinuations cs, return_not_mem_joinContinuations cs, hcollected, ?_⟩
  intro before first more after hblocks
  have hflatten := hcollected.flatten
  have hbefore := hcollected.ne_nil
  rw [hblocks] at hflatten hbefore
  have hne : cs ≠ [] := by
    rintro rfl
    simp [bareLines, Text.physicalLines] at hflatten
  refine ⟨?_, ?_, exists_prefix_collect (hcollected.continued _ (by simp [hblocks]))⟩
  · rw [← hflatten, List.flatten_append, List.getElem?_append_right (Nat.le_refl _), Nat.sub_self]
    rfl
  · have hlayOut : joinContinuations cs = layOut cs (splice (bareLines cs)) := rfl
    rw [hlayOut, splitOn_layOut (mt splice_eq_nil_iff.1 (bareLines_ne_nil hne))
      (not_mem_of_mem_splice cs), splice_eq_flatMap, hblocks]
    exact getElem?_flatMap_written collect (fun b hb => hbefore b (by simp [hb])) _ _

/-- The third physical line begins the third line, although it is the second logical line. -/
theorem third_line_keeps_number :
    logicalLines (bareLines "a\\\r\nb\rc".toList) = [["a\\".toList, "b".toList], ["c".toList]] ∧
      (bareLines "a\\\r\nb\rc".toList)[2]? = some "c".toList ∧
      ((joinContinuations "a\\\r\nb\rc".toList).splitOn '\n')[2]? = some "c".toList := by
  have hblocks : logicalLines (bareLines "a\\\r\nb\rc".toList) =
      [["a\\".toList, "b".toList]] ++ ["c".toList] :: [] := by decide +kernel
  obtain ⟨hphysical, hlogical, -⟩ :=
    (joinContinuations_keeps_lines "a\\\r\nb\rc".toList).2.2.2.2 _ _ _ _ hblocks
  exact ⟨hblocks, hphysical, hlogical⟩

end IdlFrontend.Source
