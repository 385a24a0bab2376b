import IdlFrontend.Proofs.Lexeme.Neighbours

/-!
# Lexemes lose nothing

The lexemes of a text are the whole text, cut into pieces that are never empty. A line feed is a
lexeme of its own or stands in a block comment, so the line numbers count the line feeds of the
text, and grouping the lexemes into lines cuts the text behind its line feeds.

Results:

* `line_of_scanFrom`: the line of a lexeme counts the line feeds before it.
* `lineFeed_of_isWhole`: where a line feed stands.
* `pairwise_lines`: the lines are in order.
* `lossless_scan`: all that holds of the lexemes of a text and of their lines.
-/

namespace IdlFrontend.Lexeme

/-- The lexemes are the text, cut into pieces, and each has the line it begins on. -/
structure Cover (cs : Text) (ts : List Lexeme) : Prop where
  ne_nil : ∀ t ∈ ts, t.text ≠ []
  text : ts.flatMap Lexeme.text = cs
  line : ∀ before t after, ts = before ++ t :: after →
    t.line = 1 + (before.flatMap Lexeme.text).count '\n'
  /-- A line feed is a lexeme of its own, or stands in a block comment. -/
  lineFeed : ∀ t ∈ ts, '\n' ∈ t.text →
    t.kind = .newline ∧ t.text = ['\n'] ∨ t.kind = .comment ∧ ['/', '*'] <+: t.text

/-- The groups are the lexemes, cut behind the line feeds that are lexemes. -/
structure CutIntoLines (ts : List Lexeme) (groups : List (List Lexeme)) : Prop where
  flatten : groups.flatten = ts
  ne_nil : ∀ group ∈ groups, group ≠ []
  /-- A line feed stands nowhere but at the end of a group. -/
  inside : ∀ group ∈ groups, ∀ t ∈ group.dropLast, t.kind ≠ .newline
  /-- Only the last group can lack its line feed. -/
  ended : ∀ group ∈ groups.dropLast, ∃ front t, group = front ++ [t] ∧ t.kind = .newline

theorem line_of_scanFrom (line : Nat) (cs : Text) : ∀ before t after,
    scanFrom line cs = before ++ t :: after →
      t.line = line + (before.flatMap Lexeme.text).count '\n' := by
  fun_induction scanFrom line cs with
  | case1 =>
    intro before t after h
    simp at h
  | case2 line c cs kind n _ text ih =>
    intro before t after h
    cases before with
    | nil =>
      obtain ⟨rfl, -⟩ := List.cons.inj h
      simp
    | cons first before =>
      obtain ⟨rfl, hrest⟩ := List.cons.inj h
      rw [ih before t after hrest, List.flatMap_cons, List.count_append, Nat.add_assoc]

theorem eq_of_isWhole_newline {text : Text} (h : IsWhole .newline text) : text = ['\n'] := by
  cases text with
  | nil => exact h.elim
  | cons c cs =>
    have hextent : extent c cs = (.newline, cs.length) := h
    obtain rfl := eq_of_extent_newline hextent
    have hlength : 0 = cs.length := congrArg Prod.snd hextent
    rw [List.eq_nil_of_length_eq_zero hlength.symm]

/-- A line comment ends before the line feed. -/
theorem blockComment_of_lineFeed {text : Text} (h : IsWhole .comment text) (hfeed : '\n' ∈ text) :
    ['/', '*'] <+: text := by
  cases text with
  | nil => exact h.elim
  | cons c cs =>
    have hextent : extent c (cs ++ []) = (.comment, cs.length) := by
      rw [List.append_nil]
      exact h
    obtain ⟨rfl, ⟨ds, rfl, -⟩ | ⟨ds, rfl, hlength⟩⟩ := extent_comment hextent
    · exact ⟨ds, rfl⟩
    · -- The second slash begins a line comment, which has no line feed in it.
      have hall : ds.takeWhile (· != '\n') = ds :=
        (List.takeWhile_prefix _).eq_of_length (by simpa using hlength)
      have hds : '\n' ∈ ds := by simpa using hfeed
      rw [← hall] at hds
      have := List.mem_takeWhile_imp hds
      simp at this

theorem lineFeed_of_isWhole {kind : LexemeKind} {text : Text} (h : IsWhole kind text)
    (hfeed : '\n' ∈ text) :
    kind = .newline ∧ text = ['\n'] ∨ kind = .comment ∧ ['/', '*'] <+: text := by
  by_cases hnewline : kind = .newline
  · subst hnewline
    exact .inl ⟨rfl, eq_of_isWhole_newline h⟩
  by_cases hcomment : kind = .comment
  · subst hcomment
    exact .inr ⟨rfl, blockComment_of_lineFeed h hfeed⟩
  · have hcount := count_lineFeed_of_isWhole h hnewline hcomment
    exact absurd hfeed (List.count_eq_zero.1 hcount)

theorem cover_scan (cs : Text) : Cover cs (scan cs) where
  ne_nil t ht := (isWhole_of_mem_scan t ht).ne_nil
  text := text_flatten_scanFrom 1 cs
  line := line_of_scanFrom 1 cs
  lineFeed t ht hfeed := lineFeed_of_isWhole (isWhole_of_mem_scan t ht) hfeed

/-- A line with another one behind it ends in a line feed. -/
theorem exists_newline_of_mem_dropLast {ts group : List Lexeme} (h : group ∈ (lines ts).dropLast) :
    ∃ front t, group = front ++ [t] ∧ t.kind = .newline := by
  have hne : lines ts ≠ [] := by
    intro hnil
    simp [hnil] at h
  have hgroup : group ≠ [] := ne_nil_of_mem_lines (List.dropLast_subset _ h)
  obtain ⟨before, after, hsplit⟩ := List.append_of_mem h
  have hlines : lines ts = before ++ group :: (after ++ [(lines ts).getLast hne]) := by
    rw [← List.cons_append, ← List.append_assoc, ← hsplit, List.dropLast_append_getLast]
  obtain ⟨next, more, hmore⟩ :=
    List.exists_cons_of_ne_nil (List.concat_ne_nil ((lines ts).getLast hne) after)
  rw [hmore] at hlines
  refine ⟨group.dropLast, group.getLast hgroup, (List.dropLast_append_getLast hgroup).symm, ?_⟩
  exact getLast?_of_lines hlines _ (List.getLast?_eq_some_getLast hgroup)

theorem cutIntoLines_lines (ts : List Lexeme) : CutIntoLines ts (lines ts) where
  flatten := flatten_lines ts
  ne_nil _ hgroup := ne_nil_of_mem_lines hgroup
  inside _ hgroup := kind_of_mem_dropLast hgroup
  ended _ hgroup := exists_newline_of_mem_dropLast hgroup

/-- The lexemes of a text are in order, and those behind a line feed are on later lines. -/
theorem pairwise_scanFrom (line : Nat) (cs : Text) :
    (scanFrom line cs).Pairwise fun t u => t.line ≤ u.line ∧
      (t.kind = .newline → t.line < u.line) := by
  fun_induction scanFrom line cs with
  | case1 => exact .nil
  | case2 line c cs kind n hextent text ih =>
    refine List.pairwise_cons.2 ⟨fun u hu => ?_, ih⟩
    obtain ⟨before, after, hsplit⟩ := List.append_of_mem hu
    have hline := line_of_scanFrom _ _ before u after hsplit
    refine ⟨by dsimp only; omega, fun hnewline => ?_⟩
    have hkind : kind = .newline := hnewline
    obtain rfl := eq_of_extent_newline (hkind ▸ hextent)
    have hfeed : text.count '\n' = (cs.take n).count '\n' + 1 := List.count_cons_self
    dsimp only
    omega

theorem pairwise_lines {ts : List Lexeme}
    (h : ts.Pairwise fun t u => t.line ≤ u.line ∧ (t.kind = .newline → t.line < u.line)) :
    (lines ts).Pairwise fun group later => ∀ t ∈ group, ∀ u ∈ later, t.line < u.line := by
  fun_induction lines ts with
  | case1 => exact .nil
  | case2 t ts hnewline ih =>
    obtain ⟨ht, hts⟩ := List.pairwise_cons.1 h
    refine List.pairwise_cons.2 ⟨fun later hlater v hv u hu => ?_, ih hts⟩
    rw [List.mem_singleton.1 hv]
    have hmem : u ∈ ts := by
      rw [← flatten_lines ts]
      exact List.mem_flatten_of_mem hlater hu
    exact (ht u hmem).2 hnewline
  | case3 t ts _ hnil ih => exact List.pairwise_singleton _ _
  | case4 t ts _ line rest hcons ih =>
    obtain ⟨ht, hts⟩ := List.pairwise_cons.1 h
    have hlines := ih hts
    rw [hcons, List.pairwise_cons] at hlines
    obtain ⟨hline, hrest⟩ := hlines
    refine List.pairwise_cons.2 ⟨fun later hlater => ?_, hrest⟩
    refine List.forall_mem_cons.2 ⟨fun u hu => ?_, hline later hlater⟩
    -- The lexeme stands before one of the line that it joins.
    have hmem : line ∈ lines ts := by
      rw [hcons]
      exact List.mem_cons_self
    obtain ⟨v, hv⟩ := List.exists_mem_of_ne_nil _ (ne_nil_of_mem_lines hmem)
    have hv' : v ∈ ts := by
      rw [← flatten_lines ts]
      exact List.mem_flatten_of_mem hmem hv
    exact Nat.lt_of_le_of_lt (ht v hv').1 (hline later hlater v hv u hu)

/-- The lexemes of a text are the text, none of them is empty, and their lines count its line
    feeds. Their groups are the lexemes again, and each but possibly the last ends in its only
    line feed. -/
theorem lossless_scan (cs : Text) : Cover cs (scan cs) ∧ CutIntoLines (scan cs) (lines (scan cs)) :=
  ⟨cover_scan cs, cutIntoLines_lines (scan cs)⟩

/-- A comment that is never closed, and a literal that ends before the line feed. -/
example : (scan "'\\\n/*\n*".toList).map (fun t => (t.kind, t.text, t.line)) =
    [(.character, ['\'', '\\'], 1), (.newline, ['\n'], 1),
      (.comment, ['/', '*', '\n', '*'], 2)] := by
  decide +kernel

end IdlFrontend.Lexeme
