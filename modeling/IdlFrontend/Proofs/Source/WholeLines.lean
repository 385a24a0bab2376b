import IdlFrontend.Preprocess.Session
import IdlFrontend.Proofs.Comment.Place
import IdlFrontend.Proofs.Lexeme.LineEnds

/-!
# Whole lines

A text can be put between two others without running into them, if it ends where a logical
line ends: not within a line, not behind a backslash that asks for another line, and not in
a comment. Its lexemes are then lines of their own.

Results:

* `logicalText_append_of_wholeLines`, `scanFrom_append_of_newline`: what stands behind whole
  lines is read as if nothing stood before it.
* `lineShapes_append`, `solidLines_sourceLines_append`: the lines of a source are those of its
  parts, line numbers apart.
-/

namespace IdlFrontend

namespace Source

/-! ## Logical lines -/

/-- Lines behind which none is asked for are joined for themselves. -/
theorem splice_append {lines : List Text} (h : ∀ line ∈ splice lines, isContinued line = false)
    (more : List Text) : splice (lines ++ more) = splice lines ++ splice more := by
  have honto (current : Text) (absorbed : Nat) (lines : List Text)
      (h : ∀ line ∈ spliceOnto current absorbed lines, isContinued line = false) :
      spliceOnto current absorbed (lines ++ more) = spliceOnto current absorbed lines ++
        splice more := by
    induction lines generalizing current absorbed with
    | nil =>
      have hcurrent : isContinued current = false := h current List.mem_cons_self
      cases more with
      | nil => exact (List.append_nil _).symm
      | cons next more =>
        rw [List.nil_append, spliceOnto.eq_2, hcurrent, if_neg Bool.false_ne_true]
        rfl
    | cons line lines ih =>
      rw [List.cons_append, spliceOnto, spliceOnto]
      rw [spliceOnto] at h
      split
      next hcontinued =>
        rw [if_pos hcontinued] at h
        exact ih _ _ h
      next hcontinued =>
        rw [if_neg hcontinued] at h
        rw [ih _ _ fun line hline => h line
          (List.mem_cons_of_mem _ (List.mem_append_right _ hline)),
          List.cons_append, List.append_assoc]
  cases lines with
  | nil => rfl
  | cons line lines => exact honto line 0 lines h

theorem splice_eq_nil_iff {lines : List Text} : splice lines = [] ↔ lines = [] := by
  rw [← List.length_eq_zero_iff, length_splice, List.length_eq_zero_iff]

theorem join_append_of_ne_nil (separator : Text) {parts more : List Text} (hparts : parts ≠ [])
    (hmore : more ≠ []) : Text.join separator (parts ++ more) =
      Text.join separator parts ++ (separator ++ Text.join separator more) := by
  induction parts with
  | nil => exact absurd rfl hparts
  | cons part parts ih =>
    cases parts with
    | nil =>
      obtain ⟨next, more, rfl⟩ := List.exists_cons_of_ne_nil hmore
      rw [List.singleton_append, join_cons_cons]
      simp [Text.join]
    | cons next parts =>
      rw [List.cons_append, List.cons_append, join_cons_cons, join_cons_cons, ← List.cons_append,
        ih (List.cons_ne_nil _ _)]
      simp only [List.append_assoc]

/-- The physical lines of a source without its trigraphs and without the white space at
    their ends. -/
def trimmedLines (contents : Text) : List Text :=
  (replaceTrigraphs contents).physicalLines.map (Text.trimEnd isWhiteSpace)

/-- The text ends where a logical line ends. -/
structure WholeLines (contents : Text) : Prop where
  /-- The text does not end within a line. -/
  ends : ∀ c ∈ contents.getLast?, isLineEnd c
  /-- The last line does not ask for another one: no other can be left with a backslash. -/
  joined : ∀ line ∈ splice (trimmedLines contents), isContinued line = false
  /-- No comment is open: it would have the last line feed in it. -/
  closed : ∀ t ∈ (Lexeme.scan (logicalText contents)).getLast?, t.kind = .newline

variable {x : Text}

theorem replaceTrigraphs_append_lineEnd {c : Char} (hc : isLineEnd c) (cs ds : Text) :
    replaceTrigraphs (cs ++ c :: ds) = replaceTrigraphs cs ++ c :: replaceTrigraphs ds := by
  have hmem : c = '\n' ∨ c = '\r' := by simpa [isLineEnd] using hc
  rcases hmem with rfl | rfl <;> exact replaceTrigraphs_append_cons (by decide) (Or.inl rfl) ds

/-- No trigraph extends over the end of a line. -/
theorem replaceTrigraphs_append_of_ends (hx : ∀ c ∈ x.getLast?, isLineEnd c) :
    (replaceTrigraphs x).getLast? = x.getLast? ∧
      ∀ y, replaceTrigraphs (x ++ y) = replaceTrigraphs x ++ replaceTrigraphs y := by
  rcases List.eq_nil_or_concat x with rfl | ⟨cs, c, rfl⟩
  · exact ⟨rfl, fun y => rfl⟩
  · have hc : isLineEnd c := hx c (by simp)
    have hself : replaceTrigraphs (cs ++ [c]) = replaceTrigraphs cs ++ [c] :=
      replaceTrigraphs_append_lineEnd hc cs []
    refine ⟨by simp [hself], fun y => ?_⟩
    rw [List.concat_eq_append, hself, List.append_assoc, List.singleton_append,
      replaceTrigraphs_append_lineEnd hc, List.append_assoc, List.singleton_append]

theorem head?_replaceTrigraphs {cs : Text} (h : (replaceTrigraphs cs).head? = some '\n') :
    cs.head? = some '\n' := by
  have htrigraph {c : Char} : trigraph? c ≠ some '\n' := by
    unfold trigraph?
    split <;> decide
  fun_cases replaceTrigraphs cs with
  | case1 c cs r hr =>
    rw [replaceTrigraphs, hr] at h
    cases h
    exact absurd hr htrigraph
  | case2 c cs hnone =>
    rw [replaceTrigraphs, hnone] at h
    cases h
  | case3 c cs hnot =>
    rw [replaceTrigraphs.eq_2 _ _ hnot] at h
    exact h
  | case4 => cases h

theorem trimmedLines_append (hx : ∀ c ∈ x.getLast?, isLineEnd c) {y : Text}
    (huncut : x.getLast? = some '\r' → y.head? ≠ some '\n') :
    trimmedLines (x ++ y) = trimmedLines x ++ trimmedLines y := by
  obtain ⟨hlast, happend⟩ := replaceTrigraphs_append_of_ends hx
  rw [trimmedLines, happend, physicalLines_append_of_ends (by rwa [hlast]), List.map_append,
    trimmedLines, trimmedLines]
  intro hreturn hfeed
  exact huncut (hlast ▸ hreturn) (head?_replaceTrigraphs hfeed)

theorem replaceTrigraphs_ne_nil (hne : x ≠ []) : replaceTrigraphs x ≠ [] := by
  unfold replaceTrigraphs
  split
  · split <;> exact List.cons_ne_nil _ _
  · exact List.cons_ne_nil _ _
  · exact absurd rfl hne

theorem trimmedLines_ne_nil (hne : x ≠ []) : trimmedLines x ≠ [] := by
  obtain ⟨c, cs, hcs⟩ := List.exists_cons_of_ne_nil (replaceTrigraphs_ne_nil hne)
  rw [trimmedLines, hcs, Ne, List.map_eq_nil_iff]
  exact Text.physicalLines_ne_nil c cs

theorem logicalText_eq (contents : Text) : logicalText contents =
    Text.join ['\n'] (splice (trimmedLines contents)) ++
      if (replaceTrigraphs contents).endsInLineBreak then ['\n'] else [] := rfl

/-- What stands behind whole lines is joined for itself. -/
theorem logicalText_append_of_wholeLines (hx : WholeLines x) {y : Text}
    (huncut : x.getLast? = some '\r' → y.head? ≠ some '\n') :
    logicalText (x ++ y) = logicalText x ++ logicalText y := by
  by_cases hxnil : x = []
  · rw [hxnil]
    rfl
  by_cases hynil : y = []
  · rw [hynil, List.append_nil]
    exact (List.append_nil _).symm
  obtain ⟨hlast, happend⟩ := replaceTrigraphs_append_of_ends hx.ends
  have hfeed : (replaceTrigraphs x).endsInLineBreak := by
    rw [Text.endsInLineBreak, hlast, List.getLast?_eq_some_getLast hxnil]
    exact hx.ends _ (List.getLast?_eq_some_getLast hxnil)
  have hfeeds : (replaceTrigraphs (x ++ y)).endsInLineBreak =
      (replaceTrigraphs y).endsInLineBreak := by
    rw [Text.endsInLineBreak, Text.endsInLineBreak, happend,
      List.getLast?_append_of_ne_nil _ (replaceTrigraphs_ne_nil hynil)]
  rw [logicalText_eq, logicalText_eq x, logicalText_eq y, trimmedLines_append hx.ends huncut,
    splice_append hx.joined, join_append_of_ne_nil, hfeeds, if_pos hfeed]
  · simp only [List.append_assoc]
  · exact mt splice_eq_nil_iff.1 (trimmedLines_ne_nil hxnil)
  · exact mt splice_eq_nil_iff.1 (trimmedLines_ne_nil hynil)

/-- A line feed behind a carriage return changes nothing. -/
theorem WholeLines.append_lineFeed (hx : WholeLines x) (hreturn : x.getLast? = some '\r') :
    WholeLines (x ++ ['\n']) ∧ logicalText (x ++ ['\n']) = logicalText x := by
  obtain ⟨hlast, happend⟩ := replaceTrigraphs_append_of_ends hx.ends
  have hlines : trimmedLines (x ++ ['\n']) = trimmedLines x := by
    have hone : replaceTrigraphs ['\n'] = ['\n'] := by decide +kernel
    rw [trimmedLines, happend, hone, physicalLines_append_lineFeed (hlast.trans hreturn),
      trimmedLines]
  have hfeeds : (replaceTrigraphs (x ++ ['\n'])).endsInLineBreak =
      (replaceTrigraphs x).endsInLineBreak := by
    have hone : replaceTrigraphs ['\n'] = ['\n'] := by decide +kernel
    rw [Text.endsInLineBreak, Text.endsInLineBreak, happend, hone, List.getLast?_concat,
      hlast, hreturn]
    rfl
  have htext : logicalText (x ++ ['\n']) = logicalText x := by
    rw [logicalText_eq, logicalText_eq, hlines, hfeeds]
  refine ⟨⟨fun c hc => ?_, by rw [hlines]; exact hx.joined, by rw [htext]; exact hx.closed⟩, htext⟩
  rw [List.getLast?_concat] at hc
  cases hc
  rfl

/-! ## Texts of whole lines -/

/-- A text that ends with a line feed, continues no line and closes its block comments. -/
structure ClosesLines (contents : Text) : Prop where
  feed : contents.getLast? = some '\n'
  /-- No line ends in a backslash after its trigraphs are replaced and its end is trimmed. -/
  uncontinued : ∀ line ∈ trimmedLines contents, isContinued line = false
  closed : ∀ t ∈ Lexeme.scan (logicalText contents), ['/', '*'] <+: t.text →
    ['*', '/'] <:+ t.text.drop 2

instance (contents : Text) : Decidable (ClosesLines contents) :=
  decidable_of_iff
    (contents.getLast? = some '\n' ∧ (∀ line ∈ trimmedLines contents, isContinued line = false) ∧
      ∀ t ∈ Lexeme.scan (logicalText contents), ['/', '*'] <+: t.text →
        ['*', '/'] <:+ t.text.drop 2)
    ⟨fun h => ⟨h.1, h.2.1, h.2.2⟩, fun h => ⟨h.feed, h.uncontinued, h.closed⟩⟩

open Lexeme in
/-- Only an open comment and a line feed of its own end with a line feed. -/
theorem kind_of_getLast?_lineFeed {t : Lexeme} (h : IsWhole t.kind t.text)
    (hclosed : ['/', '*'] <+: t.text → ['*', '/'] <:+ t.text.drop 2)
    (hfeed : t.text.getLast? = some '\n') : t.kind = .newline := by
  obtain ⟨kind, text, line⟩ := t
  have hmem : '\n' ∈ text := List.mem_of_getLast? hfeed
  by_contra hnewline
  by_cases hspace : kind = .space
  · subst hspace
    exact absurd (isSpace_of_isWhole_space h '\n' hmem) (by decide)
  by_cases hcomment : kind = .comment
  · subst hcomment
    cases text with
    | nil => cases hmem
    | cons c cs =>
    have hextent : extent c (cs ++ []) = (.comment, cs.length) := by
      rw [List.append_nil]
      exact h
    obtain ⟨rfl, ⟨ds, rfl, -⟩ | ⟨ds, rfl, hline⟩⟩ := extent_comment hextent
    · obtain ⟨front, hend⟩ := hclosed ⟨ds, rfl⟩
      have hds : ds = front ++ ['*', '/'] := hend.symm
      rw [hds] at hfeed
      simp [List.getLast?_cons, List.getLast?_append] at hfeed
    · rw [List.append_nil] at hline
      have hall : ds.takeWhile (· != '\n') = ds := (List.takeWhile_prefix _).eq_of_length hline
      have hmem : '\n' ∈ ds := by simpa using hmem
      rw [← hall] at hmem
      simpa using List.mem_takeWhile_imp hmem
  · obtain ⟨hreturn, -⟩ := literal_of_isLineEnd h ⟨hspace, hnewline, hcomment⟩ hmem rfl
    cases hreturn

theorem ClosesLines.wholeLines {contents : Text} (h : ClosesLines contents) :
    WholeLines contents := by
  have hends : ∀ c ∈ contents.getLast?, isLineEnd c := by
    rw [h.feed]
    rintro c ⟨⟩
    rfl
  refine ⟨hends, ?_, fun t ht => ?_⟩
  · rw [splice_eq_self h.uncontinued]
    exact h.uncontinued
  · have hmem := List.mem_of_getLast? ht
    have hwhole := Lexeme.isWhole_of_mem_scan t hmem
    refine kind_of_getLast?_lineFeed hwhole (h.closed t hmem) ?_
    have hfeed : (logicalText contents).getLast? = some '\n' := by
      obtain ⟨hlast, -⟩ := replaceTrigraphs_append_of_ends hends
      have hbreak : (replaceTrigraphs contents).endsInLineBreak := by
        rw [Text.endsInLineBreak, hlast, h.feed]
        rfl
      rw [logicalText_eq, if_pos hbreak, List.getLast?_concat]
    obtain ⟨before, hbefore⟩ := List.getLast?_eq_some_iff.1 ht
    have htext : before.flatMap Lexeme.text ++ t.text = logicalText contents := by
      have hflatten := Lexeme.text_flatten_scanFrom 1 (logicalText contents)
      rw [← Lexeme.scan, hbefore, List.map_append, List.flatten_append] at hflatten
      simpa [List.flatMap] using hflatten
    rw [← htext, List.getLast?_append_of_ne_nil _ hwhole.ne_nil] at hfeed
    exact hfeed

end Source

namespace Lexeme

/-! ## Lines of lexemes -/

/-- Behind a line feed lexemes begin anew. -/
theorem scanFrom_append_of_newline {line : Nat} {cs : Text}
    (h : ∀ t ∈ (scanFrom line cs).getLast?, t.kind = .newline) (ds : Text) :
    scanFrom line (cs ++ ds) = scanFrom line cs ++ scanFrom (line + cs.count '\n') ds := by
  refine scanFrom_append_of_last fun t ht c rest htext => ?_
  have hwhole := isWhole_of_mem_scanFrom t (List.mem_of_getLast? ht)
  rw [h t ht, htext] at hwhole
  rw [h t ht]
  have hkeep : extent c (rest ++ []) = (.newline, rest.length) := by
    rw [List.append_nil]
    exact hwhole
  exact extent_newline_append hkeep ds

/-- The lexemes of a text do not depend on the line on which it begins, line numbers apart. -/
theorem restamp_scanFrom (n line line' : Nat) (cs : Text) :
    restamp n (scanFrom line cs) = restamp n (scanFrom line' cs) := by
  fun_induction scanFrom line cs generalizing line' with
  | case1 => rw [scanFrom]
  | case2 line c cs kind k hextent text ih =>
    rw [scanFrom_cons line', hextent]
    exact congrArg (List.cons _) (ih _)

theorem lines_restamp (n : Nat) (ts : List Lexeme) :
    lines (restamp n ts) = (lines ts).map (restamp n) := by
  induction ts with
  | nil => rfl
  | cons t ts ih =>
    show lines ({ t with line := n } :: restamp n ts) = _
    rw [lines, lines, ih]
    dsimp only
    split
    · rfl
    · cases lines ts <;> rfl

end Lexeme

namespace Session

open Lexeme Source

/-- The lines of a source without their numbers. -/
def lineShapes (contents : Text) : List (List Lexeme) := (sourceLines contents).map (restamp 0)

variable {x : Text}

theorem lineShapes_eq (contents : Text) :
    lineShapes contents = lines (restamp 0 (scan (logicalText contents))) :=
  (lines_restamp 0 _).symm

theorem lineShapes_append_of_uncut (hx : WholeLines x) {y : Text}
    (huncut : x.getLast? = some '\r' → y.head? ≠ some '\n') :
    lineShapes (x ++ y) = lineShapes x ++ lineShapes y := by
  have hlast : ∀ t ∈ (restamp 0 (scan (logicalText x))).getLast?, t.kind = .newline := by
    intro t ht
    rw [restamp, List.getLast?_map, Option.mem_def, Option.map_eq_some_iff] at ht
    obtain ⟨u, hu, rfl⟩ := ht
    exact hx.closed u hu
  have hscan : restamp 0 (scan (logicalText x ++ logicalText y)) =
      restamp 0 (scan (logicalText x)) ++ restamp 0 (scan (logicalText y)) := by
    have hbehind := restamp_scanFrom 0 (1 + (logicalText x).count '\n') 1 (logicalText y)
    rw [scan, scanFrom_append_of_newline hx.closed, restamp, List.map_append]
    exact congrArg (_ ++ ·) hbehind
  rw [lineShapes_eq, lineShapes_eq x, lineShapes_eq y,
    logicalText_append_of_wholeLines hx huncut, hscan,
    lines_append hlast]

/-- A line feed is a line of its own. -/
theorem wholeLines_lineFeed :
    WholeLines ['\n'] ∧ lineShapes ['\n'] = [[⟨.newline, ['\n'], 0⟩]] := by
  have hlines : splice (trimmedLines ['\n']) = [[]] := by decide +kernel
  have hscan : scan (logicalText ['\n']) = [⟨.newline, ['\n'], 1⟩] := by decide +kernel
  refine ⟨⟨?_, ?_, ?_⟩, ?_⟩
  · rintro c ⟨⟩
    rfl
  · rw [hlines]
    exact List.forall_mem_singleton.2 rfl
  · rw [hscan]
    rintro t ⟨⟩
    rfl
  · rw [lineShapes_eq, hscan]
    rfl

/-- **Whole lines and what stands behind them are read one after the other**, line numbers
    apart. Only the line break in the middle is one instead of two, if it would be cut. -/
theorem lineShapes_append (hx : WholeLines x) (y : Text) :
    lineShapes (x ++ y) = lineShapes x ++ lineShapes y ∨
      ∃ rest, lineShapes y = [⟨.newline, ['\n'], 0⟩] :: rest ∧
        lineShapes (x ++ y) = lineShapes x ++ rest := by
  by_cases hcut : x.getLast? = some '\r' ∧ y.head? = some '\n'
  · obtain ⟨hreturn, hfeed⟩ := hcut
    obtain ⟨ys, rfl⟩ := List.head?_eq_some_iff.1 hfeed
    obtain ⟨hwhole, htext⟩ := hx.append_lineFeed hreturn
    obtain ⟨hone, hshape⟩ := wholeLines_lineFeed
    refine Or.inr ⟨lineShapes ys, ?_, ?_⟩
    · have happend := lineShapes_append_of_uncut (y := ys) hone fun h => absurd h (by decide)
      rwa [hshape] at happend
    · have happend := lineShapes_append_of_uncut (y := ys) hwhole (by simp)
      rw [List.append_assoc] at happend
      rw [show x ++ '\n' :: ys = x ++ (['\n'] ++ ys) from rfl, happend, lineShapes_eq, htext,
        lineShapes_eq x]
  · exact Or.inl (lineShapes_append_of_uncut hx fun hreturn hfeed => hcut ⟨hreturn, hfeed⟩)

/-! ## Lines that are not empty -/

/-- A line with nothing on it, without its number. -/
def emptyLine : List Lexeme := [⟨.newline, ['\n'], 0⟩]

/-- The lines with something on them, without their numbers. -/
def solidLines (groups : List (List Lexeme)) : List (List Lexeme) :=
  (groups.map (restamp 0)).filter (· ≠ emptyLine)

theorem solidLines_append (groups more : List (List Lexeme)) :
    solidLines (groups ++ more) = solidLines groups ++ solidLines more := by
  rw [solidLines, List.map_append, List.filter_append, solidLines, solidLines]

theorem solidLines_cons (group : List Lexeme) (groups : List (List Lexeme)) :
    solidLines (group :: groups) =
      if restamp 0 group = emptyLine then solidLines groups else restamp 0 group :: solidLines
        groups := by
  rw [solidLines, List.map_cons, List.filter_cons]
  split
  next h => rw [if_neg (of_decide_eq_true h), solidLines]
  next h => rw [if_pos (not_not.1 fun hne => h (decide_eq_true hne)), solidLines]

/-- The lines of a text behind whole lines are its own, whichever line break comes first. -/
theorem solidLines_sourceLines_append (hx : WholeLines x) (y : Text) :
    solidLines (sourceLines (x ++ y)) =
      solidLines (sourceLines x) ++ solidLines (sourceLines y) := by
  have hsolid (contents : Text) :
      solidLines (sourceLines contents) = (lineShapes contents).filter (· ≠ emptyLine) := rfl
  rw [hsolid, hsolid, hsolid]
  rcases lineShapes_append hx y with happend | ⟨rest, hrest, happend⟩
  · rw [happend, List.filter_append]
  · have hempty : (([⟨.newline, ['\n'], 0⟩] : List Lexeme) :: rest).filter (· ≠ emptyLine) =
        rest.filter (· ≠ emptyLine) := List.filter_cons_of_neg (by simp [emptyLine])
    rw [happend, hrest, List.filter_append, hempty]

theorem exists_append_of_solidLines {groups : List (List Lexeme)} {as bs : List (List Lexeme)}
    (h : solidLines groups = as ++ bs) :
    ∃ gs hs, groups = gs ++ hs ∧ solidLines gs = as ∧ solidLines hs = bs := by
  obtain ⟨ls, ms, hmap, rfl, rfl⟩ := List.filter_eq_append_iff.1 h
  obtain ⟨gs, hs, rfl, rfl, rfl⟩ := List.map_eq_append_iff.1 hmap
  exact ⟨gs, hs, rfl, rfl, rfl⟩

theorem exists_cons_of_solidLines {groups : List (List Lexeme)} {shape : List Lexeme}
    {bs : List (List Lexeme)} (h : solidLines groups = shape :: bs) :
    ∃ gs group hs, groups = gs ++ group :: hs ∧ solidLines gs = [] ∧ restamp 0 group = shape ∧
      solidLines hs = bs := by
  obtain ⟨ls, ms, hmap, hempty, -, rfl⟩ := List.filter_eq_cons_iff.1 h
  obtain ⟨gs, hs, rfl, rfl, hcons⟩ := List.map_eq_append_iff.1 hmap
  obtain ⟨group, hs, rfl, rfl, rfl⟩ := List.map_eq_cons_iff.1 hcons
  exact ⟨gs, group, hs, rfl, List.filter_eq_nil_iff.2 hempty, rfl, rfl⟩

end Session

end IdlFrontend
