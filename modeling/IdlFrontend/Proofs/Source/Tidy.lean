import IdlFrontend.Source.Splice
import IdlFrontend.Source.Trigraph
import Mathlib.Data.List.DropRight

/-!
# Sources without trigraphs and continuations

If a source has neither trigraphs nor continued lines, all that happens to it before
it is cut into lexemes is that white space at the ends of lines is dropped and that
line breaks become line feeds.

Results:

* `replaceTrigraphs_eq_self`: without a trigraph, nothing is replaced.
* `joinContinuations_eq_tidy`: without a continued line, the text is tidied.
* `tidy_append_cons`: text before a character that is no white space stays as it is.
* `head?_tidy`: so does the first character, unless it is dropped or part of a line
  break.
-/

namespace IdlFrontend.Source

/-! ## Trigraphs -/

theorem replaceTrigraphs_eq_self {cs : Text}
    (h : ∀ c, (trigraph? c).isSome → ¬['?', '?', c] <:+: cs) : replaceTrigraphs cs = cs := by
  fun_induction replaceTrigraphs cs with
  | case1 c cs r hr =>
    refine absurd ?_ (h c (by rw [hr]; rfl))
    exact ⟨[], cs, rfl⟩
  | case2 c cs hnone ih =>
    rw [ih fun d hd hfound => h d hd (hfound.trans (List.suffix_cons _ _).isInfix)]
  | case3 c cs _ ih =>
    rw [ih fun d hd hfound => h d hd (hfound.trans (List.suffix_cons _ _).isInfix)]
  | case4 => rfl

/-! ## Tidied text -/

/-- Whether nothing but white space stands before the end of the line. -/
def endsLine (cs : Text) : Bool := (cs.takeWhile fun c => !isLineEnd c).all isWhiteSpace

/-- The text with line feeds for line breaks and without white space before them. -/
def tidy : Text → Text
  | [] => []
  | '\r' :: '\n' :: cs => '\n' :: tidy cs
  | c :: cs =>
    if isLineEnd c then '\n' :: tidy cs
    else if isWhiteSpace c && endsLine cs then tidy cs
    else c :: tidy cs

theorem splice_eq_self {lines : List Text} (h : ∀ line ∈ lines, isContinued line = false) :
    splice lines = lines := by
  have honto (line : Text) (lines : List Text) (h : ∀ l ∈ line :: lines, isContinued l = false) :
      spliceOnto line 0 lines = line :: lines := by
    induction lines generalizing line with
    | nil => rfl
    | cons next lines ih =>
      rw [List.forall_mem_cons] at h
      rw [spliceOnto, h.1, ih next h.2]
      rfl
  cases lines with
  | nil => rfl
  | cons line lines => exact honto line lines h

theorem trimEnd_eq_nil_iff {p : Char → Bool} {cs : Text} : Text.trimEnd p cs = [] ↔ cs.all p := by
  rw [List.all_eq_true]
  exact List.rdropWhile_eq_nil_iff

theorem trimEnd_cons (p : Char → Bool) (c : Char) (cs : Text) :
    Text.trimEnd p (c :: cs) = if p c && cs.all p then [] else c :: Text.trimEnd p cs := by
  by_cases hcs : cs.all p
  · have hnil : cs.reverse.dropWhile p = [] := List.reverse_eq_nil_iff.1 (trimEnd_eq_nil_iff.2 hcs)
    rw [Text.trimEnd, List.reverse_cons, List.dropWhile_append, hnil, Text.trimEnd, hnil, hcs]
    by_cases hc : p c <;> simp [hc]
  · have hne : (cs.reverse.dropWhile p).isEmpty = false := by
      rw [← Bool.not_eq_true, List.isEmpty_iff]
      exact fun hnil => hcs (trimEnd_eq_nil_iff.1 (List.reverse_eq_nil_iff.2 hnil))
    rw [Text.trimEnd, List.reverse_cons, List.dropWhile_append, hne]
    simp [hcs, Text.trimEnd]

theorem head_physicalLines {cs line : Text} {lines : List Text}
    (h : cs.physicalLines = line :: lines) : line = cs.takeWhile fun c => !isLineEnd c := by
  fun_induction Text.physicalLines cs generalizing line lines with
  | case1 => cases h
  | case2 => cases h; rfl
  | case3 c cs _ hend =>
    cases h
    rw [List.takeWhile_cons_of_neg (by simp [hend])]
  | case4 c cs _ hend hnil =>
    cases h
    cases cs with
    | nil => simp [hend]
    | cons d ds => exact absurd hnil (Text.physicalLines_ne_nil d ds)
  | case5 c cs _ hend line' lines' hcons ih =>
    cases h
    rw [List.takeWhile_cons_of_pos (by simp [hend]), ← ih hcons]

/-- A line begins behind a text that ends one, unless a line break is cut in two there. -/
theorem physicalLines_append_of_ends {cs ds : Text} (hends : ∀ c ∈ cs.getLast?, isLineEnd c)
    (huncut : cs.getLast? = some '\r' → ds.head? ≠ some '\n') :
    Text.physicalLines (cs ++ ds) = Text.physicalLines cs ++ Text.physicalLines ds := by
  induction cs using Text.physicalLines.induct with
  | case1 => rfl
  | case2 cs ih =>
    refine congrArg (List.cons []) ?_
    cases cs with
    | nil => rfl
    | cons d cs =>
      rw [List.getLast?_cons_cons, List.getLast?_cons_cons] at hends huncut
      exact ih hends huncut
  | case3 c cs hcr hend ih =>
    rw [List.cons_append, Text.physicalLines.eq_3 _ _ hcr, if_pos hend]
    cases cs with
    | nil =>
      rw [List.nil_append, Text.physicalLines.eq_3, if_pos hend]
      · rfl
      · rintro rest rfl rfl
        exact huncut rfl rfl
    | cons d cs =>
      rw [List.getLast?_cons_cons] at hends huncut
      rw [Text.physicalLines.eq_3, if_pos hend, ih hends huncut]
      · rfl
      · rintro rest hc heq
        exact hcr cs hc (by rw [(List.cons.inj heq).1])
  | case4 c cs hcr hend hnil =>
    cases cs with
    | nil => exact absurd (hends c rfl) hend
    | cons d cs => exact absurd hnil (Text.physicalLines_ne_nil d cs)
  | case5 c cs hcr hend line lines hcons ih =>
    cases cs with
    | nil => cases hcons
    | cons d cs =>
      rw [List.getLast?_cons_cons] at hends huncut
      rw [List.cons_append, Text.physicalLines.eq_3 _ _ hcr, if_neg hend, hcons,
        Text.physicalLines.eq_3, if_neg hend, ih hends huncut, hcons]
      · rfl
      · rintro rest rfl -
        exact hend rfl

/-- A line feed behind a carriage return belongs to the same line break. -/
theorem physicalLines_append_lineFeed {cs : Text} (h : cs.getLast? = some '\r') :
    Text.physicalLines (cs ++ ['\n']) = Text.physicalLines cs := by
  induction cs using Text.physicalLines.induct with
  | case1 => cases h
  | case2 cs ih =>
    refine congrArg (List.cons []) ?_
    cases cs with
    | nil => cases h
    | cons d cs =>
      rw [List.getLast?_cons_cons, List.getLast?_cons_cons] at h
      exact ih h
  | case3 c cs hcr hend ih =>
    cases cs with
    | nil =>
      cases h
      rfl
    | cons d cs =>
      rw [List.getLast?_cons_cons] at h
      rw [List.cons_append, Text.physicalLines.eq_3, Text.physicalLines.eq_3 _ _ hcr, if_pos hend,
        if_pos hend, ih h]
      rintro rest hc heq
      exact hcr cs hc (by rw [(List.cons.inj heq).1])
  | case4 c cs hcr hend hnil =>
    cases cs with
    | nil =>
      cases h
      exact absurd rfl hend
    | cons d cs => exact absurd hnil (Text.physicalLines_ne_nil d cs)
  | case5 c cs hcr hend line lines hcons ih =>
    cases cs with
    | nil => cases hcons
    | cons d cs =>
      rw [List.getLast?_cons_cons] at h
      rw [List.cons_append, Text.physicalLines.eq_3, Text.physicalLines.eq_3 _ _ hcr, if_neg hend,
        if_neg hend, ih h]
      rintro rest rfl -
      exact hend rfl

theorem join_cons_cons (separator part next : Text) (parts : List Text) :
    Text.join separator (part :: next :: parts) =
      part ++ (separator ++ Text.join separator (next :: parts)) := by
  simp [Text.join, List.intercalate]

/-- A character before the first part stands before the joined text. -/
theorem join_cons (separator : Text) (c : Char) (part : Text) (parts : List Text) :
    Text.join separator ((c :: part) :: parts) = c :: Text.join separator (part :: parts) := by
  cases parts with
  | nil => simp [Text.join]
  | cons next parts => rw [join_cons_cons, join_cons_cons, List.cons_append]

/-- The tidied text of the lines of a text. -/
def tidyLines (cs : Text) : Text :=
  Text.join ['\n'] (cs.physicalLines.map (Text.trimEnd isWhiteSpace)) ++
    if cs.endsInLineBreak then ['\n'] else []

theorem tidyLines_of_empty_line {cs rest : Text} (h : cs.physicalLines = [] :: rest.physicalLines)
    (hend : cs.endsInLineBreak = if rest = [] then true else rest.endsInLineBreak) :
    tidyLines cs = '\n' :: tidyLines rest := by
  cases rest with
  | nil =>
    rw [tidyLines, h, hend]
    rfl
  | cons d ds =>
    obtain ⟨line, lines, hlines⟩ := List.exists_cons_of_ne_nil (Text.physicalLines_ne_nil d ds)
    rw [tidyLines, tidyLines, h, hend, hlines, if_neg (List.cons_ne_nil _ _)]
    rfl

theorem tidyLines_cons {c d : Char} {cs : Text} (hend : isLineEnd c = false) :
    tidyLines (c :: d :: cs) =
      if isWhiteSpace c && endsLine (d :: cs) then tidyLines (d :: cs)
      else c :: tidyLines (d :: cs) := by
  obtain ⟨line, lines, hlines⟩ := List.exists_cons_of_ne_nil (Text.physicalLines_ne_nil d cs)
  have hcr : ∀ rest, c = '\r' → d :: cs = '\n' :: rest → False := by
    rintro rest rfl -
    cases hend
  have hcons : Text.physicalLines (c :: d :: cs) = (c :: line) :: lines := by
    rw [Text.physicalLines.eq_3 _ _ hcr, hlines, hend]
    rfl
  have hends : endsLine (d :: cs) = line.all isWhiteSpace := by
    rw [endsLine, ← head_physicalLines hlines]
  rw [tidyLines, tidyLines, hcons, hlines, hends, Text.endsInLineBreak_cons_cons, List.map_cons,
    List.map_cons, trimEnd_cons]
  split
  next hwhite =>
    rw [Bool.and_eq_true] at hwhite
    rw [trimEnd_eq_nil_iff.2 hwhite.2]
  · rw [join_cons, List.cons_append]

theorem tidyLines_eq_tidy (cs : Text) : tidyLines cs = tidy cs := by
  fun_induction tidy cs with
  | case1 => rfl
  | case2 cs ih =>
    rw [@tidyLines_of_empty_line _ cs rfl, ih]
    cases cs with
    | nil => rfl
    | cons d ds =>
      rw [Text.endsInLineBreak_cons_cons, Text.endsInLineBreak_cons_cons]
      rfl
  | case3 c cs hcr hend ih =>
    have hlines : Text.physicalLines (c :: cs) = [] :: Text.physicalLines cs := by
      rw [Text.physicalLines.eq_3 c cs hcr, if_pos hend]
    rw [tidyLines_of_empty_line hlines, ih]
    cases cs with
    | nil => exact hend
    | cons d ds => exact Text.endsInLineBreak_cons_cons c d ds
  | case4 c cs hcr hend hwhite ih =>
    cases cs with
    | nil =>
      rw [Bool.and_eq_true] at hwhite
      simp [tidyLines, Text.physicalLines, hend, Text.endsInLineBreak, trimEnd_cons, hwhite.1, tidy,
        Text.join]
    | cons d ds => rw [tidyLines_cons (by simpa using hend), if_pos hwhite, ih]
  | case5 c cs hcr hend hwhite ih =>
    cases cs with
    | nil =>
      have hc : isWhiteSpace c = false := by simpa [endsLine] using hwhite
      simp [tidyLines, Text.physicalLines, hend, Text.endsInLineBreak, hc, tidy,
        Text.join, Text.trimEnd]
    | cons d ds => rw [tidyLines_cons (by simpa using hend), if_neg hwhite, ih]

theorem joinContinuations_eq_tidy {cs : Text}
    (h : ∀ line ∈ cs.physicalLines, isContinued (Text.trimEnd isWhiteSpace line) = false) :
    joinContinuations cs = tidy cs := by
  have hlines : ∀ line ∈ cs.physicalLines.map (Text.trimEnd isWhiteSpace),
      isContinued line = false :=
    List.forall_mem_map.2 h
  rw [joinContinuations, splice_eq_self hlines]
  exact tidyLines_eq_tidy cs

/-! ## Parts of a text -/

theorem isLineEnd_of_not_isWhiteSpace {c : Char} (h : isWhiteSpace c = false) :
    isLineEnd c = false := by
  refine Bool.eq_false_iff.2 fun hend => ?_
  simp only [isLineEnd, Bool.or_eq_true, beq_iff_eq] at hend
  rcases hend with rfl | rfl <;> exact absurd h (by decide)

theorem tidy_of_isLineEnd {c : Char} (h : isLineEnd c) {cs : Text}
    (hcr : ∀ rest, c = '\r' → cs = '\n' :: rest → False) : tidy (c :: cs) = '\n' :: tidy cs := by
  rw [tidy.eq_3 c cs hcr, if_pos h]

theorem tidy_of_not_isLineEnd {c : Char} (h : isLineEnd c = false) (cs : Text) :
    tidy (c :: cs) = if isWhiteSpace c && endsLine cs then tidy cs else c :: tidy cs := by
  have hcr : ∀ rest, c = '\r' → cs = '\n' :: rest → False := by
    rintro rest rfl -
    cases h
  rw [tidy.eq_3 c cs hcr, h]
  rfl

theorem tidy_cons {c : Char} (h : isWhiteSpace c = false) (cs : Text) :
    tidy (c :: cs) = c :: tidy cs := by
  rw [tidy_of_not_isLineEnd (isLineEnd_of_not_isWhiteSpace h), h]
  rfl

theorem endsLine_cons (c : Char) (cs : Text) :
    endsLine (c :: cs) = (isLineEnd c || isWhiteSpace c && endsLine cs) := by
  rw [endsLine, List.takeWhile_cons]
  cases isLineEnd c <;> simp [endsLine]

theorem endsLine_append_cons {c : Char} (h : isWhiteSpace c = false) (w rest : Text) :
    endsLine (w ++ c :: rest) = endsLine (w ++ [c]) := by
  induction w with
  | nil =>
    rw [List.nil_append, List.nil_append, endsLine_cons, endsLine_cons, h,
      isLineEnd_of_not_isWhiteSpace h]
    rfl
  | cons d w ih => rw [List.cons_append, List.cons_append, endsLine_cons, endsLine_cons, ih]

/-- What stands behind a character that is no white space has no influence on what
    stands before it. -/
theorem tidy_append_cons {c : Char} (h : isWhiteSpace c = false) (w rest : Text) :
    tidy (w ++ c :: rest) = tidy (w ++ [c]) ++ tidy rest := by
  have hfeed : c ≠ '\n' := by
    rintro rfl
    cases h
  fun_induction tidy w with
  | case1 =>
    rw [List.nil_append, List.nil_append, tidy_cons h, tidy_cons h]
    rfl
  | case2 w ih =>
    show '\n' :: tidy (w ++ c :: rest) = '\n' :: (tidy (w ++ [c]) ++ tidy rest)
    rw [ih]
  | case3 d w hcr hend ih =>
    have hne (rest : Text) : ∀ after, d = '\r' → w ++ c :: rest = '\n' :: after → False := by
      intro after hd hw
      cases w with
      | nil => exact hfeed (List.cons.inj hw).1
      | cons e w =>
        obtain ⟨rfl, -⟩ := List.cons.inj hw
        exact hcr w hd rfl
    rw [List.cons_append, List.cons_append, tidy_of_isLineEnd hend (hne rest),
      tidy_of_isLineEnd hend (hne []), ih]
    rfl
  | case4 d w hcr hend hwhite ih | case5 d w hcr hend hwhite ih =>
    have hd : isLineEnd d = false := by simpa using hend
    rw [List.cons_append, List.cons_append, tidy_of_not_isLineEnd hd, tidy_of_not_isLineEnd hd,
      endsLine_append_cons h w rest, ih]
    split <;> rfl

/-- Text of one line that ends in a character other than white space stays as it is. -/
theorem tidy_of_inline {c : Char} (h : isWhiteSpace c = false) {w : Text}
    (hw : ∀ d ∈ w, isLineEnd d = false) : tidy (w ++ [c]) = w ++ [c] := by
  induction w with
  | nil => exact tidy_cons h []
  | cons d w ih =>
    rw [List.forall_mem_cons] at hw
    have hends : endsLine (w ++ [c]) = false := by
      have hinline : ∀ e ∈ w ++ [c], !isLineEnd e := by
        intro e he
        rcases List.mem_append.1 he with he | he
        · rw [hw.2 e he]
          rfl
        · rw [List.mem_singleton.1 he, isLineEnd_of_not_isWhiteSpace h]
          rfl
      rw [endsLine, List.takeWhile_eq_self_iff.2 hinline, List.all_append]
      simp [h]
    rw [List.cons_append, tidy_of_not_isLineEnd hw.1, hends, ih hw.2, Bool.and_false]
    rfl

/-- Text of one line up to its end is trimmed. -/
theorem tidy_append_of_ends {w rest : Text} (hw : ∀ d ∈ w, isLineEnd d = false)
    (hrest : ∀ c ∈ rest.head?, isLineEnd c) :
    tidy (w ++ rest) = Text.trimEnd isWhiteSpace w ++ tidy rest := by
  induction w with
  | nil => rfl
  | cons d w ih =>
    rw [List.forall_mem_cons] at hw
    have hends : endsLine (w ++ rest) = w.all isWhiteSpace := by
      have htake : rest.takeWhile (fun c => !isLineEnd c) = [] := by
        cases rest with
        | nil => rfl
        | cons c rest => exact List.takeWhile_cons_of_neg (by simp [hrest c rfl])
      rw [endsLine, List.takeWhile_append_of_pos (fun c hc => by rw [hw.2 c hc]; rfl), htake,
        List.append_nil]
    rw [List.cons_append, tidy_of_not_isLineEnd hw.1, hends, ih hw.2, trimEnd_cons]
    split
    next hwhite =>
      rw [Bool.and_eq_true] at hwhite
      rw [trimEnd_eq_nil_iff.2 hwhite.2]
    · rfl

theorem head?_tidy_of_endsLine {cs : Text} (h : endsLine cs) : ∀ c ∈ (tidy cs).head?, c = '\n' := by
  fun_induction tidy cs with
  | case1 => simp
  | case2 | case3 => simp
  | case4 c cs _ _ hwhite ih =>
    rw [Bool.and_eq_true] at hwhite
    exact ih hwhite.2
  | case5 c cs _ hend hwhite =>
    rw [endsLine_cons] at h
    simp [hend] at h
    simp [h] at hwhite

/-- The first character is a line feed, or has been the first before. -/
theorem head?_tidy {cs : Text} {c : Char} (h : (tidy cs).head? = some c) (hc : c ≠ '\n') :
    cs.head? = some c := by
  revert h
  fun_cases tidy cs with
  | case1 => intro h; cases h
  | case2 | case3 =>
    intro h
    cases h
    exact absurd rfl hc
  | case4 d cs _ _ hwhite =>
    intro h
    rw [Bool.and_eq_true] at hwhite
    exact absurd (head?_tidy_of_endsLine hwhite.2 c h) hc
  | case5 => exact id

theorem count_tidy (cs : Text) : (tidy cs).count '\n' = Text.lineBreaks cs := by
  fun_induction tidy cs with
  | case1 => rfl
  | case2 cs ih => rw [List.count_cons_self, ih, Text.lineBreaks]
  | case3 c cs hcr hend ih =>
    rw [List.count_cons_self, ih, Text.lineBreaks.eq_3 c cs hcr, if_pos hend]
  | case4 c cs hcr hend _ ih => rw [ih, Text.lineBreaks.eq_3 c cs hcr, if_neg hend]
  | case5 c cs hcr hend _ ih =>
    have hc : c ≠ '\n' := by
      rintro rfl
      exact hend rfl
    rw [List.count_cons_of_ne hc, ih, Text.lineBreaks.eq_3 c cs hcr, if_neg hend]

theorem length_tidy_le (cs : Text) : (tidy cs).length ≤ cs.length := by
  fun_induction tidy cs with
  | case1 => exact Nat.le_refl _
  | case2 cs ih =>
    simp only [List.length_cons]
    omega
  | case3 c cs _ _ ih | case5 c cs _ _ _ ih => exact Nat.succ_le_succ ih
  | case4 c cs _ _ _ ih => exact Nat.le_succ_of_le ih

end IdlFrontend.Source
