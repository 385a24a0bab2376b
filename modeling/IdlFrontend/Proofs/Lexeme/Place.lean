import IdlFrontend.Proofs.Lexer.Locality
import IdlFrontend.Proofs.Lexeme.Condensed

/-!
# Lexemes on the two sides of a place

Where a text is cut into lexemes at a place, the lexemes before the place depend only on
the text before it and on the character behind it. If that character is no line feed, they
stay the same when a blank, a line break or the end of the text takes its place.

Results:

* `scanFrom_eq_append`: the lexemes behind a place are those of the text behind it.
* `scanFrom_append_of_last`: text behind the last lexeme that does not lengthen it.
* `scanFrom_append_of_blank`: the lexemes before a place, with a blank or a line break behind it.
* `exists_scan_gap`: any space in the place of a lexeme.
* `exists_lines_append`: the lines before a place.
-/

namespace IdlFrontend.Lexeme

variable {kind : LexemeKind} {c : Char} {cs : Text}

/-! ## One lexeme -/

theorem extent_of_append {rest : Text} (h : extent c (cs ++ rest) = (kind, cs.length)) :
    extent c cs = (kind, cs.length) := by
  have htake := (extent_take c (cs ++ rest)).2
  rw [h, List.take_left] at htake
  exact htake

/-- A block comment that ends before the end of the text is closed, and ends there
    whatever stands behind it. -/
theorem blockCommentLength_append {rest : Text} (hne : rest ≠ [])
    (h : blockCommentLength (cs ++ rest) = cs.length) (rest' : Text) :
    blockCommentLength (cs ++ rest') = cs.length := by
  have hpos {ds : Text} (hds : ds ≠ []) : blockCommentLength ds ≠ 0 := by
    cases ds with
    | nil => exact absurd rfl hds
    | cons d ds =>
      rw [blockCommentLength.eq_def]
      split <;> simp_all
  induction cs with
  | nil => exact absurd h (hpos hne)
  | cons d ds ih =>
    rw [List.cons_append] at h ⊢
    by_cases hclose : d = '*' ∧ (ds ++ rest).head? = some '/'
    · obtain ⟨rfl, hslash⟩ := hclose
      obtain ⟨es, hes⟩ := List.head?_eq_some_iff.1 hslash
      rw [hes, blockCommentLength, List.length_cons] at h
      obtain ⟨e, rfl⟩ := List.length_eq_one_iff.1 (Nat.succ.inj h).symm
      obtain ⟨rfl, -⟩ := List.cons.inj hes
      rfl
    · have hstep (more : Text) (hmore : d = '*' → (ds ++ more).head? ≠ some '/') :
          blockCommentLength (d :: (ds ++ more)) = blockCommentLength (ds ++ more) + 1 := by
        rw [blockCommentLength]
        intro tail hd heq
        exact hmore hd (by rw [heq]; rfl)
      rw [hstep rest fun hd hhead => hclose ⟨hd, hhead⟩, List.length_cons,
        Nat.add_right_cancel_iff] at h
      have hds : ds ≠ [] := by
        rintro rfl
        exact hpos hne h
      have hhead : (ds ++ rest').head? = (ds ++ rest).head? := by
        rw [List.head?_append_of_ne_nil _ hds, List.head?_append_of_ne_nil _ hds]
      rw [hstep rest' (fun hd => by rw [hhead]; exact fun h => hclose ⟨hd, h⟩), ih h,
        List.length_cons]

theorem extent_comment {rest : Text} (h : extent c (cs ++ rest) = (.comment, cs.length)) :
    c = '/' ∧ ((∃ ds, cs = '*' :: ds ∧ blockCommentLength (ds ++ rest) = ds.length) ∨
      ∃ ds, cs = '/' :: ds ∧ ((ds ++ rest).takeWhile (· != '\n')).length = ds.length) := by
  have hc := eq_of_extent_comment h
  subst hc
  refine ⟨rfl, ?_⟩
  rw [extent_slash] at h
  cases cs with
  | nil => split at h <;> cases h
  | cons d ds =>
    rw [List.cons_append] at h
    split at h
    next heq =>
      obtain ⟨rfl, rfl⟩ := List.cons.inj heq
      exact Or.inl ⟨ds, rfl, by simpa using h⟩
    next heq =>
      obtain ⟨rfl, rfl⟩ := List.cons.inj heq
      exact Or.inr ⟨ds, rfl, by simpa using h⟩
    · cases h

theorem extent_space_append_iff (h : extent c cs = (.space, cs.length)) (rest : Text) :
    extent c (cs ++ rest) = (.space, cs.length) ↔ ∀ d ∈ rest.head?, isSpace d = false := by
  have hc := isSpace_of_extent h
  rw [extent_of_isSpace hc, Prod.mk.injEq] at h
  rw [extent_of_isSpace hc, Prod.mk.injEq, ← takeWhile_append_length_iff h.2]
  exact and_iff_right rfl

theorem extent_newline_append {rest : Text} (h : extent c (cs ++ rest) = (.newline, cs.length))
    (rest' : Text) : extent c (cs ++ rest') = (.newline, cs.length) := by
  have hc := eq_of_extent_newline h
  subst hc
  have hnil : cs = [] := List.eq_nil_of_length_eq_zero (Prod.mk.inj h).2.symm
  rw [hnil]
  rfl

theorem extent_comment_append {rest rest' : Text}
    (h : extent c (cs ++ rest) = (.comment, cs.length))
    (hblock : rest = [] → rest' = [])
    (hline : (∀ d ∈ rest.head?, d = '\n') → ∀ d ∈ rest'.head?, d = '\n') :
    extent c (cs ++ rest') = (.comment, cs.length) := by
  obtain ⟨rfl, ⟨ds, rfl, hlength⟩ | ⟨ds, rfl, hlength⟩⟩ := extent_comment h
  · rw [List.cons_append, extent_slash]
    refine congrArg (fun n => (LexemeKind.comment, n + 1)) ?_
    by_cases hrest : rest = []
    · rw [hblock hrest, ← hrest]
      exact hlength
    · exact blockCommentLength_append hrest hlength rest'
  · have hall : (ds.takeWhile (· != '\n')).length = ds.length := by
      have hprefix := extent_of_append h
      rw [extent_slash] at hprefix
      simpa using hprefix
    have hend := (takeWhile_append_length_iff hall rest).1 hlength
    have hstop := hline fun d hd => by simpa using hend d hd
    rw [List.cons_append, extent_slash]
    refine congrArg (fun n => (LexemeKind.comment, n + 1)) ?_
    exact (takeWhile_append_length_iff hall rest').2 fun d hd => by simp [hstop d hd]

/-- The first character behind a lexeme decides that it ends there. -/
theorem extent_append_of_head {rest rest' : Text} (h : extent c (cs ++ rest) = (kind, cs.length))
    (hhead : rest.head? = rest'.head?) : extent c (cs ++ rest') = (kind, cs.length) := by
  have hwhole := extent_of_append h
  by_cases hspace : kind = .space
  · subst hspace
    rw [extent_space_append_iff hwhole, ← hhead]
    exact (extent_space_append_iff hwhole rest).1 h
  by_cases hnewline : kind = .newline
  · subst hnewline
    exact extent_newline_append h rest'
  by_cases hcomment : kind = .comment
  · subst hcomment
    refine extent_comment_append h (fun hnil => ?_) (fun hfeed => hhead ▸ hfeed)
    rw [hnil] at hhead
    exact List.head?_eq_none_iff.1 hhead.symm
  rw [extent_append_iff hwhole ⟨hspace, hnewline, hcomment⟩, ← hhead]
  exact (extent_append_iff hwhole ⟨hspace, hnewline, hcomment⟩ rest).1 h

/-- What does not run on into some character of its line does not run on into a blank. -/
theorem runsInto_of_blank {text : Text} {d e : Char} (hd : d ≠ '\n') (he : isSpace e ∨ e = '\n')
    (h : runsInto kind text d = false) : runsInto kind text e = false := by
  have hmem : e ∈ [' ', '\t', '\x0b', '\x0c', '\r', '\n'] := by
    simp only [isSpace, IdlFrontend.isBlank, Bool.or_eq_true, beq_iff_eq] at he
    simp only [List.mem_cons, List.not_mem_nil, or_false]
    tauto
  have hword : isWordPart e = false := eq_false_of_mem (by decide) hmem
  have hdigit : e.isDigit = false := eq_false_of_mem (by decide) hmem
  have hmarks : e ≠ '*' ∧ e ≠ '/' ∧ e ≠ '#' ∧ e ≠ '+' ∧ e ≠ '-' ∧ e ≠ '.' := by
    refine ⟨?_, ?_, ?_, ?_, ?_, ?_⟩ <;> rintro rfl <;> exact absurd hmem (by decide)
  obtain ⟨h₁, h₂, h₃, h₄, h₅, h₆⟩ := hmarks
  cases kind with
  | word => exact hword
  | number =>
    rw [runsInto]
    cases text.getLast? with
    | none => rfl
    | some last => simp [continuesNumber, hword, h₄, h₅, h₆]
  | string | character =>
    simp only [runsInto, Bool.and_eq_false_iff, bne_eq_false_iff_eq, hd, or_false] at h
    simp [runsInto, h]
  | punctuation => simp [runsInto, hdigit, h₁, h₂, h₃]
  | space | newline | comment => rfl

/-- A lexeme that ends before a character other than a line feed also ends before a blank,
    a line break and the end of the text. Only a space does not end before another. -/
theorem extent_append_of_blank {rest rest' : Text} (h : extent c (cs ++ rest) = (kind, cs.length))
    (hrest : ∃ d, rest.head? = some d ∧ d ≠ '\n')
    (hrest' : ∀ d ∈ rest'.head?, (isSpace d ∧ kind ≠ .space) ∨ d = '\n') :
    extent c (cs ++ rest') = (kind, cs.length) := by
  obtain ⟨d, hd, hfeed⟩ := hrest
  have hwhole := extent_of_append h
  by_cases hspace : kind = .space
  · subst hspace
    rw [extent_space_append_iff hwhole]
    intro e he
    rcases hrest' e he with ⟨-, hkind⟩ | rfl
    · exact absurd rfl hkind
    · decide
  by_cases hnewline : kind = .newline
  · subst hnewline
    exact extent_newline_append h rest'
  by_cases hcomment : kind = .comment
  · subst hcomment
    refine extent_comment_append h (fun hnil => ?_) (fun hline => absurd (hline d hd) hfeed)
    rw [hnil] at hd
    cases hd
  rw [extent_append_iff hwhole ⟨hspace, hnewline, hcomment⟩]
  intro e he
  exact runsInto_of_blank hfeed ((hrest' e he).imp And.left id)
    ((extent_append_iff hwhole ⟨hspace, hnewline, hcomment⟩ rest).1 h d hd)

/-! ## All lexemes -/

theorem scanFrom_eq_cons {line : Nat} {t : Lexeme} {ts : List Lexeme} {text : Text}
    (h : scanFrom line (t.text ++ text) = t :: ts) :
    ∃ c cs, t.text = c :: cs ∧ extent c (cs ++ text) = (t.kind, cs.length) ∧ t.line = line ∧
      ts = scanFrom (line + t.text.count '\n') text := by
  cases htext : t.text with
  | nil =>
    rw [htext, List.nil_append] at h
    cases text with
    | nil =>
      rw [scanFrom] at h
      cases h
    | cons c cs =>
      rw [scanFrom_cons] at h
      rw [← (List.cons.inj h).1] at htext
      cases htext
  | cons c cs =>
    rw [htext, List.cons_append, scanFrom_cons] at h
    obtain ⟨ht, hts⟩ := List.cons.inj h
    have hcut : (cs ++ text).take (extent c (cs ++ text)).2 = cs := by
      rw [← ht] at htext
      exact (List.cons.inj htext).2
    have hle := (extent_take c (cs ++ text)).1
    have hlength : (extent c (cs ++ text)).2 = cs.length := by
      have := congrArg List.length hcut
      rwa [List.length_take_of_le hle] at this
    refine ⟨c, cs, rfl, ?_, ?_, ?_⟩
    · rw [← ht, ← hlength]
    · rw [← ht]
    · rw [hcut, hlength, List.drop_left] at hts
      exact hts.symm

theorem scanFrom_append_cons {line : Nat} {c : Char} {cs rest : Text}
    (h : extent c (cs ++ rest) = (kind, cs.length)) :
    scanFrom line (c :: cs ++ rest) =
      ⟨kind, c :: cs, line⟩ :: scanFrom (line + (c :: cs).count '\n') rest := by
  rw [List.cons_append, scanFrom_cons, h]
  simp

theorem ne_nil_of_mem_scanFrom {line : Nat} {cs : Text} {ts us : List Lexeme}
    (h : scanFrom line cs = ts ++ us) : ∀ t ∈ ts, t.text ≠ [] := fun t ht =>
  (isWhole_of_mem_scanFrom t (by rw [h]; exact List.mem_append_left _ ht)).ne_nil

/-- The lexemes behind a place are those of the text behind it. -/
theorem scanFrom_eq_append {line : Nat} {ts us : List Lexeme} {rest : Text}
    (h : scanFrom line (ts.flatMap Lexeme.text ++ rest) = ts ++ us) :
    us = scanFrom (line + (ts.flatMap Lexeme.text).count '\n') rest := by
  induction ts generalizing line with
  | nil => exact h.symm
  | cons t ts ih =>
    rw [List.flatMap_cons, List.append_assoc, List.cons_append] at h
    obtain ⟨-, -, -, -, -, hts⟩ := scanFrom_eq_cons h
    rw [ih hts.symm, List.flatMap_cons, List.count_append, Nat.add_assoc]

/-- Text behind the last lexeme is cut for itself, if it does not lengthen that lexeme. -/
theorem scanFrom_append_of_last {line : Nat} {cs ds : Text}
    (h : ∀ t ∈ (scanFrom line cs).getLast?, ∀ c rest, t.text = c :: rest →
      extent c (rest ++ ds) = (t.kind, rest.length)) :
    scanFrom line (cs ++ ds) = scanFrom line cs ++ scanFrom (line + cs.count '\n') ds := by
  fun_induction scanFrom line cs with
  | case1 => rfl
  | case2 line c cs kind n hextent text ih =>
    have hle : n ≤ cs.length := by
      have hle := (extent_take c cs).1
      rwa [hextent] at hle
    by_cases hrest : cs.drop n = []
    · have htake : cs.take n = cs := List.take_of_length_le (List.drop_eq_nil_iff.1 hrest)
      rw [hrest, scanFrom] at h
      have hkeep : extent c (cs.take n ++ ds) = (kind, (cs.take n).length) :=
        h _ rfl c (cs.take n) rfl
      rw [htake] at hkeep
      rw [scanFrom_append_cons hkeep, hrest, scanFrom, List.singleton_append]
      simp only [text, htake]
    · have hcut : cs.take n ++ (cs.drop n ++ ds) = cs ++ ds := by
        rw [← List.append_assoc, List.take_append_drop]
      have hkeep : extent c (cs.take n ++ (cs.drop n ++ ds)) = (kind, (cs.take n).length) := by
        have hbefore : extent c (cs.take n ++ cs.drop n) = (kind, (cs.take n).length) := by
          rw [List.take_append_drop, hextent, List.length_take_of_le hle]
        exact extent_append_of_head hbefore (List.head?_append_of_ne_nil _ hrest).symm
      have hscan : scanFrom line (c :: cs.take n ++ (cs.drop n ++ ds)) = _ :=
        scanFrom_append_cons hkeep
      have hnonempty : scanFrom (line + text.count '\n') (cs.drop n) ≠ [] := by
        obtain ⟨d, es, hd⟩ := List.exists_cons_of_ne_nil hrest
        rw [hd, scanFrom]
        exact List.cons_ne_nil _ _
      obtain ⟨u, us, hus⟩ := List.exists_cons_of_ne_nil hnonempty
      rw [hus, List.getLast?_cons_cons, ← hus] at h
      have hcount : line + (c :: cs).count '\n' =
          line + text.count '\n' + (cs.drop n).count '\n' := by
        rw [Nat.add_assoc, ← List.count_append, List.cons_append, List.take_append_drop]
      rw [List.cons_append, hcut, ih h] at hscan
      rw [List.cons_append, hscan, hcount]
      rfl

/-- The lexemes before a place stay the same if a blank, a line break or the end of the
    text comes there. -/
theorem scanFrom_append_of_blank {line : Nat} {ts us : List Lexeme} {rest rest' : Text}
    (h : scanFrom line (ts.flatMap Lexeme.text ++ rest) = ts ++ us)
    (hrest : ∃ d, rest.head? = some d ∧ d ≠ '\n')
    (hrest' : ∀ d ∈ rest'.head?, isSpace d ∨ d = '\n')
    (hlast : ∀ t ∈ ts.getLast?, t.kind ≠ .space) :
    scanFrom line (ts.flatMap Lexeme.text ++ rest') =
      ts ++ scanFrom (line + (ts.flatMap Lexeme.text).count '\n') rest' := by
  have hne := ne_nil_of_mem_scanFrom h
  induction ts generalizing line with
  | nil => rfl
  | cons t ts ih =>
    rw [List.flatMap_cons, List.append_assoc, List.cons_append] at h
    obtain ⟨c, cs, htext, hextent, hline, hts⟩ := scanFrom_eq_cons h
    rw [List.forall_mem_cons] at hne
    have hkeep : extent c (cs ++ (ts.flatMap Lexeme.text ++ rest')) = (t.kind, cs.length) := by
      cases ts with
      | nil =>
        exact extent_append_of_blank hextent hrest fun d hd =>
          (hrest' d hd).imp (fun hspace => ⟨hspace, hlast t rfl⟩) id
      | cons u ts =>
        refine extent_append_of_head hextent ?_
        have hu := hne.2 u List.mem_cons_self
        rw [List.flatMap_cons, List.append_assoc, List.append_assoc,
          List.head?_append_of_ne_nil _ hu, List.head?_append_of_ne_nil _ hu]
    have hrest := ih hts.symm (fun u hu => hlast u ?_) hne.2
    · rw [List.flatMap_cons, List.append_assoc, htext, scanFrom_append_cons hkeep, ← htext, hrest,
        List.count_append, Nat.add_assoc, ← hline]
      rfl
    · cases ts with
      | nil => cases hu
      | cons v ts => rw [List.getLast?_cons_cons]; exact hu

theorem kind_ne_space_of_mem_head?_scanFrom {line : Nat} {cs : Text}
    (h : ∀ d ∈ cs.head?, isSpace d = false) : ∀ t ∈ (scanFrom line cs).head?, t.kind ≠ .space := by
  cases cs with
  | nil =>
    rw [scanFrom]
    exact fun _ ht => by cases ht
  | cons d cs =>
    rw [scanFrom_cons]
    rintro t ⟨⟩ hkind
    have hspace := h d rfl
    rw [isSpace_of_extent (Prod.ext hkind rfl)] at hspace
    cases hspace

theorem isNewline_of_mem_head?_scanFrom {line : Nat} {cs : Text} (h : ∀ d ∈ cs.head?, d = '\n') :
    ∀ t ∈ (scanFrom line cs).head?, t.kind = .newline := by
  cases cs with
  | nil =>
    rw [scanFrom]
    exact fun _ ht => by cases ht
  | cons d cs =>
    obtain rfl := h d rfl
    rw [scanFrom_cons]
    rintro t ⟨⟩
    rfl

/-! ## A gap -/

/-- The lexeme that space is, if it is any. -/
def ofSpace (line : Nat) (cs : Text) : List Lexeme := if cs = [] then [] else [⟨.space, cs, line⟩]

theorem kind_of_mem_ofSpace {line : Nat} {cs : Text} : ∀ t ∈ ofSpace line cs, t.kind = .space := by
  unfold ofSpace
  split
  · exact List.forall_mem_nil _
  · exact List.forall_mem_singleton.2 rfl

theorem scanFrom_space {cs rest : Text} (hcs : ∀ c ∈ cs, isSpace c)
    (hrest : ∀ c ∈ rest.head?, isSpace c = false) (line : Nat) :
    scanFrom line (cs ++ rest) = ofSpace line cs ++ scanFrom line rest := by
  cases cs with
  | nil => rfl
  | cons c cs =>
    have hcount : (c :: cs).count '\n' = 0 :=
      List.count_eq_zero.2 fun hmem => absurd (hcs '\n' hmem) (by decide)
    rw [List.forall_mem_cons] at hcs
    have hall : (cs.takeWhile isSpace).length = cs.length := by
      rw [List.takeWhile_eq_self_iff.2 hcs.2]
    have hextent : extent c (cs ++ rest) = (.space, cs.length) := by
      rw [extent_of_isSpace hcs.1, (takeWhile_append_length_iff hall rest).2 hrest]
    rw [scanFrom_append_cons hextent, hcount, Nat.add_zero, ofSpace, if_neg (List.cons_ne_nil _ _)]
    rfl

theorem isSpace_of_isWhole_space {text : Text} (h : IsWhole .space text) :
    ∀ c ∈ text, isSpace c := by
  cases text with
  | nil => exact h.elim
  | cons c cs =>
    have hextent : extent c cs = (.space, cs.length) := h
    have hc := isSpace_of_extent hextent
    rw [extent_of_isSpace hc] at hextent
    refine List.forall_mem_cons.2 ⟨hc, ?_⟩
    rw [← List.takeWhile_eq_self_iff]
    exact (List.takeWhile_prefix _).eq_of_length (Prod.mk.inj hextent).2

/-- The lexemes without the space at their end. -/
def dropSpace (ts : List Lexeme) : List Lexeme := ts.rdropWhile (·.kind == .space)

theorem kind_of_mem_getLast?_dropSpace (ts : List Lexeme) :
    ∀ t ∈ (dropSpace ts).getLast?, t.kind ≠ .space := by
  intro t ht
  obtain ⟨hne, rfl⟩ := List.mem_getLast?_eq_getLast ht
  exact mt beq_iff_eq.2 (List.rdropWhile_last_not (fun t : Lexeme => t.kind == .space) ts hne)

/-- Any space may come in the place of a lexeme and of the space before it, or none if the
    line ends there. The lexemes before it stay the same. -/
theorem exists_scan_gap {ts us : List Lexeme} {t : Lexeme} {rest : Text}
    (h : scan (ts.flatMap Lexeme.text ++ (t.text ++ rest)) = ts ++ t :: us) (ht : '\n' ∉ t.text) :
    ∃ spaces, ts = dropSpace ts ++ spaces ∧ (∀ t ∈ spaces, t.kind = .space) ∧
      (∀ d ∈ spaces.flatMap Lexeme.text, isSpace d) ∧ us = scanFrom t.line rest ∧
      ∀ gap rest', (∀ d ∈ gap, isSpace d) → (∀ d ∈ rest'.head?, isSpace d = false) →
        (gap = [] → ∀ d ∈ rest'.head?, d = '\n') →
        scan ((dropSpace ts).flatMap Lexeme.text ++ (gap ++ rest')) =
          dropSpace ts ++ (ofSpace t.line gap ++ scanFrom t.line rest') := by
  obtain ⟨spaces, hts, hspaces⟩ : ∃ spaces, ts = dropSpace ts ++ spaces ∧
      ∀ u ∈ spaces, u.kind = .space :=
    ⟨ts.rtakeWhile (·.kind == .space), List.rdropWhile_append_rtakeWhile.symm,
      fun u hu => by simpa using List.mem_rtakeWhile_imp hu⟩
  have hlast := kind_of_mem_getLast?_dropSpace ts
  generalize dropSpace ts = ts₀ at hts hlast ⊢
  subst hts
  have hwhole : ∀ u ∈ ts₀ ++ spaces ++ t :: us, IsWhole u.kind u.text := by
    rw [← h]
    exact isWhole_of_mem_scan
  have htext : ∀ d ∈ spaces.flatMap Lexeme.text, isSpace d := by
    intro d hd
    obtain ⟨u, hu, hd⟩ := List.mem_flatMap.1 hd
    have hspace := hwhole u (List.mem_append_left _ (List.mem_append_right _ hu))
    rw [hspaces u hu] at hspace
    exact isSpace_of_isWhole_space hspace d hd
  have hcount : (spaces.flatMap Lexeme.text).count '\n' = 0 :=
    List.count_eq_zero.2 fun hmem => absurd (htext '\n' hmem) (by decide)
  have hplace : 1 + ((ts₀ ++ spaces).flatMap Lexeme.text).count '\n' =
      1 + (ts₀.flatMap Lexeme.text).count '\n' := by
    rw [List.flatMap_append, List.count_append, hcount, Nat.add_zero]
  have hbehind : t :: us =
      scanFrom (1 + ((ts₀ ++ spaces).flatMap Lexeme.text).count '\n') (t.text ++ rest) :=
    scanFrom_eq_append h
  obtain ⟨-, -, -, -, hline, hus⟩ := scanFrom_eq_cons hbehind.symm
  rw [hplace] at hline hus
  rw [← hline, List.count_eq_zero.2 ht, Nat.add_zero] at hus
  refine ⟨spaces, rfl, hspaces, htext, hus, fun gap rest' hgap hrest' hend => ?_⟩
  have hne := (hwhole t (List.mem_append_right _ List.mem_cons_self)).ne_nil
  have hhead : ∃ d, (spaces.flatMap Lexeme.text ++ (t.text ++ rest)).head? = some d ∧ d ≠ '\n' := by
    obtain ⟨d, ds, heq⟩ := List.exists_cons_of_ne_nil
      (List.append_ne_nil_of_right_ne_nil (spaces.flatMap Lexeme.text) hne)
    refine ⟨d, by rw [← List.append_assoc, heq]; rfl, ?_⟩
    rintro rfl
    have hmem : '\n' ∈ spaces.flatMap Lexeme.text ++ t.text := by rw [heq]; exact List.mem_cons_self
    rcases List.mem_append.1 hmem with hmem | hmem
    · exact absurd (htext '\n' hmem) (by decide)
    · exact ht hmem
  have hbefore :
      scanFrom 1 (ts₀.flatMap Lexeme.text ++ (spaces.flatMap Lexeme.text ++ (t.text ++ rest))) =
      ts₀ ++ (spaces ++ t :: us) := by
    rw [← List.append_assoc, ← List.flatMap_append, ← List.append_assoc ts₀]
    exact h
  have hstop : ∀ d ∈ (gap ++ rest').head?, isSpace d ∨ d = '\n' := by
    cases gap with
    | nil => exact fun d hd => Or.inr (hend rfl d hd)
    | cons d gap =>
      rintro e ⟨⟩
      exact Or.inl (hgap _ List.mem_cons_self)
  rw [scan, scanFrom_append_of_blank hbefore hhead hstop hlast, scanFrom_space hgap hrest', hline]

/-! ## Lines -/

theorem lines_of_inline {ts : List Lexeme} (hne : ts ≠ []) (h : ∀ t ∈ ts, t.kind ≠ .newline) :
    lines ts = [ts] := by
  induction ts with
  | nil => exact absurd rfl hne
  | cons t ts ih =>
    rw [List.forall_mem_cons] at h
    rw [lines, if_neg h.1]
    cases ts with
    | nil => rfl
    | cons u ts => rw [ih (List.cons_ne_nil u ts) h.2]

theorem lines_append_newline {ts : List Lexeme} (h : ∀ t ∈ ts, t.kind ≠ .newline) {t : Lexeme}
    (ht : t.kind = .newline) (us : List Lexeme) :
    lines (ts ++ t :: us) = (ts ++ [t]) :: lines us := by
  induction ts with
  | nil => rw [List.nil_append, lines, if_pos ht, List.nil_append]
  | cons u ts ih =>
    rw [List.forall_mem_cons] at h
    rw [List.cons_append, lines, if_neg h.1, ih h.2]
    rfl

/-- Lexemes that end in a line feed are lines of their own, whatever stands behind them. -/
theorem lines_append {ts : List Lexeme} (h : ∀ t ∈ ts.getLast?, t.kind = .newline)
    (us : List Lexeme) :
    lines (ts ++ us) = lines ts ++ lines us := by
  induction ts with
  | nil => rfl
  | cons t ts ih =>
    have hrest : ∀ u ∈ ts.getLast?, u.kind = .newline := by
      intro u hu
      cases ts with
      | nil => cases hu
      | cons v ts => exact h u (by rwa [List.getLast?_cons_cons])
    rw [List.cons_append, lines, lines, ih hrest]
    split
    · rfl
    next ht =>
      have hne : ts ≠ [] := by
        rintro rfl
        exact ht (h t rfl)
      obtain ⟨line, rest, hlines⟩ := List.exists_cons_of_ne_nil (mt (fun hnil : lines ts = [] => by
        rw [← flatten_lines ts, hnil]
        rfl) hne)
      rw [hlines]
      rfl

/-- The lexemes before a place that stand on its line. -/
def lineBefore (ts : List Lexeme) : List Lexeme := ts.rtakeWhile (·.kind != .newline)

/-- The lexemes behind a place that stand on its line. -/
def lineBehind (ts : List Lexeme) : List Lexeme := ts.takeWhile (·.kind != .newline)

theorem kind_of_mem_lineBefore {ts : List Lexeme} : ∀ t ∈ lineBefore ts, t.kind ≠ .newline :=
  fun t ht => by simpa using List.mem_rtakeWhile_imp ht

theorem kind_of_mem_lineBehind {ts : List Lexeme} : ∀ t ∈ lineBehind ts, t.kind ≠ .newline :=
  fun t ht => by simpa using List.mem_takeWhile_imp ht

theorem lineBefore_append {ts us : List Lexeme} (h : ∀ t ∈ us, t.kind ≠ .newline) :
    lineBefore (ts ++ us) = lineBefore ts ++ us := by
  rw [lineBefore, lineBefore, List.rtakeWhile, List.reverse_append, List.takeWhile_append_of_pos,
    List.reverse_append, List.reverse_reverse, List.rtakeWhile]
  exact fun t ht => bne_iff_ne.2 (h t (List.mem_reverse.1 ht))

theorem lineBehind_append {ts us : List Lexeme} (h : ∀ t ∈ ts, t.kind ≠ .newline) :
    lineBehind (ts ++ us) = ts ++ lineBehind us :=
  List.takeWhile_append_of_pos fun t ht => bne_iff_ne.2 (h t ht)

theorem mem_getLast?_of_mem_lineBefore {ts : List Lexeme} {t : Lexeme}
    (h : t ∈ (lineBefore ts).getLast?) : t ∈ ts.getLast? := by
  obtain ⟨front, hfront⟩ := List.rtakeWhile_suffix (fun t : Lexeme => t.kind != .newline) ts
  rw [← hfront, List.getLast?_append]
  exact Option.mem_def.1 h ▸ rfl

theorem mem_head?_of_mem_lineBehind {ts : List Lexeme} {t : Lexeme}
    (h : t ∈ (lineBehind ts).head?) : t ∈ ts.head? := by
  obtain ⟨rest, hrest⟩ := List.takeWhile_prefix (fun t : Lexeme => t.kind != .newline) (l := ts)
  rw [← hrest, List.head?_append]
  exact Option.mem_def.1 h ▸ rfl

/-- The lines before a place stay the same whatever stands there. -/
theorem exists_lines_append (ts : List Lexeme) :
    ∃ before, ∀ us, lines (ts ++ us) = before ++ lines (lineBefore ts ++ us) := by
  refine ⟨lines (ts.rdropWhile (·.kind != .newline)), fun us => ?_⟩
  have hlast : ∀ t ∈ (ts.rdropWhile (·.kind != .newline)).getLast?, t.kind = .newline := by
    intro t ht
    obtain ⟨hne, rfl⟩ := List.mem_getLast?_eq_getLast ht
    simpa using List.rdropWhile_last_not (·.kind != .newline) ts hne
  rw [← lines_append hlast, ← List.append_assoc, lineBefore, List.rdropWhile_append_rtakeWhile]

/-- A line ends in a line feed, or else it is the last. -/
theorem lineBehind_cases (ts : List Lexeme) :
    ts = lineBehind ts ∨ ∃ t us, t.kind = .newline ∧ ts = lineBehind ts ++ t :: us := by
  have hts := List.takeWhile_append_dropWhile (p := fun t : Lexeme => t.kind != .newline) (l := ts)
  cases hdrop : ts.dropWhile (·.kind != .newline) with
  | nil =>
    rw [hdrop, List.append_nil] at hts
    exact Or.inl hts.symm
  | cons t us =>
    have hkind := List.head?_dropWhile_not (fun t : Lexeme => t.kind != .newline) ts
    rw [hdrop] at hkind hts
    exact Or.inr ⟨t, us, by simpa using hkind, hts.symm⟩

end IdlFrontend.Lexeme
