import IdlFrontend.Proofs.Layout.Basic
import IdlFrontend.Proofs.Lexer.Modes
import IdlFrontend.Proofs.Source.Tidy

/-!
# The lexemes of a text with a layout

A tidied text is cut into lexemes part by part: tokens without space between them give
lexemes that are not blank, blanks and comments give one blank lexeme each, and a line
break gives a line feed. Blanks at the end of a line are gone.

Results:

* `blockCommentLength_tidy`: a comment that is tidied is closed where it was.
* `Laid.scanned`: the lexemes of a tidied text.
-/

namespace IdlFrontend

open Source (tidy)

/-- A layout and lexemes of it, the first on the given line. -/
inductive Scanned (dialect : Dialect) (P : Text → Prop) : Nat → List Part → List Lexeme → Prop
  | nil {line : Nat} : Scanned dialect P line [] []
  | solid {line : Nat} {ts : List Unplaced} {x : Text} {us vs : List Lexeme} {ps : List Part} :
    ts ≠ [] → Glued dialect x ts → us ≠ [] → us.flatMap Lexeme.text = glue ts →
    (∀ u ∈ us, Lexeme.Solid P line u) → startsSolid ps = false → Scanned dialect P line ps vs →
    Scanned dialect P line (.solid ts :: ps) (us ++ vs)
  | dropped {line : Nat} {vs : List Lexeme} {ps : List Part} :
    (ps = [] ∨ ∃ qs, ps = .lineBreak :: qs) → Scanned dialect P line ps vs →
    Scanned dialect P line (.blank 0 :: ps) vs
  | blank {line lines : Nat} {u : Lexeme} {vs : List Lexeme} {ps : List Part} :
    u.kind = .space ∨ u.kind = .comment → Scanned dialect P (line + lines) ps vs →
    Scanned dialect P line (.blank lines :: ps) (u :: vs)
  | lineBreak {line : Nat} {u : Lexeme} {vs : List Lexeme} {ps : List Part} :
    u.kind = .newline → Scanned dialect P (line + 1) ps vs →
    Scanned dialect P line (.lineBreak :: ps) (u :: vs)

/-- What stands behind a text may be replaced by what opens no comment with it that was
    not opened before. -/
def Milder (x y : Text) : Prop := ∀ c ∈ ['/', '*'], y.head? = some c → x.head? = some c

theorem Milder.opensComment {x y : Text} (h : Milder x y) {c : Char} {w : Text}
    (hx : opensComment (c :: w ++ x) = false) : opensComment (c :: w ++ y) = false := by
  cases w with
  | cons d w =>
    by_cases hc : c = '/'
    · subst hc
      exact hx
    · exact opensComment_of_ne hc _
  | nil =>
    by_cases hc : c = '/'
    · subst hc
      cases y with
      | nil => rfl
      | cons d y =>
        refine Bool.eq_false_iff.2 fun hopens => ?_
        have hd : d ∈ ['/', '*'] := by
          simpa [IdlFrontend.opensComment] using hopens
        cases x with
        | nil => cases h d hd rfl
        | cons e x =>
          obtain rfl : e = d := Option.some.inj (h d hd rfl)
          have hopens' : IdlFrontend.opensComment ('/' :: e :: x) = true := hopens
          rw [show '/' :: [] ++ e :: x = '/' :: e :: x from rfl, hopens'] at hx
          cases hx
    · exact opensComment_of_ne hc _

theorem Milder.readable {x y w : Text} (h : Milder x y) (hw : Rule.Readable x w) :
    Rule.Readable y w := by
  cases hw with
  | plain hc hcomment => exact .plain hc (h.opensComment hcomment)
  | quoted hquote hclosed => exact .quoted hquote hclosed

theorem Milder.compact {P : Text → Prop} {x y w : Text} {inWord : Bool} (h : Milder x y)
    (hw : Lexeme.Compact P x inWord w) : Lexeme.Compact P y inWord w := by
  induction hw with
  | nil => exact .nil
  | plain hc hcomment hword _ ih => exact .plain hc (h.opensComment hcomment) hword ih
  | quoted hquote hinline hclosed _ ih => exact .quoted hquote hinline hclosed ih

theorem milder_tidy (x : Text) : Milder x (tidy x) := by
  intro c hc hhead
  refine Source.head?_tidy hhead ?_
  rintro rfl
  exact absurd hc (by decide)

/-! ## Tidied parts -/

theorem toNat_of_isPlain {c : Char} (h : isPlain c) : 33 ≤ c.toNat ∧ c.toNat ≤ 126 := by
  rw [isPlain, Bool.or_eq_true] at h
  rcases h with h | h
  · simp only [isWordPart, Char.isAlphanum, isAlpha_iff_toNat, Char.isDigit_iff_toNat,
      Bool.or_eq_true, beq_iff_eq, Char.reduceToNat] at h
    rcases h with ((⟨hlo, hhi⟩ | ⟨hlo, hhi⟩) | ⟨hlo, hhi⟩) | rfl
    · omega
    · omega
    · omega
    · decide
  · rw [decide_eq_true_eq] at h
    have hall : marks.all (fun d => 33 ≤ d.toNat && d.toNat ≤ 126) := by decide
    simpa using List.all_eq_true.1 hall c h

theorem isWhiteSpace_of_isPlain {c : Char} (h : isPlain c) : isWhiteSpace c = false := by
  obtain ⟨hlo, hhi⟩ := toNat_of_isPlain h
  simp only [isWhiteSpace, whiteSpaceRanges, List.any_cons, List.any_nil, Bool.or_false,
    Bool.or_eq_false_iff, Bool.and_eq_false_iff, decide_eq_false_iff_not]
  omega

theorem eq_append_of_closed {quote : Char} {v : Text}
    (h : Pattern.quotedLength? quote v = some v.length) : ∃ v', v = v' ++ [quote] := by
  fun_induction Pattern.quotedLength? quote v with
  | case1 | case2 => cases h
  | case3 d v ih =>
    obtain ⟨k, hk, hlen⟩ := Option.map_eq_some_iff.1 h
    obtain ⟨v', rfl⟩ := ih (by rw [hk, Nat.add_right_cancel hlen])
    exact ⟨'\\' :: d :: v', rfl⟩
  | case4 c v _ _ hquote =>
    rw [beq_iff_eq] at hquote
    obtain rfl : v = [] := List.eq_nil_of_length_eq_zero (by simpa using h.symm)
    exact ⟨[], by rw [hquote]; rfl⟩
  | case5 c v _ _ _ ih =>
    obtain ⟨k, hk, hlen⟩ := Option.map_eq_some_iff.1 h
    obtain ⟨v', rfl⟩ := ih (by rw [hk, Nat.add_right_cancel hlen])
    exact ⟨c :: v', rfl⟩

/-- Nothing is dropped from compact text. -/
theorem Lexeme.Compact.tidy_append {P : Text → Prop} {x w : Text} {inWord : Bool}
    (h : Compact P x inWord w) (rest : Text) : tidy (w ++ rest) = w ++ tidy rest := by
  induction h with
  | nil => rfl
  | @plain _ c w hc _ _ _ ih =>
    rw [List.cons_append, Source.tidy_cons (isWhiteSpace_of_isPlain hc), ih]
    rfl
  | @quoted _ quote v w hquote hv hclosed _ ih =>
    obtain ⟨v', rfl⟩ := eq_append_of_closed hclosed
    have hwhite : isWhiteSpace quote = false := eq_false_of_mem (by decide) hquote
    have hinline : ∀ c ∈ quote :: v', isLineEnd c = false := by
      refine List.forall_mem_cons.2 ⟨Source.isLineEnd_of_not_isWhiteSpace hwhite, fun c hc => ?_⟩
      exact hv c (List.mem_append_left _ hc)
    have hsplit (u : Text) : quote :: (v' ++ [quote] ++ w) ++ u =
        quote :: v' ++ quote :: (w ++ u) := by
      simp
    rw [hsplit, Source.tidy_append_cons hwhite, Source.tidy_of_inline hwhite hinline, ih]
    simp

theorem ends_tidy {x : Text} (h : Ends x) : Ends (tidy x) := by
  intro c hc
  by_cases hfeed : c = '\n'
  · subst hfeed
    decide
  · exact h c (Source.head?_tidy hc hfeed)

namespace Lexeme

theorem lengthBefore?_cons {a b c : Char} {cs : Text} (hc : ¬(c = a ∧ cs.head? = some b)) :
    Pattern.lengthBefore? a b (c :: cs) = (Pattern.lengthBefore? a b cs).map (· + 1) := by
  rw [Pattern.lengthBefore?, if_neg (by simpa using hc)]

theorem lengthBefore?_take {a b : Char} {cs : Text} {n : Nat}
    (h : Pattern.lengthBefore? a b cs = some n) :
    Pattern.lengthBefore? a b (cs.take (n + 2)) = some n := by
  induction cs generalizing n with
  | nil => cases h
  | cons c cs ih =>
    by_cases hc : c = a ∧ cs.head? = some b
    · obtain ⟨rfl, hhead⟩ := hc
      obtain ⟨ds, rfl⟩ : ∃ ds, cs = b :: ds := by
        cases cs with
        | nil => cases hhead
        | cons d ds => exact ⟨ds, by rw [Option.some.inj hhead]⟩
      rw [Pattern.lengthBefore?, if_pos (by simp)] at h
      obtain rfl := Option.some.inj h
      simp [Pattern.lengthBefore?]
    · rw [lengthBefore?_cons hc] at h
      obtain ⟨k, hk, rfl⟩ := Option.map_eq_some_iff.1 h
      have hc' : ¬(c = a ∧ (cs.take (k + 2)).head? = some b) := by
        rwa [List.head?_take, if_neg (by omega)]
      rw [List.take_succ_cons, lengthBefore?_cons hc', ih hk]
      rfl

theorem blockCommentLength_cons {c : Char} {cs : Text} (hc : ¬(c = '*' ∧ cs.head? = some '/')) :
    blockCommentLength (c :: cs) = blockCommentLength cs + 1 := by
  rw [blockCommentLength]
  rintro rest rfl rfl
  exact hc ⟨rfl, rfl⟩

theorem blockCommentLength_pos (c : Char) (cs : Text) : 0 < blockCommentLength (c :: cs) := by
  unfold blockCommentLength
  split <;> first | omega | contradiction

/-- A comment that is tidied is closed where it was. -/
theorem blockCommentLength_tidy {cs : Text} {n : Nat}
    (h : Pattern.lengthBefore? '*' '/' cs = some n) (hlen : cs.length = n + 2) (x : Text) :
    blockCommentLength (tidy cs ++ x) = (tidy cs).length := by
  have hskip {c : Char} {cs : Text} {n : Nat} (hc : c ≠ '*')
      (h : Pattern.lengthBefore? '*' '/' (c :: cs) = some n) (hlen : (c :: cs).length = n + 2) :
      ∃ k, Pattern.lengthBefore? '*' '/' cs = some k ∧ cs.length = k + 2 := by
    rw [lengthBefore?_cons fun heq => hc heq.1] at h
    obtain ⟨k, hk, rfl⟩ := Option.map_eq_some_iff.1 h
    exact ⟨k, hk, Nat.add_right_cancel hlen⟩
  have hne {c : Char} (h : isWhiteSpace c) : c ≠ '*' := by
    rintro rfl
    exact absurd h (by decide)
  have hfeed : '\n' ≠ '*' := by decide
  fun_induction tidy cs generalizing n with
  | case1 => cases h
  | case2 cs ih =>
    obtain ⟨k, hk, hklen⟩ := hskip (by decide) h hlen
    obtain ⟨k', hk', hklen'⟩ := hskip (by decide) hk hklen
    rw [List.cons_append, blockCommentLength_cons fun heq => hfeed heq.1, ih hk' hklen',
      List.length_cons]
  | case3 c cs hcr hend ih =>
    obtain ⟨k, hk, hklen⟩ := hskip (by rintro rfl; cases hend) h hlen
    rw [List.cons_append, blockCommentLength_cons fun heq => hfeed heq.1, ih hk hklen,
      List.length_cons]
  | case4 c cs hcr hend hwhite ih =>
    rw [Bool.and_eq_true] at hwhite
    obtain ⟨k, hk, hklen⟩ := hskip (hne hwhite.1) h hlen
    exact ih hk hklen
  | case5 c cs hcr hend hwhite ih =>
    by_cases hclose : c = '*' ∧ cs.head? = some '/'
    · obtain ⟨rfl, hhead⟩ := hclose
      have hzero : n = 0 := by
        rw [Pattern.lengthBefore?, if_pos (by rw [hhead]; rfl)] at h
        exact (Option.some.inj h).symm
      subst hzero
      cases cs with
      | nil => cases hhead
      | cons d cs =>
        obtain rfl : d = '/' := Option.some.inj hhead
        obtain rfl : cs = [] := List.eq_nil_of_length_eq_zero (by simpa using hlen)
        rfl
    · rw [lengthBefore?_cons hclose] at h
      obtain ⟨k, hk, rfl⟩ := Option.map_eq_some_iff.1 h
      have hrest := ih hk (Nat.add_right_cancel hlen)
      -- What is dropped between the two characters ends in a line feed.
      have hopen : ¬(c = '*' ∧ (tidy cs ++ x).head? = some '/') := by
        rintro ⟨rfl, hhead⟩
        cases htidy : tidy cs with
        | nil =>
          rw [htidy, List.nil_append] at hhead hrest
          cases x with
          | nil => cases hhead
          | cons d x => exact absurd hrest (Nat.ne_of_gt (blockCommentLength_pos d x))
        | cons d ds =>
          rw [htidy] at hhead
          refine hclose ⟨rfl, Source.head?_tidy ?_ (by decide)⟩
          rw [htidy]
          exact hhead
      rw [List.cons_append, blockCommentLength_cons hopen, hrest, List.length_cons]

end Lexeme

/-! ## Scanning part by part -/

open Lexeme (scanFrom scanFrom_cons)

variable {dialect : Dialect} {P : Text → Prop}

theorem Glued.glue_ne_nil {x : Text} {ts : List Unplaced} (h : Glued dialect x ts) (hne : ts ≠ []) :
    glue ts ≠ [] := by
  cases h with
  | nil => exact absurd rfl hne
  | cons halone => exact List.append_ne_nil_of_left_ne_nil halone.ne_nil _

theorem head?_compact {x w : Text} {inWord : Bool} (h : Lexeme.Compact P x inWord w)
    (hne : w ≠ []) :
    ∃ c v, w = c :: v ∧ isWhiteSpace c = false := by
  cases h with
  | nil => exact absurd rfl hne
  | plain hc => exact ⟨_, _, rfl, isWhiteSpace_of_isPlain hc⟩
  | quoted hquote =>
    exact ⟨_, _, rfl, eq_false_of_mem (by decide) hquote⟩

/-- A text of a layout ends its line at once, or goes on with a blank, or with a
    character that is no white space. -/
theorem Laid.head_cases {cs : Text} {ps : List Part} (h : Laid dialect P cs ps) :
    ((∀ c ∈ cs.head?, isLineEnd c) ∧ (ps = [] ∨ ∃ qs, ps = .lineBreak :: qs)) ∨
      ∃ c ds, cs = c :: ds ∧ (isBlank c ∨ isWhiteSpace c = false) := by
  cases h with
  | nil => exact Or.inl ⟨fun _ h => (by cases h), Or.inl rfl⟩
  | @solid ts rest ps hne hglued hcompact =>
    obtain ⟨c, v, hglue, hc⟩ := head?_compact hcompact (hglued.glue_ne_nil hne)
    exact Or.inr ⟨c, v ++ rest, by rw [hglue]; rfl, Or.inr hc⟩
  | @blanks cs rest ps hne hblank =>
    obtain ⟨c, ds, rfl⟩ := List.exists_cons_of_ne_nil hne
    exact Or.inr ⟨c, ds ++ rest, rfl, Or.inl (hblank c List.mem_cons_self)⟩
  | lineComment | blockComment => exact Or.inr ⟨_, _, rfl, Or.inr (by decide)⟩
  | lineBreak hbreak =>
    obtain ⟨c, ds, rfl, hend⟩ := isLineEnd_head_of_lineBreakLength hbreak
    refine Or.inl ⟨?_, Or.inr ⟨_, rfl⟩⟩
    rintro d ⟨⟩
    exact hend

theorem isSpace_of_not_isWhiteSpace {c : Char} (h : isWhiteSpace c = false) :
    Lexeme.isSpace c = false := by
  refine Bool.eq_false_iff.2 fun hspace => ?_
  simp only [Lexeme.isSpace, isBlank, Bool.or_eq_true, beq_iff_eq] at hspace
  rcases hspace with (((rfl | rfl) | rfl) | rfl) | rfl <;> exact absurd h (by decide)

theorem isWhiteSpace_of_isBlank {c : Char} (h : isBlank c) : isWhiteSpace c := by
  simp only [isBlank, Bool.or_eq_true, beq_iff_eq] at h
  rcases h with ((rfl | rfl) | rfl) | rfl <;> decide

theorem head?_tidy_of_ends {x : Text} (h : ∀ c ∈ x.head?, isLineEnd c) :
    ∀ c ∈ (tidy x).head?, c = '\n' := by
  fun_cases tidy x with
  | case1 => exact fun _ h => by cases h
  | case2 | case3 =>
    rintro c ⟨⟩
    rfl
  | case4 c _ _ hend | case5 c _ _ hend => exact absurd (h c rfl) hend

theorem tidy_of_lineBreak {cs : Text} (h : 0 < Pattern.lineBreakLength cs) :
    tidy cs = '\n' :: tidy (cs.drop (Pattern.lineBreakLength cs)) := by
  obtain ⟨c, ds, rfl, hend⟩ := isLineEnd_head_of_lineBreakLength h
  by_cases hfeed : ∃ es, c = '\r' ∧ ds = '\n' :: es
  · obtain ⟨es, rfl, rfl⟩ := hfeed
    rfl
  · have hcr : ∀ rest, c = '\r' → ds = '\n' :: rest → False :=
      fun rest hc hds => hfeed ⟨rest, hc, hds⟩
    have hlen : Pattern.lineBreakLength (c :: ds) = 1 := by
      rw [Pattern.lineBreakLength.eq_2 c ds hcr, if_pos hend]
    rw [hlen, Source.tidy_of_isLineEnd hend hcr]
    rfl

/-- A run of blanks before a character that is no white space is one lexeme. -/
theorem scanFrom_blanks {b : Char} {bs : Text} (hblank : ∀ c ∈ b :: bs, isBlank c) {x : Text}
    (hx : ∀ c ∈ x.head?, Lexeme.isSpace c = false) (line : Nat) :
    scanFrom line (b :: bs ++ x) = ⟨.space, b :: bs, line⟩ :: scanFrom line x := by
  have hspace : ∀ c ∈ b :: bs, Lexeme.isSpace c := fun c hc => by
    rw [Lexeme.isSpace, hblank c hc]
    rfl
  rw [List.forall_mem_cons] at hspace
  have htake : (bs ++ x).takeWhile Lexeme.isSpace = bs := by
    rw [Pattern.takeWhile_append hx, List.takeWhile_eq_self_iff]
    exact hspace.2
  have hcount : (b :: bs).count '\n' = 0 := by
    refine Lexeme.count_newline_eq_zero fun c hc => ?_
    have := Pattern.isInline_of_mem (p := isBlank) rfl rfl c (hblank c hc)
    simpa [Pattern.isInline] using this
  rw [List.cons_append, scanFrom_cons, Lexeme.extent_of_isSpace hspace.1, htake, List.take_left,
    List.drop_left, hcount, Nat.add_zero]

/-- A comment up to the end of its line is one lexeme. -/
theorem scanFrom_lineComment {cs : Text} (hinline : ∀ c ∈ cs, c ≠ '\n') {x : Text}
    (hx : ∀ c ∈ x.head?, c = '\n') (line : Nat) :
    scanFrom line ('/' :: '/' :: cs ++ x) = ⟨.comment, '/' :: '/' :: cs, line⟩ ::
      scanFrom line x := by
  have hends : ∀ c ∈ x.head?, (c != '\n') = false := fun c hc => by
    rw [hx c hc]
    rfl
  have htake : (cs ++ x).takeWhile (· != '\n') = cs := by
    rw [Pattern.takeWhile_append hends, List.takeWhile_eq_self_iff]
    exact fun c hc => by simpa using hinline c hc
  have hcount : ('/' :: '/' :: cs).count '\n' = 0 := by
    refine List.count_eq_zero.2 ?_
    simpa using fun hmem => hinline '\n' hmem rfl
  have hextent : Lexeme.extent '/' ('/' :: (cs ++ x)) = (.comment, cs.length + 1) := by
    rw [Lexeme.extent_slash]
    show (LexemeKind.comment, ((cs ++ x).takeWhile (· != '\n')).length + 1) = _
    rw [htake]
  rw [List.cons_append, List.cons_append, scanFrom_cons, hextent, List.take_succ_cons,
    List.drop_succ_cons, List.take_left, List.drop_left, hcount]
  rfl

/-- A comment that is closed is one lexeme. -/
theorem scanFrom_blockComment {cs x : Text} (h : Lexeme.blockCommentLength (cs ++ x) = cs.length)
    (line : Nat) :
    scanFrom line ('/' :: '*' :: (cs ++ x)) =
      ⟨.comment, '/' :: '*' :: cs, line⟩ :: scanFrom (line + cs.count '\n') x := by
  have hextent : Lexeme.extent '/' ('*' :: (cs ++ x)) = (.comment, cs.length + 1) := by
    rw [Lexeme.extent_slash]
    show (LexemeKind.comment, Lexeme.blockCommentLength (cs ++ x) + 1) = _
    rw [h]
  rw [scanFrom_cons, hextent, List.take_succ_cons, List.drop_succ_cons, List.take_left,
    List.drop_left]
  rfl

/-- The lexemes of a tidied text. -/
theorem Laid.scanned {cs : Text} {ps : List Part} (h : Laid dialect P cs ps) (line : Nat) :
    Scanned dialect P line ps (scanFrom line (tidy cs)) := by
  induction h generalizing line with
  | nil =>
    rw [tidy, scanFrom]
    exact .nil
  | @solid ts rest ps hne hglued hcompact hends hstart hrest ih =>
    obtain ⟨us, hscan, htext, hsolid⟩ := ((milder_tidy rest).compact hcompact).exists_scanFrom
      (ends_tidy hends) (fun h => by cases h) line
    rw [hcompact.tidy_append, hscan]
    refine .solid hne hglued ?_ htext hsolid hstart (ih line)
    rintro rfl
    exact hglued.glue_ne_nil hne htext.symm
  | @blanks cs rest ps hne hblank hhead hrest ih =>
    rcases hrest.head_cases with ⟨hends, hps⟩ | ⟨c, ds, rfl, hc⟩
    · have hnil : Text.trimEnd isWhiteSpace cs = [] := by
        refine Source.trimEnd_eq_nil_iff.2 (List.all_eq_true.2 fun c hc => ?_)
        exact isWhiteSpace_of_isBlank (hblank c hc)
      rw [Source.tidy_append_of_ends (fun c hc => isLineEnd_of_isBlank (hblank c hc)) hends, hnil]
      exact .dropped hps (ih line)
    · have hwhite : isWhiteSpace c = false := by
        rw [hhead c rfl] at hc
        exact hc.resolve_left Bool.false_ne_true
      obtain ⟨b, bs, rfl⟩ := List.exists_cons_of_ne_nil hne
      have hspace : ∀ d ∈ (c :: tidy ds).head?, Lexeme.isSpace d = false := by
        rintro d ⟨⟩
        exact isSpace_of_not_isWhiteSpace hwhite
      have htidy : tidy (b :: bs ++ c :: ds) = b :: bs ++ c :: tidy ds := by
        rw [Source.tidy_append_cons hwhite, Source.tidy_of_inline hwhite fun d hd =>
          isLineEnd_of_isBlank (hblank d hd), List.append_assoc]
        rfl
      have hscan := ih line
      rw [Source.tidy_cons hwhite] at hscan
      rw [htidy, scanFrom_blanks hblank hspace]
      exact .blank (Or.inl rfl) hscan
  | @lineComment cs rest ps hinline hhead hrest ih =>
    have hall : ∀ c ∈ '/' :: '/' :: cs, isLineEnd c = false :=
      List.forall_mem_cons.2 ⟨rfl, List.forall_mem_cons.2 ⟨rfl, hinline⟩⟩
    have htrim : Text.trimEnd isWhiteSpace ('/' :: '/' :: cs) =
        '/' :: '/' :: Text.trimEnd isWhiteSpace cs := by
      rw [Source.trimEnd_cons, Source.trimEnd_cons]
      rfl
    have hfeed : ∀ c ∈ Text.trimEnd isWhiteSpace cs, c ≠ '\n' := by
      rintro c hc rfl
      have hmem : '\n' ∈ cs := by
        rw [← Text.trimEnd_append_suffix isWhiteSpace cs]
        exact List.mem_append_left _ hc
      exact absurd (hinline '\n' hmem) (by decide)
    rw [Source.tidy_append_of_ends hall hhead, htrim,
      scanFrom_lineComment hfeed (head?_tidy_of_ends hhead)]
    exact .blank (Or.inr rfl) (ih line)
  | @blockComment cs n ps hclosed hrest ih =>
    have hsplit : cs = cs.take n ++ ['*'] ++ '/' :: cs.drop (n + 2) := by
      have := List.take_append_drop n cs
      rw [Pattern.drop_of_lengthBefore? hclosed] at this
      simpa using this.symm
    have htake : cs.take n ++ ['*'] ++ ['/'] = cs.take (n + 2) := by
      rw [List.take_add, Pattern.drop_of_lengthBefore? hclosed]
      simp
    have htidy : tidy cs = tidy (cs.take (n + 2)) ++ tidy (cs.drop (n + 2)) := by
      conv_lhs => rw [hsplit]
      rw [Source.tidy_append_cons (by decide), htake]
    have hlen : (cs.take (n + 2)).length = n + 2 := by
      rw [List.length_take, Nat.min_eq_left]
      have := Pattern.lengthBefore?_lt hclosed
      omega
    have hcomment := Lexeme.blockCommentLength_tidy (Lexeme.lengthBefore?_take hclosed) hlen
      (tidy (cs.drop (n + 2)))
    rw [Source.tidy_cons (by decide), Source.tidy_cons (by decide), htidy,
      scanFrom_blockComment hcomment, Source.count_tidy]
    exact .blank (Or.inr rfl) (ih _)
  | @lineBreak cs ps hbreak hrest ih =>
    have hextent : Lexeme.extent '\n' (tidy (cs.drop (Pattern.lineBreakLength cs))) =
        (.newline, 0) := rfl
    rw [tidy_of_lineBreak hbreak, scanFrom_cons, hextent]
    exact .lineBreak rfl (ih (line + 1))

/-- No lexeme of a layout is a number sign, and `P` holds of the words. -/
theorem Scanned.forall_mem {line : Nat} {ps : List Part} {us : List Lexeme}
    (h : Scanned dialect P line ps us) :
    ∀ u ∈ us, u.isPunct '#' = false ∧ (u.kind = .word → P u.text) := by
  have hblank {u : Lexeme} (hkind : u.kind ∈ [.newline, .space, .comment]) :
      u.isPunct '#' = false ∧ (u.kind = .word → P u.text) := by
    simp only [List.mem_cons, List.not_mem_nil, or_false] at hkind
    rcases hkind with hkind | hkind | hkind <;> rw [Lexeme.isPunct, hkind] <;>
      exact ⟨rfl, fun h => by cases h⟩
  induction h with
  | nil => exact fun _ h => by cases h
  | solid _ _ _ _ hus _ _ ih =>
    exact List.forall_mem_append.2 ⟨fun u hu => ⟨(hus u hu).not_hash, (hus u hu).word⟩, ih⟩
  | dropped _ _ ih => exact ih
  | blank hkind _ ih =>
    refine List.forall_mem_cons.2 ⟨hblank ?_, ih⟩
    rcases hkind with hkind | hkind <;> rw [hkind] <;> decide
  | lineBreak hkind _ ih =>
    exact List.forall_mem_cons.2 ⟨hblank (by rw [hkind]; decide), ih⟩

end IdlFrontend
