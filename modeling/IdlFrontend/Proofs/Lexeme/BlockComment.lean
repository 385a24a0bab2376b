import IdlFrontend.Proofs.Comment.Place
import IdlFrontend.Proofs.Lexeme.Lossless
import IdlFrontend.Proofs.Source.Trigraph

/-!
# Block comments

A block comment is closed by the first end mark behind its opening. One that is closed is a
lexeme of its own whatever stands behind it, and it is still one when its trigraphs are
replaced, since no trigraph stands for an asterisk or a slash.

Results:

* `isBlockComment_of_scanFrom`: a comment with something behind it on its line is closed.
* `scan_append_lineFeed`: a line feed behind a text without open comments is a lexeme.
* `scanFrom_replaceTrigraphs`: trigraphs in comments can be replaced in the lexemes.
-/

namespace IdlFrontend.Lexeme

open Source

variable {line : Nat} {c : Char} {cs : Text} {t : Lexeme}

/-! ## Comments -/

/-- A block comment is closed by the first end mark. -/
theorem blockCommentLength_closed_iff (body rest : Text) :
    blockCommentLength (body ++ '*' :: '/' :: rest) = body.length + 2 ↔
      ¬['*', '/'] <:+: body ++ ['*'] := by
  induction body with
  | nil =>
    rw [List.nil_append, blockCommentLength]
    exact iff_of_true rfl (by decide)
  | cons c body ih =>
    by_cases hclose : c = '*' ∧ (body ++ ['*']).head? = some '/'
    · obtain ⟨rfl, hhead⟩ := hclose
      cases body with
      | nil => cases hhead
      | cons d body =>
        cases hhead
        rw [List.cons_append, List.cons_append, blockCommentLength]
        refine iff_of_false ?_ (not_not.2 ⟨[], body ++ ['*'], rfl⟩)
        simp only [List.length_cons]
        omega
    · have hstep : blockCommentLength (c :: (body ++ '*' :: '/' :: rest)) =
          blockCommentLength (body ++ '*' :: '/' :: rest) + 1 := by
        rw [blockCommentLength]
        intro more hc heq
        refine hclose ⟨hc, ?_⟩
        cases body with
        | nil => cases heq
        | cons d body =>
          rw [(List.cons.inj heq).1]
          rfl
      have hinfix : ['*', '/'] <:+: c :: (body ++ ['*']) ↔ ['*', '/'] <:+: body ++ ['*'] := by
        rw [List.infix_cons_iff]
        refine or_iff_right fun hprefix => hclose ?_
        obtain ⟨rfl, more, hmore⟩ := List.cons_prefix_cons.1 hprefix
        exact ⟨rfl, by rw [← hmore]; rfl⟩
      rw [List.cons_append, List.cons_append, hstep, hinfix, ← ih, List.length_cons]
      omega

/-- A block comment extends to its end mark, or to the end of the text. -/
theorem blockCommentLength_cases (cs : Text) : blockCommentLength cs = cs.length ∨
    ∃ body rest, cs = body ++ '*' :: '/' :: rest ∧ blockCommentLength cs = body.length + 2 := by
  fun_induction blockCommentLength cs with
  | case1 rest => exact .inr ⟨[], rest, rfl, rfl⟩
  | case2 c cs _ ih =>
    rcases ih with hall | ⟨body, rest, rfl, hlength⟩
    · exact .inl (congrArg (· + 1) hall)
    · exact .inr ⟨c :: body, rest, rfl, congrArg (· + 1) hlength⟩
  | case3 => exact .inl rfl

theorem isWhole_blockComment_iff (body : Text) :
    IsWhole .comment ('/' :: '*' :: (body ++ ['*', '/'])) ↔ ¬['*', '/'] <:+: body ++ ['*'] := by
  rw [← blockCommentLength_closed_iff body [], IsWhole, extent_slash, Prod.mk.injEq]
  simp

theorem extent_blockComment {body : Text} (h : ¬['*', '/'] <:+: body ++ ['*']) (rest : Text) :
    extent '/' ('*' :: (body ++ ['*', '/']) ++ rest) =
      (.comment, ('*' :: (body ++ ['*', '/'])).length) := by
  have hclosed := (blockCommentLength_closed_iff body rest).2 h
  rw [List.cons_append, extent_slash, List.append_assoc]
  show (LexemeKind.comment, blockCommentLength (body ++ '*' :: '/' :: rest) + 1) = _
  rw [hclosed]
  simp

/-- A comment with something behind it on its line is a closed block comment. -/
theorem isBlockComment_of_scanFrom {ts us : List Lexeme} (h : scanFrom line cs = ts ++ t :: us)
    (hus : us ≠ []) (hinline : ∀ d ∈ cs, isLineEnd d = false) (hkind : t.kind = .comment) :
    IsBlockComment t.text := by
  have htext : ts.flatMap Lexeme.text ++ (t.text ++ us.flatMap Lexeme.text) = cs := by
    have hflatten := text_flatten_scanFrom line cs
    rw [h] at hflatten
    simpa [List.flatMap] using hflatten
  have hrest : us.flatMap Lexeme.text ≠ [] := by
    obtain ⟨u, us, rfl⟩ := List.exists_cons_of_ne_nil hus
    have hu : u.text ≠ [] := (isWhole_of_mem_scanFrom u (by rw [h]; simp)).ne_nil
    exact List.append_ne_nil_of_left_ne_nil hu _
  generalize us.flatMap Lexeme.text = rest at htext hrest
  have hmem : ∀ d ∈ t.text ++ rest, isLineEnd d = false := fun d hd =>
    hinline d (htext ▸ List.mem_append_right _ hd)
  rw [← htext] at h
  obtain ⟨c, cs, hcs, hextent, -, -⟩ := scanFrom_eq_cons (scanFrom_eq_append h).symm
  rw [hkind] at hextent
  refine ⟨?_, fun d hd => hmem d (List.mem_append_left _ hd)⟩
  obtain ⟨rfl, ⟨ds, rfl, hlength⟩ | ⟨ds, rfl, hlength⟩⟩ := extent_comment hextent
  · have hshort : ds.length < (ds ++ rest).length := by
      rw [List.length_append]
      exact Nat.lt_add_of_pos_right (List.length_pos_iff.2 hrest)
    rcases blockCommentLength_cases (ds ++ rest) with hall | ⟨body, more, hbody, hclosed⟩
    · omega
    · rw [hlength] at hclosed
      have hsplit : ds ++ rest = (body ++ ['*', '/']) ++ more := by
        rw [hbody, List.append_assoc]
        rfl
      obtain ⟨rfl, -⟩ := List.append_inj hsplit (by simpa using hclosed)
      exact ⟨body, hcs⟩
  · -- A line comment would extend over what stands behind it.
    have hall : (ds ++ rest).takeWhile (· != '\n') = ds ++ rest := by
      refine List.takeWhile_eq_self_iff.2 fun d hd => ?_
      have hd' := hmem d (by rw [hcs]; exact List.mem_cons_of_mem _ (List.mem_cons_of_mem _ hd))
      refine bne_iff_ne.2 ?_
      rintro rfl
      cases hd'
    rw [hall, List.length_append] at hlength
    exact absurd (List.length_eq_zero_iff.1 (by omega)) hrest

/-! ## A line feed behind a text -/

theorem runsInto_lineFeed (kind : LexemeKind) (text : Text) : runsInto kind text '\n' = false := by
  have hword : isWordPart '\n' = false := by decide
  have hdigit : '\n'.isDigit = false := by decide
  cases kind with
  | word => exact hword
  | number =>
    rw [runsInto]
    cases text.getLast? with
    | none => rfl
    | some last => simp [continuesNumber, hword]
  | string | character => simp [runsInto]
  | punctuation => simp [runsInto, hdigit]
  | space | newline | comment => rfl

/-- A line feed ends any lexeme but a comment that is open. -/
theorem extent_append_lineFeed {kind : LexemeKind} (h : extent c cs = (kind, cs.length))
    (hclosed : kind = .comment → ['/', '*'] <+: c :: cs → ['*', '/'] <:+ (c :: cs).drop 2) :
    extent c (cs ++ ['\n']) = (kind, cs.length) := by
  by_cases hspace : kind = .space
  · subst hspace
    exact (extent_space_append_iff h _).2 (by rintro d ⟨⟩; decide)
  by_cases hnewline : kind = .newline
  · subst hnewline
    rw [← List.append_nil cs] at h
    refine extent_newline_append (h.trans ?_) _
    rw [List.append_nil]
  by_cases hcomment : kind = .comment
  · subst hcomment
    have h' := h
    rw [← List.append_nil cs] at h'
    obtain ⟨rfl, ⟨ds, rfl, -⟩ | ⟨ds, rfl, hlength⟩⟩ :=
      extent_comment (h'.trans (by rw [List.append_nil]))
    · obtain ⟨body, rfl⟩ := hclosed rfl ⟨ds, rfl⟩
      exact extent_blockComment ((isWhole_blockComment_iff body).1 h) _
    · rw [List.append_nil] at hlength
      rw [List.cons_append, extent_slash]
      refine congrArg (fun n => (LexemeKind.comment, n + 1)) ?_
      exact (takeWhile_append_length_iff hlength _).2 (by rintro d ⟨⟩; rfl)
  · refine (extent_append_iff h ⟨hspace, hnewline, hcomment⟩ _).2 ?_
    rintro d ⟨⟩
    exact runsInto_lineFeed _ _

theorem scan_append_lineFeed (hinline : '\n' ∉ cs)
    (hclosed : ∀ t ∈ (scan cs).getLast?, t.kind = .comment → ['/', '*'] <+: t.text →
      ['*', '/'] <:+ t.text.drop 2) :
    scan (cs ++ ['\n']) = scan cs ++ [⟨.newline, ['\n'], 1⟩] := by
  have hlast : ∀ t ∈ (scanFrom 1 cs).getLast?, ∀ c more, t.text = c :: more →
      extent c (more ++ ['\n']) = (t.kind, more.length) := by
    intro t ht c more htext
    have hwhole := isWhole_of_mem_scanFrom t (List.mem_of_getLast? ht)
    have hopen := hclosed t ht
    rw [htext] at hwhole hopen
    exact extent_append_lineFeed hwhole hopen
  have hfeed : scanFrom 1 ['\n'] = [⟨.newline, ['\n'], 1⟩] := by
    rw [scanFrom_cons]
    show _ :: scanFrom _ [] = _
    rw [scanFrom]
    rfl
  rw [scan, scanFrom_append_of_last hlast, List.count_eq_zero.2 hinline, Nat.add_zero, hfeed, scan]

/-- Lexemes of a text without line feeds stand on its line. -/
theorem line_eq_of_mem_scanFrom (h : '\n' ∉ cs) : ∀ t ∈ scanFrom line cs, t.line = line := by
  fun_induction scanFrom line cs with
  | case1 => exact List.forall_mem_nil _
  | case2 line c cs kind n _ text ih =>
    have hsplit : text ++ cs.drop n = c :: cs := by rw [List.cons_append, List.take_append_drop]
    rw [← hsplit, List.mem_append, not_or] at h
    rw [List.count_eq_zero.2 h.1] at ih ⊢
    exact List.forall_mem_cons.2 ⟨rfl, ih h.2⟩

theorem kind_ne_newline_of_mem_scanFrom (h : '\n' ∉ cs) :
    ∀ t ∈ scanFrom line cs, t.kind ≠ .newline := by
  intro t ht hkind
  have hwhole := isWhole_of_mem_scanFrom t ht
  rw [hkind] at hwhole
  refine h ?_
  rw [← text_flatten_scanFrom line cs, List.mem_flatten]
  exact ⟨t.text, List.mem_map_of_mem ht, by simp [eq_of_isWhole_newline hwhole]⟩

/-! ## Trigraphs -/

/-- A trigraph stands for no asterisk and for no slash, so a comment is closed where it has
    been closed before. -/
theorem extent_replaceTrigraphs (hc : IsBlockComment cs) (hwhole : IsWhole .comment cs)
    (rest : Text) :
    ∃ ds, replaceTrigraphs cs = '/' :: ds ∧ extent '/' (ds ++ rest) = (.comment, ds.length) := by
  obtain ⟨body, rfl⟩ := hc.marks
  have hstar (x : Text) : replaceTrigraphs (body ++ '*' :: x) =
      replaceTrigraphs body ++ '*' :: replaceTrigraphs x :=
    replaceTrigraphs_append_cons (by decide) (.inl rfl) x
  have hfront : '?' ∉ ['/', '*'] := by decide
  have hslash : replaceTrigraphs ['/'] = ['/'] := replaceTrigraphs_of_not_mem (by decide)
  refine ⟨'*' :: (replaceTrigraphs body ++ ['*', '/']), ?_, ?_⟩
  · have hout := replaceTrigraphs_append_of_not_mem hfront (body ++ ['*', '/'])
    rw [hstar, hslash] at hout
    exact hout
  · refine extent_blockComment (fun hfound => ?_) rest
    refine (isWhole_blockComment_iff body).1 hwhole (isInfix_of_replaceTrigraphs ?_ ?_)
    · have hmarks : ∀ d r, trigraph? d = some r → r ∉ ['*', '/'] := by
        intro d r hr
        unfold trigraph? at hr
        split at hr <;> cases hr <;> decide
      exact fun c hc d hd => hmarks d c hd hc
    · rwa [hstar, replaceTrigraphs]

theorem ne_question_of_lexeme {d : Char} {ds : Text} (htext : t.text = d :: ds)
    (h : '?' ∉ t.text ∨ IsBlockComment t.text) : d ≠ '?' := by
  rintro rfl
  rcases h with hnot | hcomment
  · exact hnot (htext ▸ List.mem_cons_self)
  · obtain ⟨body, hbody⟩ := hcomment.marks
    rw [htext] at hbody
    cases hbody

/-- If all question marks stand in block comments, then trigraphs can be replaced in the
    lexemes as well as in the text. -/
theorem scanFrom_replaceTrigraphs
    (h : ∀ t ∈ scanFrom line cs, '?' ∉ t.text ∨ IsBlockComment t.text) :
    scanFrom line (replaceTrigraphs cs) =
      (scanFrom line cs).map fun t => { t with text := replaceTrigraphs t.text } := by
  fun_induction scanFrom line cs with
  | case1 =>
    rw [replaceTrigraphs, scanFrom]
    rfl
  | case2 line c cs kind n hextent text ih =>
    have hle : n ≤ cs.length := by
      have hle := (extent_take c cs).1
      rwa [hextent] at hle
    have hcut : c :: cs = text ++ cs.drop n := by rw [List.cons_append, List.take_append_drop]
    have hbefore : extent c (cs.take n ++ cs.drop n) = (kind, (cs.take n).length) := by
      rw [List.take_append_drop, hextent, List.length_take_of_le hle]
    rw [List.forall_mem_cons] at h
    have hhead : (cs.drop n).head? = (replaceTrigraphs (cs.drop n)).head? := by
      cases hdrop : cs.drop n with
      | nil => rw [replaceTrigraphs]
      | cons d ds =>
        rw [hdrop, scanFrom_cons, List.forall_mem_cons] at h
        have hd : d ≠ '?' := ne_question_of_lexeme rfl h.2.1
        rw [← List.singleton_append, replaceTrigraphs_append_of_not_mem (by simpa using hd.symm)]
        rfl
    rw [List.map_cons, ← ih h.2, hcut]
    rcases h.1 with hnot | hcomment
    · have hkeep : extent c (cs.take n ++ replaceTrigraphs (cs.drop n)) =
          (kind, (cs.take n).length) :=
        extent_append_of_head hbefore hhead
      rw [replaceTrigraphs_append_of_not_mem hnot, replaceTrigraphs_of_not_mem hnot]
      exact scanFrom_append_cons hkeep
    · have hwhole : IsWhole kind text := extent_of_append hbefore
      obtain rfl : kind = .comment := by
        obtain ⟨body, hbody⟩ := hcomment.marks
        rw [show text = _ from hbody] at hwhole
        have hslash : extent '/' ('*' :: (body ++ ['*', '/'])) =
          (kind, ('*' :: (body ++ ['*', '/'])).length) := hwhole
        rw [extent_slash] at hslash
        exact (Prod.mk.inj hslash).1.symm
      have hout : replaceTrigraphs (text ++ cs.drop n) =
          replaceTrigraphs text ++ replaceTrigraphs (cs.drop n) :=
        replaceTrigraphs_append_comment (p := []) hcomment (by decide) (cs.drop n)
      obtain ⟨ds, hds, hextent⟩ :=
        extent_replaceTrigraphs hcomment hwhole (replaceTrigraphs (cs.drop n))
      have hcount : text.count '\n' = 0 := List.count_eq_zero.2 fun hmem => by
        cases hcomment.inline _ hmem
      have hcount' : ('/' :: ds).count '\n' = 0 := List.count_eq_zero.2 fun hmem => by
        cases isLineEnd_of_mem_replaceTrigraphs hcomment.inline _ (hds ▸ hmem)
      rw [hout, hds, scanFrom_append_cons hextent, hcount, hcount']

end IdlFrontend.Lexeme
