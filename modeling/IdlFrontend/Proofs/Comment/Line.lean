import IdlFrontend.Proofs.Comment.Unheeded

/-!
# The line of a comment

A line with a comment that nothing heeds is read like the line with a space in its place:
both are text, or they are directives that mean the same.

Results:

* `directive?_append_cases`: how a directive depends on the end of its line.
* `MacroTable.define_gap`: definitions with a comment in them.
* `Unheeded.linesAlike`: lines with a comment that nothing heeds.
-/

namespace IdlFrontend

open Lexeme

/-! ## Directives -/

/-- How a line goes on decides whether it is a directive only if it begins with space alone.
    In a directive, it goes on behind the name, unless that is still to come. -/
theorem directive?_append_cases {pre : List Lexeme} (h : ∃ t ∈ pre, t.kind ≠ .space) :
    (∀ us, directive? (pre ++ us) = none) ∨
    (∃ line, ∀ us, directive? (pre ++ us) = some ⟨line, stripBlank us⟩) ∨
    ∃ line name more, name.isBlank = false ∧
      ∀ us, directive? (pre ++ us) =
        some ⟨line, name :: (more ++ us).rdropWhile Lexeme.isBlank⟩ := by
  have hdrop (us : List Lexeme) : (pre ++ us).dropWhile (·.kind == .space) =
      pre.dropWhile (·.kind == .space) ++ us := by
    obtain ⟨t, ht, hkind⟩ := h
    rw [List.dropWhile_append, if_neg]
    rw [List.isEmpty_iff, List.dropWhile_eq_nil_iff]
    exact fun hall => hkind (beq_iff_eq.1 (hall t ht))
  cases hpre : pre.dropWhile (·.kind == .space) with
  | nil =>
    obtain ⟨t, ht, hkind⟩ := h
    exact absurd (beq_iff_eq.1 (List.dropWhile_eq_nil_iff.1 hpre t ht)) hkind
  | cons hash rest =>
    have hline (us : List Lexeme) : directive? (pre ++ us) =
        if hash.isPunct '#' then some ⟨hash.line, stripBlank (rest ++ us)⟩ else none := by
      rw [directive?, hdrop, hpre]
      rfl
    by_cases hhash : hash.isPunct '#'
    · refine Or.inr ?_
      -- The name is the first lexeme behind the number sign that is not blank.
      cases hrest : rest.dropWhile Lexeme.isBlank with
      | nil =>
        refine Or.inl ⟨hash.line, fun us => ?_⟩
        rw [hline, if_pos hhash, stripBlank_blank_append (List.dropWhile_eq_nil_iff.1 hrest)]
      | cons name more =>
        have hname : name.isBlank = false := by
          have := List.head?_dropWhile_not Lexeme.isBlank rest
          rw [hrest] at this
          simpa using this
        refine Or.inr ⟨hash.line, name, more, hname, fun us => ?_⟩
        rw [hline, if_pos hhash, stripBlank_eq, List.dropWhile_append, hrest, if_neg (by simp),
          List.cons_append, rdropWhile_isBlank_cons hname]
    · exact Or.inl fun us => by rw [hline, if_neg hhash]

theorem DirectiveLine.args_mk (line : Nat) (name : Lexeme) (ts : List Lexeme) :
    (⟨line, name :: ts.rdropWhile Lexeme.isBlank⟩ : DirectiveLine).args = stripBlank ts :=
  stripBlank_rdropWhile ts

/-! ## The gap around a comment -/

namespace CommentGap

variable (g : CommentGap)

theorem isGap_lexemes : ∀ t ∈ g.lexemes, t.isGap :=
  List.forall_mem_append.2 ⟨isGap_of_mem_space g.left_kind,
    List.forall_mem_cons.2 ⟨isGap_iff.2 (Or.inr g.kind), isGap_of_mem_space g.right_kind⟩⟩

theorem isGap_sides : ∀ t ∈ g.left ++ g.right, t.isGap :=
  List.forall_mem_append.2 ⟨isGap_of_mem_space g.left_kind, isGap_of_mem_space g.right_kind⟩

theorem isBlank_lexemes : ∀ t ∈ g.lexemes, t.isBlank :=
  fun t ht => isBlank_of_isGap (g.isGap_lexemes t ht)

theorem isBlank_space : ∀ t ∈ g.space, t.isBlank :=
  fun t ht => isBlank_of_isGap (isGap_of_mem_space g.space_kind t ht)

theorem inline_lexemes : ∀ t ∈ g.lexemes, t.kind ≠ .newline := fun t ht hkind => by
  have := g.isGap_lexemes t ht
  rw [isGap_of_newline hkind] at this
  cases this

theorem inline_space : ∀ t ∈ g.space, t.kind ≠ .newline := fun t ht hkind => by
  rw [g.space_kind t ht] at hkind
  cases hkind

theorem lexemes_ne_nil :
    g.lexemes ≠ [] := List.append_ne_nil_of_right_ne_nil _ (List.cons_ne_nil _ _)

/-- A gap with a comment is like one without it, and like none at the end of a line. -/
theorem condense_append {us : List Lexeme}
    (h : g.space = [] → ∃ n rest, us = n :: rest ∧ n.kind = .newline) :
    condense (g.lexemes ++ us) = condense (g.space ++ us) := by
  by_cases hspace : g.space = []
  · rw [hspace, List.nil_append, condense_gap_newline g.isGap_lexemes (h hspace)]
  · refine Lexeme.condense_append ?_ rfl
    rw [condense_of_isGap g.lexemes_ne_nil g.isGap_lexemes,
      condense_of_isGap hspace (isGap_of_mem_space g.space_kind)]

theorem alone_of_not_isPadded {pre post : List Lexeme}
    (h : isPadded (pre ++ g.left) (g.right ++ post) = false) : g.left = [] ∧ g.right = [] := by
  rw [isPadded, Bool.or_eq_false_iff] at h
  constructor
  · by_contra hne
    have hlast := g.left_kind _ (List.getLast_mem hne)
    rw [List.getLast?_append_of_ne_nil _ hne, List.getLast?_eq_some_getLast hne] at h
    simp [hlast] at h
  · cases hright : g.right with
    | nil => rfl
    | cons t ts =>
      have hkind := g.right_kind t (by rw [hright]; exact List.mem_cons_self)
      rw [hright] at h
      simp [hkind] at h

end CommentGap

/-! ## Definitions and includes -/

/-- Before the body of a macro, a comment counts as a space. So it does in the body if no
    other space is next to it. -/
theorem MacroTable.define_gap (table : MacroTable) (g : CommentGap) (hspace : g.space ≠ [])
    {args : List Lexeme} (h : bodyOf (stripBlank args) = [] ∨ g.left = [] ∧ g.right = [])
    (us : List Lexeme) (line : Nat) :
    table.define (args ++ (g.lexemes ++ us)) line =
      table.define (args ++ (g.space ++ us)) line := by
  rcases h with hbody | ⟨hleft, hright⟩
  · obtain ⟨blanks, hblanks, hstrip⟩ := exists_stripBlank_append args
    have hgap (gap : List Lexeme) (hgap : ∀ t ∈ gap, t.isBlank) (hne : gap ≠ []) :
        table.define (args ++ (gap ++ us)) line =
          table.define (stripBlank args ++ spaceAt 0 :: us) line := by
      rw [← define_stripBlank, hstrip, define_stripBlank, ← List.append_assoc blanks]
      exact table.define_append_gap (isBlank_of_mem_head?_stripBlank args) hbody
        (List.forall_mem_append.2 ⟨hblanks, hgap⟩)
        (List.append_ne_nil_of_right_ne_nil _ hne) us line
    rw [hgap _ g.isBlank_lexemes g.lexemes_ne_nil, hgap _ g.isBlank_space hspace]
  · have hone : g.space = [spaceAt g.comment.line] := (g.alone hleft hright).resolve_left hspace
    have hcomment : asSpace g.comment = spaceAt g.comment.line := if_pos g.kind
    have hsame : (args ++ (g.lexemes ++ us)).map asSpace =
        (args ++ (g.space ++ us)).map asSpace := by
      rw [CommentGap.lexemes, hleft, hright, hone]
      simp only [List.map_append, List.map_cons, List.map_nil, List.nil_append, hcomment]
      rfl
    rw [← define_map_asSpace, hsame, define_map_asSpace]

theorem includeTarget?_append {ts : List Lexeme} (h : (includeTarget? ts).isSome)
    (us : List Lexeme) :
    includeTarget? (ts ++ us) = includeTarget? ts := by
  cases ts with
  | nil => cases h
  | cons t ts =>
    rw [includeTarget?] at h
    rw [List.cons_append, includeTarget?, includeTarget?]
    split
    · rfl
    next hstring =>
      rw [if_neg hstring] at h
      have hquote : (t.isPunct '<' && ts.any (·.isPunct '>')) = true := by
        by_contra hnot
        rw [if_neg hnot] at h
        cases h
      have hany : ts.any (·.isPunct '>') := (Bool.and_eq_true_iff.1 hquote).2
      have hname : (ts ++ us).takeWhile (fun u => !u.isPunct '>') =
          ts.takeWhile fun u => !u.isPunct '>' := by
        rw [List.takeWhile_append, if_neg]
        intro hall
        obtain ⟨u, hu, hclose⟩ := List.any_eq_true.1 hany
        have hself := (List.takeWhile_prefix fun u : Lexeme => !u.isPunct '>').eq_of_length hall
        have := List.takeWhile_eq_self_iff.1 hself u hu
        rw [hclose] at this
        cases this
      rw [hname, List.any_append, hany, Bool.true_or, ← hany]

/-- What names a file in an include directive does so whatever follows it. -/
theorem includeTarget?_stripBlank_append {ts : List Lexeme}
    (h : (includeTarget? (stripBlank ts)).isSome) (us : List Lexeme) :
    includeTarget? (stripBlank (ts ++ us)) = includeTarget? (stripBlank ts) := by
  obtain ⟨blanks, -, hstrip⟩ := exists_stripBlank_append ts
  rw [hstrip]
  generalize blanks ++ us = vs
  by_cases hall : vs.rdropWhile Lexeme.isBlank = []
  · rw [stripBlank_append_blank (List.rdropWhile_eq_nil_iff.1 hall), stripBlank_stripBlank]
  · have hfirst := isBlank_of_mem_head?_stripBlank ts
    cases hts : stripBlank ts with
    | nil =>
      rw [hts] at h
      cases h
    | cons t rest =>
      rw [hts] at h hfirst
      rw [List.cons_append, stripBlank_cons_of_not_isBlank (hfirst t rfl),
        rdropWhile_isBlank_append hall, ← List.cons_append, includeTarget?_append h]

theorem CommentGap.stripBlank_append (g : CommentGap) {args : List Lexeme}
    (h : stripBlank args = []) (us : List Lexeme) :
    stripBlank (args ++ (g.lexemes ++ us)) = stripBlank (args ++ (g.space ++ us)) := by
  obtain ⟨blanks, hblanks, hstrip⟩ := exists_stripBlank_append args
  rw [hstrip, hstrip, h, List.nil_append, List.nil_append, stripBlank_blank_append hblanks,
    stripBlank_blank_append hblanks, stripBlank_blank_append g.isBlank_lexemes,
    stripBlank_blank_append g.isBlank_space]

/-! ## Lines -/

section Lines

variable {pre post nl tail : List Lexeme} {g : CommentGap}

/-- A directive that goes on behind the comment means the same with a space in its place. -/
theorem Unheeded.alike (h : Unheeded (pre ++ g.left) (g.right ++ post)) (hspace : g.space ≠ [])
    (hpost : ¬∀ t ∈ post, t.isBlank) {line : Nat} {name : Lexeme} {more : List Lexeme}
    (hline : ∀ us, directive? (pre ++ us) = some ⟨line,
      name :: (more ++ us).rdropWhile Lexeme.isBlank⟩)
    (us : List Lexeme) :
    DirectiveLine.Alike ⟨line, name :: (more ++ (g.lexemes ++ us)).rdropWhile Lexeme.isBlank⟩
      ⟨line, name :: (more ++ (g.space ++ us)).rdropWhile Lexeme.isBlank⟩ := by
  have hsame : condense (more ++ (g.lexemes ++ us)) = condense (more ++ (g.space ++ us)) :=
    condense_append rfl (g.condense_append fun hnil => absurd hnil hspace)
  have hnot : ¬∀ t ∈ g.right ++ post, t.isBlank :=
    fun hall => hpost fun t ht => hall t (List.mem_append_right _ ht)
  have hargs : (⟨line, name :: (more ++ g.left).rdropWhile Lexeme.isBlank⟩ : DirectiveLine).args =
      stripBlank more := by
    rw [DirectiveLine.args_mk, stripBlank_append_blank]
    exact fun t ht => isBlank_of_isGap (isGap_of_mem_space g.left_kind t ht)
  have hdefinition := h.definition _ (hline g.left)
  have htarget := h.target _ (hline g.left)
  have hcondition := h.condition _ (hline g.left)
  rw [hargs] at hdefinition htarget hcondition
  have hsameArgs : condense (stripBlank (more ++ (g.lexemes ++ us))) =
      condense (stripBlank (more ++ (g.space ++ us))) := by
    rw [← stripBlank_condense, hsame, stripBlank_condense]
  refine {
    line := rfl
    name := rfl
    args := ?args
    lineTarget := ?lineTarget
    definition := fun hname table => ?definition
    target := fun hname => ?target
    condition := fun hname => ?condition }
  case args =>
    rw [DirectiveLine.args_mk, DirectiveLine.args_mk]
    exact hsameArgs
  case lineTarget =>
    show condense (if name.kind == .number then _ else _) =
      condense (if name.kind == .number then _ else _)
    split
    · have hrest : condense ((more ++ (g.lexemes ++ us)).rdropWhile Lexeme.isBlank) =
          condense ((more ++ (g.space ++ us)).rdropWhile Lexeme.isBlank) := by
        rw [← rdropWhile_isBlank_condense, hsame, rdropWhile_isBlank_condense]
      exact condense_append (rfl : condense [name] = _) hrest
    · rw [DirectiveLine.args_mk, DirectiveLine.args_mk]
      exact hsameArgs
  case definition =>
    rw [DirectiveLine.args_mk, DirectiveLine.args_mk, MacroTable.define_stripBlank,
      MacroTable.define_stripBlank]
    refine table.define_gap g hspace ?_ us _
    rcases hdefinition hname with hbody | hpadded | hall
    · exact Or.inl hbody
    · exact Or.inr (g.alone_of_not_isPadded hpadded)
    · exact absurd hall hnot
  case target =>
    rw [DirectiveLine.args_mk, DirectiveLine.args_mk]
    rcases htarget hname with hnil | hsome | hall
    · rw [g.stripBlank_append hnil]
      exact ⟨rfl, fun _ => rfl⟩
    · rw [includeTarget?_stripBlank_append hsome, includeTarget?_stripBlank_append hsome]
      refine ⟨rfl, fun hnone => ?_⟩
      rw [hnone] at hsome
      cases hsome
    · exact absurd hall hnot
  case condition =>
    rw [DirectiveLine.args_mk, DirectiveLine.args_mk]
    exact g.stripBlank_append ((hcondition hname).resolve_right hnot) us

theorem lineBreak_append {ts : List Lexeme} (h : ∀ t ∈ ts, t.kind ≠ .newline) {n : Lexeme}
    (hn : n.kind = .newline) (hnl : nl = [n] ∨ nl = []) : Session.lineBreak (ts ++ nl) = nl := by
  rcases hnl with rfl | rfl
  · simp [Session.lineBreak, hn]
  · rw [List.append_nil, Session.lineBreak, List.filter_eq_nil_iff]
    intro t ht
    have hmem : t ∈ ts := List.mem_of_getLast? (by simpa using ht)
    simpa using h t hmem

/-- What is written of a pragma line is the same with a space in the place of the comment
    if another space is there, or if nothing but blanks follows. -/
theorem keptAlike_gap (hpre : ∀ t ∈ pre.getLast?, t.kind ≠ .space)
    (hfirst : ∀ t ∈ post.head?, t.kind ≠ .space) (hspace : g.space = [] → post = [])
    (hnl : ∀ t ∈ nl, t.kind = .newline) {next : List Lexeme}
    (hnext : ∃ u us, next = u :: us ∧ u.kind = .newline)
    (h : isPadded (pre ++ g.left) (g.right ++ post) ∨ ∀ t ∈ g.right ++ post, t.isBlank) :
    Session.KeptAlike next ((pre ++ (g.lexemes ++ (post ++ nl))).filter staysInPragma)
      ((pre ++ (g.space ++ (post ++ nl))).filter staysInPragma) := by
  have hstays {ts : List Lexeme} (h : ∀ t ∈ ts, t.kind = .space) : ts.filter staysInPragma = ts :=
    List.filter_eq_self.2 fun t ht => by simp [staysInPragma, h t ht]
  have hlexemes : g.lexemes.filter staysInPragma = g.left ++ g.right := by
    rw [CommentGap.lexemes, List.filter_append,
      List.filter_cons_of_neg (by simp [staysInPragma, g.kind]),
      hstays g.left_kind, hstays g.right_kind]
  have hbreak : nl.filter staysInPragma = [] :=
    List.filter_eq_nil_iff.2 fun t ht => by simp [staysInPragma, hnl t ht]
  simp only [List.filter_append, hlexemes, hstays g.space_kind, hbreak, List.append_nil]
  by_cases hall : ∀ t ∈ post, t.isBlank
  · have hpost : ∀ t ∈ post.filter staysInPragma, t.isGap := by
      intro t ht
      obtain ⟨hmem, hkind⟩ := List.mem_filter.1 ht
      rw [staysInPragma, Bool.and_eq_true, bne_iff_ne, bne_iff_ne] at hkind
      rw [isGap_iff]
      rcases kind_of_isBlank (hall t hmem) with hnewline | hspace | hcomment
      · exact absurd hnewline hkind.2
      · exact Or.inl hspace
      · exact absurd hcomment hkind.1
    exact .ending rfl rfl (List.forall_mem_append.2 ⟨g.isGap_sides, hpost⟩)
      (List.forall_mem_append.2 ⟨isGap_of_mem_space g.space_kind, hpost⟩) hnext
  · have hne : g.space ≠ [] := fun hnil => hall (by rw [hspace hnil]; exact List.forall_mem_nil _)
    have hpadded := h.resolve_right fun hblank =>
      hall fun t ht => hblank t (List.mem_append_right _ ht)
    have hsides : g.left ++ g.right ≠ [] := by
      intro hnil
      obtain ⟨hleft, hright⟩ := List.append_eq_nil_iff.1 hnil
      rw [hleft, hright, List.append_nil, List.nil_append, isPadded, Bool.or_eq_true] at hpadded
      rcases hpadded with hlast | hhead
      · obtain ⟨t, ht, hkind⟩ := (Option.any_eq_true _ _).1 hlast
        exact hpre t ht (beq_iff_eq.1 hkind)
      · obtain ⟨t, ht, hkind⟩ := (Option.any_eq_true _ _).1 hhead
        exact hfirst t ht (beq_iff_eq.1 hkind)
    refine .alike (condense_append rfl (condense_append ?_ rfl))
    rw [condense_of_isGap hsides g.isGap_sides,
      condense_of_isGap hne (isGap_of_mem_space g.space_kind)]

theorem directive?_append_newline {post : List Lexeme} (h : directive? post = none)
    (hnl : ∀ t ∈ nl, t.kind = .newline) : directive? (post ++ nl) = none := by
  by_cases hstart : ∃ t ∈ post, t.kind ≠ .space
  · have hself := List.append_nil post
    rcases directive?_append_cases hstart with hnone | ⟨line, hline⟩ | ⟨line, name, more, -, hline⟩
    · exact hnone nl
    · rw [← hself, hline] at h
      cases h
    · rw [← hself, hline] at h
      cases h
  · push Not at hstart
    have hdrop : (post ++ nl).dropWhile (·.kind == .space) = nl.dropWhile (·.kind == .space) := by
      rw [List.dropWhile_append, if_pos]
      rw [List.isEmpty_iff, List.dropWhile_eq_nil_iff]
      exact fun t ht => beq_iff_eq.2 (hstart t ht)
    rw [directive?, hdrop]
    split
    next n rest heq =>
      have hn := hnl n ((List.dropWhile_suffix _).subset (heq ▸ List.mem_cons_self))
      rw [if_neg (by simp [isPunct, hn])]
    · rfl

theorem CommentGap.directive?_lexemes (g : CommentGap) (us : List Lexeme) :
    directive? (g.lexemes ++ us) = none := by
  have hdrop : (g.lexemes ++ us).dropWhile (·.kind == .space) = g.comment :: (g.right ++ us) := by
    rw [lexemes, List.append_assoc,
      List.dropWhile_append_of_pos fun t ht => beq_iff_eq.2 (g.left_kind t ht),
      List.cons_append, List.dropWhile_cons_of_neg (by simp [g.kind])]
  rw [directive?, hdrop]
  exact if_neg (by simp [isPunct, g.kind])

theorem directive?_space_append {ts : List Lexeme} (h : ∀ t ∈ ts, t.kind = .space)
    (us : List Lexeme) :
    directive? (ts ++ us) = directive? us := by
  rw [directive?, directive?, List.dropWhile_append_of_pos fun t ht => beq_iff_eq.2 (h t ht)]

/-- A line with a comment that nothing heeds is like the line with a space in its place. -/
theorem Unheeded.linesAlike (h : Unheeded (pre ++ g.left) (g.right ++ post))
    (hpre : ∀ t ∈ pre.getLast?, t.kind ≠ .space) (hfirst : ∀ t ∈ post.head?, t.kind ≠ .space)
    (hinline : (∀ t ∈ pre, t.kind ≠ .newline) ∧ ∀ t ∈ post, t.kind ≠ .newline)
    (hspace : g.space = [] → post = []) {n : Lexeme} (hn : n.kind = .newline)
    (hend : nl = [n] ∧ tail = [] ∨ nl = [] ∧ tail = [n]) :
    Session.LinesAlike tail (pre ++ (g.lexemes ++ (post ++ nl)))
      (pre ++ (g.space ++ (post ++ nl))) := by
  have hnl : nl ++ tail = [n] := by
    rcases hend with ⟨rfl, rfl⟩ | ⟨rfl, rfl⟩ <;> rfl
  have hnewline : ∀ t ∈ nl, t.kind = .newline := by
    rcases hend with ⟨rfl, -⟩ | ⟨rfl, -⟩
    · exact List.forall_mem_singleton.2 hn
    · exact List.forall_mem_nil _
  have hblank : ∀ t ∈ nl, t.isBlank := fun t ht => isBlank_of_newline (hnewline t ht)
  have hbreak (gap : List Lexeme) (hgap : ∀ t ∈ gap, t.kind ≠ .newline) :
      Session.lineBreak (pre ++ (gap ++ (post ++ nl))) = nl := by
    rw [← List.append_assoc, ← List.append_assoc]
    refine lineBreak_append ?_ hn (hend.imp And.left And.left)
    exact List.forall_mem_append.2 ⟨List.forall_mem_append.2 ⟨hinline.1, hgap⟩, hinline.2⟩
  have hleft := hbreak g.lexemes g.inline_lexemes
  have hright := hbreak g.space g.inline_space
  have hsides : ∀ t ∈ g.left ++ g.right, t.isBlank :=
    fun t ht => isBlank_of_isGap (g.isGap_sides t ht)
  by_cases hstart : ∃ t ∈ pre, t.kind ≠ .space
  · have hkept (hpragma : isPadded (pre ++ g.left) (g.right ++ post) ∨ ∀ t ∈ g.right ++ post,
        t.isBlank) :
        Session.KeptAlike (Session.lineBreak (pre ++ (g.lexemes ++ (post ++ nl))) ++ tail)
          ((pre ++ (g.lexemes ++ (post ++ nl))).filter staysInPragma)
          ((pre ++ (g.space ++ (post ++ nl))).filter staysInPragma) := by
      rw [hleft, hnl]
      exact keptAlike_gap hpre hfirst hspace hnewline ⟨n, [], rfl, hn⟩ hpragma
    have hpragma := h.pragma
    rw [List.append_assoc] at hpragma
    rcases directive?_append_cases hstart with hnone | ⟨line, hline⟩ | ⟨line, name, more, -, hline⟩
    · refine .text (hnone _) (hnone _) ?_
      simp only [List.append_assoc, hnl]
      refine condense_append rfl (g.condense_append fun hnil => ⟨n, [], ?_, hn⟩)
      rw [hspace hnil, List.nil_append]
    · -- The name is still to come.
      have hcontent (gap : List Lexeme) (hgap : ∀ t ∈ gap, t.isBlank) :
          directive? (pre ++ (gap ++ (post ++ nl))) = some ⟨line, stripBlank post⟩ := by
        rw [hline, stripBlank_blank_append hgap, stripBlank_append_blank hblank]
      refine .directive (hcontent _ g.isBlank_lexemes) (hcontent _ g.isBlank_space) (.refl _)
        (hleft.trans hright.symm) fun hname => hkept (hpragma ⟨line, stripBlank post⟩ ?_ hname)
      rw [hline, ← List.append_assoc, stripBlank_blank_append hsides]
      rfl
    · by_cases hall : ∀ t ∈ post, t.isBlank
      · -- Nothing but blanks follows, and they are stripped.
        have hcontent (gap : List Lexeme) (hgap : ∀ t ∈ gap, t.isBlank) :
            directive? (pre ++ (gap ++ (post ++ nl))) =
              some ⟨line, name :: more.rdropWhile Lexeme.isBlank⟩ := by
          rw [hline, rdropWhile_isBlank_append_blank]
          exact List.forall_mem_append.2 ⟨hgap, List.forall_mem_append.2 ⟨hall, hblank⟩⟩
        exact .directive (hcontent _ g.isBlank_lexemes) (hcontent _ g.isBlank_space) (.refl _)
          (hleft.trans hright.symm) fun hname => hkept (hpragma _ (hline _) hname)
      · have hne : g.space ≠ [] :=
          fun hnil => hall (by rw [hspace hnil]; exact List.forall_mem_nil _)
        exact .directive (hline _) (hline _) (h.alike hne hall hline _) (hleft.trans hright.symm)
          fun hname => hkept (hpragma _ (hline _) hname)
  · -- The line begins with the comment.
    have hnil : pre = [] := by
      by_contra hne
      push Not at hstart
      exact hpre _ (List.getLast?_eq_some_getLast hne) (hstart _ (List.getLast_mem hne))
    subst hnil
    have hpost : directive? post = none := by
      rw [← directive?_space_append g.right_kind]
      exact h.start (by rw [List.nil_append]; exact g.left_kind)
    refine .text (g.directive?_lexemes _) ?_ ?_
    · rw [List.nil_append, directive?_space_append g.space_kind,
        directive?_append_newline hpost hnewline]
    · simp only [List.nil_append, List.append_assoc, hnl]
      refine g.condense_append fun hnil => ⟨n, [], ?_, hn⟩
      rw [hspace hnil, List.nil_append]

end Lines

end IdlFrontend
