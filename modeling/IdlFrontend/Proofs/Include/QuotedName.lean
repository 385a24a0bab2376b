import IdlFrontend.Proofs.Lexeme.Neighbours
import IdlFrontend.Proofs.Session.AtOnce
import IdlFrontend.Proofs.Session.Origin
import IdlFrontend.Proofs.Session.Relabel

/-!
# File names in quotes

The scanner pairs a backslash in a literal with the character behind it, and so knows whether a
quote closes the literal. A directive that takes a file name in quotes looks at the last
character of the literal only. Both agree on all literals but those that are open and end in a
quote with a backslash before it: the directive takes that quote for the closing one.

Results:

* `Lexeme.isNewline_behind_open`: an open literal is the last lexeme of its line.
* `unquote?_eq`: the literals in which a name is found.
* `Session.exec_include_quoted`, `Session.exec_line_quoted`: what the directives do with a literal.
* `Session.readLine_quotedName`: a literal is malformed exactly if it is open and does not end so.
-/

namespace IdlFrontend

namespace Lexeme

/-! ## Open and closed literals -/

/-- Whether the literal has a closing quote: the first quote behind the opening one that no
    backslash is paired with. -/
def isClosed (t : Lexeme) : Bool := closes '"' t.text.tail

/-- Whether the literal is open, and its last character is a quote that a backslash is paired
    with. -/
def endsEscaped (t : Lexeme) : Bool := !t.isClosed && ['\\', '"'].isSuffixOf t.text.tail

theorem eq_of_isWhole_string {text : Text} (h : IsWhole .string text) :
    ∃ cs, text = '"' :: cs ∧ quotedLength '"' cs = cs.length := by
  cases text with
  | nil => exact h.elim
  | cons c cs =>
    have hextent : extent c cs = (.string, cs.length) := h
    by_cases hquote : c = '"'
    · subst hquote
      exact ⟨cs, rfl, congrArg Prod.snd hextent⟩
    · unfold extent at hextent
      split at hextent <;> first | contradiction | cases hextent | skip
      split at hextent
      · cases hextent
      · split at hextent
        · cases hextent
        · split at hextent <;> cases hextent

/-- A literal ends with its closing quote. -/
theorem getLast?_of_closes {quote : Char} {cs : Text} (h : quotedLength quote cs = cs.length)
    (hclosed : closes quote cs) : cs.getLast? = some quote := by
  fun_induction quotedLength quote cs with
  | case1 => cases hclosed
  | case2 => cases h
  | case3 => simp at h
  | case4 c cs hc ih =>
    have hrest : closes quote cs := hclosed
    have hlast := ih (by simpa using h) hrest
    rw [List.getLast?_cons, List.getLast?_cons, hlast]
    rfl
  | case5 c cs _ _ _ hquote =>
    obtain rfl : cs = [] := List.eq_nil_of_length_eq_zero (by simpa using h.symm)
    exact congrArg some (beq_iff_eq.1 hquote)
  | case6 c cs _ _ hescape hquote ih =>
    have hrest : closes quote cs := by
      rw [closes] at hclosed
      · simpa [hquote] using hclosed
      · exact fun _ _ hc hcs => hescape _ _ hc hcs
    rw [List.getLast?_cons, ih (by simpa using h) hrest]
    rfl

/-- An open literal that ends in a quote has a backslash before it. -/
theorem suffix_of_open {quote : Char} {cs : Text} (hopen : closes quote cs = false)
    (hlast : cs.getLast? = some quote) : ['\\', quote] <:+ cs := by
  fun_induction closes quote cs with
  | case1 => cases hlast
  | case2 d cs ih =>
    cases cs with
    | nil =>
      obtain rfl : d = quote := Option.some.inj hlast
      exact List.suffix_refl _
    | cons e cs =>
      exact (ih hopen hlast).trans (List.suffix_append ['\\', d] _)
  | case3 c cs hescape ih =>
    rw [Bool.or_eq_false_iff, beq_eq_false_iff_ne] at hopen
    cases cs with
    | nil => exact absurd (Option.some.inj hlast) hopen.1
    | cons d cs => exact (ih hopen.2 hlast).trans (List.suffix_cons c _)

/-- A literal ends in a quote if it is closed, and otherwise if that quote is escaped. -/
theorem getLast?_literal_iff {t : Lexeme} (hkind : t.kind = .string) (h : IsWhole t.kind t.text) :
    t.text.tail.getLast? = some '"' ↔ t.isClosed ∨ t.endsEscaped := by
  obtain ⟨cs, htext, hlength⟩ := eq_of_isWhole_string (hkind ▸ h)
  rw [endsEscaped, isClosed, htext, List.tail_cons, Bool.and_eq_true, Bool.not_eq_true',
    List.isSuffixOf_iff_suffix]
  constructor
  · intro hlast
    cases hclosed : closes '"' cs with
    | true => exact .inl rfl
    | false => exact .inr ⟨rfl, suffix_of_open hclosed hlast⟩
  · rintro (hclosed | ⟨-, init, rfl⟩)
    · exact getLast?_of_closes hlength hclosed
    · simp

/-! ## The end of an open literal -/

/-- What is known of the lexeme behind a literal: if the literal is open, its line ends there. -/
def OpenToEnd (t u : Lexeme) : Prop := t.kind = .string → t.isClosed = false → u.kind = .newline

/-- The scanner reads an open literal to the end of its line. -/
theorem isChain_openToEnd (line : Nat) (cs : Text) : (scanFrom line cs).IsChain OpenToEnd := by
  fun_induction scanFrom line cs with
  | case1 => exact .nil
  | case2 line c cs kind n hextent text ih =>
    refine List.isChain_cons.2 ⟨fun u hu hkind hopen => ?_, ih⟩
    have hwhole : IsWhole kind (c :: cs.take n) := by
      have hmem : (⟨kind, text, line⟩ : Lexeme) ∈ scanFrom line (c :: cs) := by
        rw [scanFrom_cons, hextent]
        exact List.mem_cons_self
      exact isWhole_of_mem_scanFrom _ hmem
    obtain rfl : kind = .string := hkind
    obtain ⟨ds, hds, hlength⟩ := eq_of_isWhole_string hwhole
    obtain ⟨rfl, rfl⟩ := List.cons.inj hds
    have hn : quotedLength '"' cs = n := congrArg Prod.snd hextent
    have hle : n ≤ cs.length := hn ▸ (quotedLength_take '"' cs).1
    have hends := (quotedLength_append_iff (by decide) hlength (cs.drop n)).1
      (by rw [List.take_append_drop, hn, List.length_take_of_le hle])
    have hopen' : closes '"' (cs.take n) = false := hopen
    refine isNewline_of_mem_head?_scanFrom (fun d hd => ?_) u hu
    simpa [hopen'] using hends d hd

theorem isInfix_stripBlank (ts : List Lexeme) : stripBlank ts <:+: ts := by
  have hfront : ts.dropWhile isBlank <:+ ts := List.dropWhile_suffix _
  have hback : stripBlank ts <+: ts.dropWhile isBlank := by
    rw [← List.reverse_suffix, stripBlank, List.reverse_reverse]
    exact List.dropWhile_suffix _
  exact hback.isInfix.trans hfront.isInfix

/-- On a line of a text, nothing but its line feed stands behind an open literal. -/
theorem isNewline_behind_open {ts group more : List Lexeme} {t : Lexeme}
    (hts : ts.IsChain OpenToEnd) (hgroup : group ∈ lines ts) (hwithin : t :: more <:+: group)
    (hkind : t.kind = .string)
    (hopen : t.isClosed = false) : ∀ u ∈ more, u.kind = .newline := by
  have hline : group <:+: ts := by
    obtain ⟨before, after, hsplit⟩ := List.append_of_mem hgroup
    refine ⟨before.flatten, after.flatten, ?_⟩
    rw [← flatten_lines ts, hsplit, List.flatten_append, List.flatten_cons, List.append_assoc]
  have hchain := hts.infix (hwithin.trans hline)
  cases more with
  | nil => exact List.forall_mem_nil _
  | cons u more =>
    have hu : u.kind = .newline := (List.isChain_cons_cons.1 hchain).1 hkind hopen
    obtain ⟨before, after, rfl⟩ := hwithin
    -- a line feed stands at the end of its line
    have hlast : more ++ after = [] := by
      by_contra hne
      refine kind_of_mem_dropLast hgroup u ?_ hu
      have hsplit : before ++ t :: u :: more ++ after =
          (before ++ [t, u]) ++ (more ++ after) := by simp
      rw [hsplit, List.dropLast_append_of_ne_nil hne]
      simp
    obtain rfl := (List.append_eq_nil_iff.1 hlast).1
    exact List.forall_mem_singleton.2 hu

end Lexeme

open Lexeme

/-! ## The name in a literal -/

/-- A directive finds no name in a literal exactly if the literal does not end in a quote, be it a
    closing one or not. -/
theorem unquote?_eq {t : Lexeme} (hkind : t.kind = .string) (h : IsWhole t.kind t.text) :
    unquote? t.text = if t.isClosed ∨ t.endsEscaped then some t.text.tail.dropLast else none := by
  obtain ⟨cs, htext, -⟩ := eq_of_isWhole_string (hkind ▸ h)
  have hiff := getLast?_literal_iff hkind h
  rw [htext, List.tail_cons] at hiff ⊢
  by_cases hlast : cs.getLast? = some '"'
  · rw [if_pos (hiff.1 hlast), unquote?, if_pos (beq_iff_eq.2 hlast)]
  · rw [if_neg (mt hiff.2 hlast), unquote?, if_neg (by simpa using hlast)]

theorem isInfix_args {group : List Lexeme} {d : DirectiveLine} (h : directive? group = some d) :
    d.args <:+: group := by
  obtain ⟨blanks, sign, rest, rfl, -, -, rfl⟩ := exists_of_directive?_eq h
  have hrest : rest <:+: blanks ++ sign :: rest :=
    ((List.suffix_cons sign rest).trans (List.suffix_append blanks _)).isInfix
  exact (isInfix_stripBlank _).trans
    ((List.tail_suffix _).isInfix.trans ((isInfix_stripBlank rest).trans hrest))

namespace Session

variable {m : Type → Type} [Monad m] {enter : Text → Bool → Nat → PreprocessM m Unit} {f : OpenFile}
  {s : Session} {file : SourceFile} {group us ts : List Lexeme} {d : DirectiveLine} {t : Lexeme}

theorem isNewline_behind_args (hgroup : group ∈ sourceLines file.contents)
    (hd : directive? (renumber f.shift group) = some d) (hargs : d.args = t :: ts)
    (hkind : t.kind = .string) (hopen : t.isClosed = false) : ∀ u ∈ ts, u.kind = .newline := by
  have hrelabel := directive?_relabel (shiftLine · f.shift) group
  obtain ⟨d₀, hd₀, rfl⟩ := Option.map_eq_some_iff.1 (hrelabel.symm.trans hd)
  rw [DirectiveLine.args_relabel] at hargs
  obtain ⟨t₀, ts₀, hargs₀, rfl, rfl⟩ := List.map_eq_cons_iff.1 hargs
  refine List.forall_mem_map.2 ?_
  have hwithin := hargs₀ ▸ isInfix_args hd₀
  exact isNewline_behind_open (isChain_openToEnd 1 _) hgroup hwithin hkind hopen

theorem readLine_command {name : CommandName} (hkept : f.conditionals.kept)
    (hd : directive? (renumber f.shift group) = some d) (hname : d.name? = some (.command name)) :
    readLine enter f group = do
      let g ← obey enter f (renumber f.shift group) d name
      return { g with pending := g.pending ++ lineBreak (renumber f.shift group) } := by
  unfold readLine
  dsimp only
  rw [hd]
  dsimp only
  rw [hname]
  dsimp only
  rw [if_pos hkept]

variable [LawfulMonad m]

/-- Macros find no name either: there is nothing on the line that they could replace. -/
theorem exec_includeTarget_quoted (hgroup : group ∈ sourceLines file.contents)
    (hd : directive? (renumber f.shift group) = some d) (hargs : d.args = t :: ts)
    (hkind : t.kind = .string) (s : Session) :
    exec (includeTarget d.args d.line : PreprocessM m (Text × Bool)) s =
      pure (if t.isClosed ∨ t.endsEscaped then .ok (t.text.tail.dropLast, true)
        else .error ⟨.malformed (.command .include), d.line⟩, s) := by
  have hmem : t ∈ renumber f.shift group := mem_of_mem_args hd (hargs ▸ List.mem_cons_self)
  have htarget (more : List Lexeme) : includeTarget? (t :: more) =
      if t.isClosed ∨ t.endsEscaped then some (t.text.tail.dropLast, true) else none := by
    have hunquote := unquote?_eq hkind (proper_renumber hgroup f.shift t hmem).1
    rw [includeTarget?, if_pos hkind, hunquote]
    split <;> rfl
  unfold includeTarget
  rw [hargs, htarget]
  by_cases hnamed : t.isClosed ∨ t.endsEscaped
  · rw [if_pos hnamed, if_pos hnamed]
    exact exec_pure _ _
  · rw [if_neg hnamed, if_neg hnamed]
    have hopen : t.isClosed = false := Bool.eq_false_iff.2 fun hclosed => hnamed (.inl hclosed)
    have hnewline := isNewline_behind_args hgroup hd hargs hkind hopen
    have hself : s.macros.expand (t :: ts) = .ok (t :: ts) := by
      refine MacroTable.expand_eq_self (List.forall_mem_cons.2 ⟨fun hword => ?_,
        fun u hu hword => ?_⟩)
      · cases hkind.symm.trans hword
      · cases (hnewline u hu).symm.trans hword
    have hblank : t.isBlank = false := isBlank_eq_false_iff.2 (by simp [hkind])
    dsimp only
    rw [exec_bind_ok (exec_get _), hself, exec_bind_ok (exec_ofExcept _ _),
      stripBlank_cons_of_not_isBlank hblank, htarget, if_neg hnamed]
    exact exec_throw _ _

/-- An include directive asks for the file that it finds in a literal, and is malformed if it
    finds none. -/
theorem exec_include_quoted (enter : Text → Bool → Nat → PreprocessM m Unit)
    (hgroup : group ∈ sourceLines file.contents)
    (hd : directive? (renumber f.shift group) = some d) (hargs : d.args = t :: ts)
    (hkind : t.kind = .string) (hus : s.macros.expand f.pending = .ok us) :
    exec (obey enter f (renumber f.shift group) d .include) s =
      if t.isClosed ∨ t.endsEscaped then
        exec (do
          enter t.text.tail.dropLast true d.line
          defineFileName f.name
          return { f with pending := [] }) { s with output := s.output.push f.name us }
      else pure (.error ⟨.malformed (.command .include), d.line⟩,
        { s with output := s.output.push f.name us }) := by
  have htarget := exec_includeTarget_quoted (m := m) hgroup hd hargs hkind
  show exec (flush f >>= fun g => _) s = _
  rw [exec_bind_ok (exec_flush_ok hus)]
  split
  next hnamed =>
    rw [if_pos hnamed] at htarget
    rw [exec_bind_ok (htarget _)]
  next hnone =>
    rw [if_neg hnone] at htarget
    exact exec_bind_error (htarget _)

/-- A line directive gives the file the name that it finds in a literal, and is malformed if it
    finds none. -/
theorem exec_line_quoted (enter : Text → Bool → Nat → PreprocessM m Unit)
    {number : Lexeme} {n : Nat} (hgroup : group ∈ sourceLines file.contents)
    (hd : directive? (renumber f.shift group) = some d)
    (htarget : d.lineTarget.filter (!·.isBlank) = number :: t :: ts)
    (hnumber : number.kind = .number) (hn : number.text.lineNumber? = some n)
    (hkind : t.kind = .string)
    (hfits : n < signedLimit ∧ shiftLine d.line (-f.shift) + 1 < signedLimit)
    (hus : s.macros.expand f.pending = .ok us) :
    exec (obey enter f (renumber f.shift group) d .line) s =
      if t.isClosed ∨ t.endsEscaped then
        pure (.ok ⟨t.text.tail.dropLast, [], f.conditionals,
          (n : Int) - ↑(shiftLine d.line (-f.shift) + 1)⟩,
          { macros := s.macros.insert (fileMacro t.text.tail.dropLast)
            output := s.output.push f.name us })
      else pure (.error ⟨.malformed (.command .line), d.line⟩, s) := by
  have hmem : t ∈ renumber f.shift group := by
    have ht : t ∈ d.lineTarget :=
      (List.mem_filter.1 (htarget ▸ List.mem_cons_of_mem _ List.mem_cons_self : t ∈ _)).1
    unfold DirectiveLine.lineTarget at ht
    split at ht
    · exact mem_of_mem_content hd ht
    · exact mem_of_mem_args hd ht
  have hunquote := unquote?_eq hkind (proper_renumber hgroup f.shift t hmem).1
  have hchange : readLineChange d.lineTarget = (unquote? t.text).map fun name =>
    (n, some name) := by
    unfold readLineChange
    rw [htarget]
    simp only [hnumber, hn, hkind, ne_eq, not_true_eq_false, if_false, if_true]
  show exec (changeLine f d.lineTarget d.line) s = _
  unfold changeLine
  rw [hchange, hunquote]
  by_cases hnamed : t.isClosed ∨ t.endsEscaped
  · rw [if_pos hnamed, if_pos hnamed, Option.map_some]
    dsimp only
    rw [exec_bind_ok (exec_flush_ok hus), if_pos hfits, exec_bind_ok (exec_defineFileName _ _),
      exec_pure]
  · rw [if_neg hnamed, if_neg hnamed]
    exact exec_throw _ _

/-- **Unterminated file names are malformed.** In every text, a directive finds a name in a
    literal exactly if the literal is closed, or else ends in an escaped quote. So an enabled
    include directive with a literal, and an enabled line directive with a number that fits and
    a literal, is reported as malformed if the literal is open and does not end so. Otherwise
    the name is the text between the quotes at both ends of the literal: it is asked for, or the
    file gets it. -/
theorem readLine_quotedName (cs : Text) :
    (∀ t ∈ scan cs, t.kind = .string → ((unquote? t.text).isSome ↔ t.isClosed ∨ t.endsEscaped)) ∧
    ∀ (enter : Text → Bool → Nat → PreprocessM m Unit) (file : SourceFile)
      (f : OpenFile) (s : Session),
      ∀ group ∈ sourceLines file.contents, ∀ d ∈ directive? (renumber f.shift group),
        f.conditionals.kept →
      ∀ us, s.macros.expand f.pending = .ok us → ∀ t, t.kind = .string →
      (∀ ts, d.name? = some (.command .include) → d.args = t :: ts →
        exec (readLine enter f group) s =
          if t.isClosed ∨ t.endsEscaped then
            exec (do
              enter t.text.tail.dropLast true d.line
              defineFileName f.name
              return { f with pending := lineBreak (renumber f.shift group) })
              { s with output := s.output.push f.name us }
          else pure (.error ⟨.malformed (.command .include), d.line⟩,
            { s with output := s.output.push f.name us })) ∧
      ∀ number n ts, d.name? = some (.command .line) →
        d.lineTarget.filter (!·.isBlank) = number :: t :: ts → number.kind = .number →
        number.text.lineNumber? = some n →
        n < signedLimit ∧ shiftLine d.line (-f.shift) + 1 < signedLimit →
        exec (readLine enter f group) s =
          if t.isClosed ∨ t.endsEscaped then
            pure (.ok ⟨t.text.tail.dropLast, lineBreak (renumber f.shift group), f.conditionals,
                (n : Int) - ↑(shiftLine d.line (-f.shift) + 1)⟩,
              { macros := s.macros.insert (fileMacro t.text.tail.dropLast)
                output := s.output.push f.name us })
          else pure (.error ⟨.malformed (.command .line), d.line⟩, s) := by
  refine ⟨fun t ht hkind => ?_, fun enter file f s group hgroup d hd hkept us hus t hkind => ⟨?_,
    ?_⟩⟩
  · rw [unquote?_eq hkind (isWhole_of_mem_scan t ht)]
    split <;> simp [*]
  · intro ts hname hargs
    have hobey := exec_include_quoted enter hgroup hd hargs hkind hus
    rw [readLine_command hkept hd hname]
    split
    next hnamed =>
      rw [if_pos hnamed] at hobey
      rw [exec_bind, hobey, ← exec_bind]
      simp only [bind_assoc, pure_bind, List.nil_append]
    next hnone =>
      rw [if_neg hnone] at hobey
      exact exec_bind_error hobey
  · intro number n ts hname htarget hnumber hn hfits
    have hobey := exec_line_quoted enter hgroup hd htarget hnumber hn hkind hfits hus
    rw [readLine_command hkept hd hname]
    split
    next hnamed =>
      rw [if_pos hnamed] at hobey
      rw [exec_bind_ok hobey, exec_pure]
      rfl
    next hnone =>
      rw [if_neg hnone] at hobey
      exact exec_bind_error hobey

/-- A backslash and a quote between one quote and the end of the line, and a quote that nothing
    closes. -/
theorem readLine_quotedName_backslash :
    let file : SourceFile := ⟨['t'], "#include \"\\\"\n#line 7 \"a\n".toList⟩
    let asking :
    List Lexeme := [⟨.punctuation, ['#'], 1⟩, ⟨.word, "include".toList, 1⟩, ⟨.space, [' '], 1⟩,
      ⟨.string, ['"', '\\', '"'], 1⟩, ⟨.newline, ['\n'], 1⟩]
    let naming :
    List Lexeme := [⟨.punctuation, ['#'], 2⟩, ⟨.word, "line".toList, 2⟩, ⟨.space, [' '], 2⟩,
      ⟨.number, ['7'], 2⟩, ⟨.space, [' '], 2⟩, ⟨.string, ['"', 'a'], 2⟩, ⟨.newline, ['\n'], 2⟩]
    let enter : Text → Bool → Nat → PreprocessM Id Unit :=
      fun name _ line => throw ⟨.notFound name, line⟩
    sourceLines file.contents = [asking, naming] ∧
      exec (readLine enter ⟨['t'], [], [], 0⟩ asking) {} = pure (.error ⟨.notFound ['\\'], 1⟩, {}) ∧
      exec (readLine enter ⟨['t'], [], [], 0⟩ naming) {} =
        pure (.error ⟨.malformed (.command .line), 2⟩, {}) := by
  intro file asking naming enter
  have hlines : sourceLines file.contents = [asking, naming] := by decide +kernel
  have hrun := (readLine_quotedName (m := Id) file.contents).2 enter file ⟨['t'], [], [], 0⟩ {}
  refine ⟨hlines, ?_, ?_⟩
  · have hasking := (hrun asking (by rw [hlines]; simp) ⟨1, asking.tail.dropLast⟩ (by decide) rfl []
      (expand_nil _) ⟨.string, ['"', '\\', '"'], 1⟩ rfl).1 [] (by decide) (by decide)
    rw [hasking, if_pos (by decide), exec_bind_error (exec_throw _ _), MarkedText.push_nil]
    rfl
  · have hnaming := (hrun naming (by rw [hlines]; simp) ⟨2, naming.tail.dropLast⟩ (by decide) rfl []
      (expand_nil _) ⟨.string, ['"', 'a'], 2⟩ rfl).2 ⟨.number, ['7'], 2⟩ 7 [] (by decide)
      (by decide) rfl (by decide) (by decide)
    rw [hnaming, if_neg (by decide)]

end Session

end IdlFrontend
