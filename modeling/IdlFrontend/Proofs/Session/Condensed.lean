import IdlFrontend.Proofs.Macro.Condensed
import IdlFrontend.Proofs.MarkedText.Condensed
import IdlFrontend.Proofs.Session.Origin
import IdlFrontend.Proofs.Session.Parallel

/-!
# Sessions and the space between lexemes

Two sessions read files that are the same up to the space and the comments between
lexemes. They define the same macros and write the same pieces; only the text that is
pending, and the blank that may be written behind it, are known up to space.

Results:

* `parallel_flush`: text that is alike is written alike.
* `parallel_obey`, `parallel_readLine`, `parallel_readLines`: lines that are alike are read alike.
* `parallel_readFile`: sessions that agree still do when both have read a file.
-/

namespace IdlFrontend

open Lexeme

/-! ## Directives -/

/-- The directives mean the same, though the space between their lexemes may differ. What a
    definition, an include or a condition reads of it must not. -/
structure DirectiveLine.Alike (d d' : DirectiveLine) : Prop where
  line : d.line = d'.line
  name : d.name? = d'.name?
  args : condense d.args = condense d'.args
  lineTarget : condense d.lineTarget = condense d'.lineTarget
  definition : d.name? = some (.command .define) →
    ∀ table : MacroTable, table.define d.args d.line = table.define d'.args d.line
  target : d.name? = some (.command .include) →
    includeTarget? d.args = includeTarget? d'.args ∧
      (includeTarget? d.args = none → d.args = d'.args)
  condition : d.name? = some (.branch (.opener .condition)) ∨ d.name? = some (.branch .elif) →
    d.args = d'.args

theorem DirectiveLine.Alike.refl (d : DirectiveLine) : d.Alike d :=
  ⟨rfl, rfl, rfl, rfl, fun _ _ => rfl, fun _ => ⟨rfl, fun _ => rfl⟩, fun _ => rfl⟩

theorem head?_condense_stripBlank (ts : List Lexeme) :
    (condense (stripBlank ts)).head? = (stripBlank ts).head? := by
  cases h : stripBlank ts with
  | nil => rfl
  | cons t us =>
    obtain ⟨-, -, -, -, ht⟩ := exists_of_stripBlank_eq_cons h
    rw [condense_cons (isGap_of_not_isBlank ht)]
    rfl

theorem firstName?_eq_of_condense {ts us : List Lexeme}
    (h : condense (stripBlank ts) = condense (stripBlank us)) :
    firstName? (stripBlank ts) = firstName? (stripBlank us) := by
  have hhead : (stripBlank ts).head? = (stripBlank us).head? := by
    rw [← head?_condense_stripBlank, h, head?_condense_stripBlank]
  have hfirst (ts : List Lexeme) :
      firstName? ts = ts.head?.bind fun t => if t.kind = .word then some t.text else none := by
    cases ts <;> rfl
  rw [hfirst, hfirst, hhead]

theorem readLineChange_eq_of_condense {ts us : List Lexeme} (h : condense ts = condense us) :
    readLineChange ts = readLineChange us := by
  unfold readLineChange
  rw [← filter_condense ts, h, filter_condense]

namespace DirectiveLine.Alike

variable {d d' : DirectiveLine} (h : d.Alike d')

include h

theorem firstName?_args : firstName? d.args = firstName? d'.args :=
  firstName?_eq_of_condense h.args

theorem branchHolds (table : MacroTable) {name : BranchName}
    (hname : d.name? = some (.branch name)) :
    d.branchHolds table name = d'.branchHolds table name := by
  match name with
  | .opener .condition =>
    show conditionHolds table d.args d.line = conditionHolds table d'.args d'.line
    rw [h.condition (Or.inl hname), h.line]
  | .opener .defined | .opener .undefined =>
    show Opener.holds.definedHolds _ table d.args d.line _ =
      Opener.holds.definedHolds _ table d'.args d'.line _
    unfold Opener.holds.definedHolds
    rw [h.firstName?_args, h.line]
  | .elif =>
    show conditionHolds table d.args d.line = conditionHolds table d'.args d'.line
    rw [h.condition (Or.inr hname), h.line]
  | .otherwise | .endif => rfl

end DirectiveLine.Alike

namespace Session

/-! ## States that are alike -/

/-- The sessions have the same macros and the same output, and what they write next looks
    the same. -/
structure Agrees (s t : Session) : Prop where
  macros : s.macros = t.macros
  pieces : s.output.pieces = t.output.pieces
  cursor : s.output.cursor.Agrees t.output.cursor

/-- Both sessions read a file in which the lexemes `tail` come next. They are in the same
    state, except that the pending text is known up to space, and so is what is written
    last if a line ends there. -/
structure Alike (tail : List Lexeme) (f : OpenFile) (s : Session) (g : OpenFile) (t : Session) :
    Prop where
  name : f.name = g.name
  conditionals : f.conditionals = g.conditionals
  shift : f.shift = g.shift
  macros : s.macros = t.macros
  pieces : s.output.pieces = t.output.pieces
  place : s.output.cursor.SamePlace t.output.cursor
  pending : condense (f.pending ++ tail) = condense (g.pending ++ tail)
  cursor : s.output.cursor.Agrees t.output.cursor ∨
    ∃ u us, condense (f.pending ++ tail) = u :: us ∧ u.kind = .newline

/-- Nothing is pending in either session. -/
structure InStep (f : OpenFile) (s : Session) (g : OpenFile) (t : Session) : Prop where
  file : f = g
  pending : f.pending = []
  agrees : s.Agrees t

variable {f g : OpenFile} {s t : Session} {tail : List Lexeme}

theorem Agrees.refl (s : Session) : s.Agrees s := ⟨rfl, rfl, .refl _⟩

theorem InStep.alike (h : InStep f s g t) (tail : List Lexeme) : Alike tail f s g t := by
  obtain ⟨rfl, -, h⟩ := h
  exact ⟨rfl, rfl, rfl, h.macros, h.pieces, h.cursor.toSamePlace, rfl, Or.inl h.cursor⟩

/-- What comes next in both files may be pending as well. -/
theorem Alike.append (h : Alike [] f s g t) (tail : List Lexeme) : Alike tail f s g t := by
  obtain ⟨hname, hconditionals, hshift, hmacros, hpieces, hplace, hpending, hcursor⟩ := h
  rw [List.append_nil] at hpending hcursor
  rw [List.append_nil] at hpending
  refine ⟨hname, hconditionals, hshift, hmacros, hpieces, hplace, condense_append hpending rfl,
    hcursor.imp id ?_⟩
  rintro ⟨u, us, hhead, hu⟩
  refine ⟨u, condense (us ++ tail), ?_, hu⟩
  rw [← condense_condense_append, hhead, List.cons_append, condense_cons (isGap_of_newline hu)]

/-- Text that is alike may become pending. -/
theorem Alike.pushText (h : Alike [] f s g t) {us vs : List Lexeme}
    (hsame : condense (us ++ tail) = condense (vs ++ tail)) :
    Alike tail { f with pending := f.pending ++ us } s { g with pending := g.pending ++ vs } t := by
  have hcursor := (h.append (us ++ tail)).cursor
  obtain ⟨hname, hconditionals, hshift, hmacros, hpieces, hplace, hpending, -⟩ := h
  rw [List.append_nil, List.append_nil] at hpending
  refine ⟨hname, hconditionals, hshift, hmacros, hpieces, hplace, ?_, ?_⟩
  · rw [List.append_assoc, List.append_assoc]
    exact condense_append hpending hsame
  · rw [List.append_assoc]
    exact hcursor

/-- So may the lexemes that come next. -/
theorem Alike.pushNext {us : List Lexeme} (h : Alike (us ++ tail) f s g t) :
    Alike tail { f with pending := f.pending ++ us } s { g with pending := g.pending ++ us } t := by
  obtain ⟨hname, hconditionals, hshift, hmacros, hpieces, hplace, hpending, hcursor⟩ := h
  rw [← List.append_assoc, ← List.append_assoc] at hpending
  rw [← List.append_assoc] at hcursor
  exact ⟨hname, hconditionals, hshift, hmacros, hpieces, hplace, hpending, hcursor⟩

theorem Alike.setConditionals (h : Alike tail f s g t) (cs : Conditionals) :
    Alike tail { f with conditionals := cs } s { g with conditionals := cs } t :=
  ⟨h.name, rfl, h.shift, h.macros, h.pieces, h.place, h.pending, h.cursor⟩

/-! ## Text -/

/-- Pending text that is alike expands to text that is written alike, or fails in the same
    way. -/
theorem Alike.expand (h : Alike tail f s g t) (htail : ∀ u ∈ tail, u.kind = .newline) :
    (∃ e, s.macros.expand f.pending = .error e ∧ t.macros.expand g.pending = .error e) ∨
      ∃ ts us, s.macros.expand f.pending = .ok ts ∧ t.macros.expand g.pending = .ok us ∧
        Cursor.WritesAlike (s.output.cursor.writeAll f.name (ts ++ tail))
          (t.output.cursor.writeAll f.name (us ++ tail)) := by
  have hblank : ∀ u ∈ tail, u.isBlank := fun u hu => isBlank_of_newline (htail u hu)
  have hmatches := MacroTable.matches_expand s.macros h.pending
  rw [MacroTable.expand_append_blank _ hblank, MacroTable.expand_append_blank _ hblank,
    h.macros] at hmatches
  rw [h.macros]
  cases hts : t.macros.expand f.pending with
  | error e =>
    rw [hts] at hmatches
    refine Or.inl ⟨e, rfl, ?_⟩
    cases hus : t.macros.expand g.pending with
    | error e' =>
      rw [hus] at hmatches
      cases hmatches
      rfl
    | ok us =>
      rw [hus] at hmatches
      cases hmatches
  | ok ts =>
    rw [hts] at hmatches
    cases hus : t.macros.expand g.pending with
    | error e =>
      rw [hus] at hmatches
      cases hmatches
    | ok us =>
      rw [hus] at hmatches
      have hsame : condense (ts ++ tail) = condense (us ++ tail) := Except.ok.inj hmatches
      refine Or.inr ⟨ts, us, rfl, rfl, ?_⟩
      rcases h.cursor with hcursor | ⟨u, vs, hhead, hu⟩
      · exact hcursor.writeAll_alike hsame f.name
      · -- A line feed in front of the text is still there when it has been expanded.
        have hexpand := MacroTable.matches_expand t.macros
          (condense_condense (f.pending ++ tail)).symm
        rw [MacroTable.expand_append_blank _ hblank, hts, hhead,
          MacroTable.expand_cons_blank _ (isBlank_of_newline hu)] at hexpand
        cases hws : t.macros.expand vs with
        | error e =>
          rw [hws] at hexpand
          cases hexpand
        | ok ws =>
          rw [hws] at hexpand
          have hline : condense (ts ++ tail) = u :: condense ws :=
            (Except.ok.inj hexpand).trans (condense_cons (isGap_of_newline hu) ws)
          exact h.place.writeAll_alike hsame hline hu f.name

section Steps

variable {m : Type → Type} [Monad m] [LawfulMonad m]

theorem parallel_flush (h : Alike [] f s g t) :
    Parallel InStep (flush f : PreprocessM m OpenFile) s (flush g) t := by
  rw [Parallel, exec_flush, exec_flush]
  refine coupled_pure ?_
  rcases h.expand (List.forall_mem_nil _) with ⟨e, hs, ht⟩ | ⟨ts, us, hs, ht, hwrites⟩
  · rw [hs, ht]
    exact .error e s t
  · rw [hs, ht]
    rw [List.append_nil, List.append_nil, h.name] at hwrites
    refine .ok ⟨?_, rfl, h.macros, ?_, ?_⟩
    · obtain ⟨hname, hconditionals, hshift, -⟩ := h
      rw [hname, hconditionals, hshift]
    · show s.output.pieces ++ _ = t.output.pieces ++ _
      rw [h.pieces, h.name, hwrites.pieces]
    · rw [h.name]
      exact hwrites.cursor

/-- At the end of a file it does not matter whether a line feed is missing. -/
theorem parallel_flush_last (h : Alike tail f s g t)
    (htail : tail = [] ∨ ∃ u : Lexeme, u.kind = .newline ∧ tail = [u]) :
    Parallel (fun f s g t => f.conditionals = g.conditionals ∧ s.output.pieces = t.output.pieces)
      (flush f : PreprocessM m OpenFile) s (flush g) t := by
  rcases htail with rfl | ⟨u, hu, rfl⟩
  · refine (parallel_flush h).mono ?_
    rintro f s _ t ⟨rfl, -, hagrees⟩
    exact ⟨rfl, hagrees.pieces⟩
  · rw [Parallel, exec_flush, exec_flush]
    refine coupled_pure ?_
    rcases h.expand (List.forall_mem_singleton.2 hu) with ⟨e, hs, ht⟩ | ⟨ts, us, hs, ht, hwrites⟩
    · rw [hs, ht]
      exact .error e s t
    · rw [hs, ht]
      refine .ok ⟨h.conditionals, ?_⟩
      show s.output.pieces ++ _ = t.output.pieces ++ _
      rw [h.pieces, ← h.name, hwrites.pieces_of_newline hu]

/-! ## Directives of kept regions -/

theorem parallel_defineLexemes (h : s.Agrees t) {args args' : List Lexeme} {line : Nat}
    (hargs : ∀ table : MacroTable, table.define args line = table.define args' line) :
    Parallel (fun _ s _ t => s.Agrees t) (defineLexemes args line : PreprocessM m Unit) s
      (defineLexemes args' line) t := by
  rw [Parallel, exec_defineLexemes, exec_defineLexemes, h.macros, hargs]
  refine coupled_pure ?_
  cases t.macros.define args' line with
  | error e => exact .error e s t
  | ok macros => exact .ok ⟨rfl, h.pieces, h.cursor⟩

theorem parallel_defineText (h : s.Agrees t) (cs : Text) :
    Parallel (fun _ s _ t => s.Agrees t) (defineText cs : PreprocessM m Unit) s (defineText cs) t :=
  parallel_defineLexemes h fun _ => rfl

theorem parallel_includeTarget (h : s.Agrees t) {args args' : List Lexeme} (line : Nat)
    (htarget : includeTarget? args = includeTarget? args' ∧ (includeTarget? args = none →
      args = args')) :
    Parallel (fun target s target' t => target = target' ∧ s.Agrees t)
      (includeTarget args line : PreprocessM m (Text × Bool)) s (includeTarget args' line) t := by
  obtain ⟨heq, hargs⟩ := htarget
  unfold includeTarget
  rw [← heq]
  cases hfound : includeTarget? args with
  | some target => exact parallel_pure ⟨rfl, h⟩
  | none =>
    refine parallel_get_bind ?_
    rw [hargs hfound, h.macros]
    refine parallel_ofExcept_bind (fun _ => Iff.rfl) ?_
    intro ts us hts hus
    cases hts.symm.trans hus
    split
    · exact parallel_pure ⟨rfl, h⟩
    · exact parallel_throw _

theorem parallel_changeLine (h : Alike [] f s g t) {target target' : List Lexeme}
    (htarget : readLineChange target = readLineChange target') (line : Nat) :
    Parallel InStep (changeLine f target line : PreprocessM m OpenFile) s
      (changeLine g target' line) t := by
  unfold changeLine
  rw [htarget]
  split
  · exact parallel_throw _
  · refine (parallel_flush h).bind ?_
    rintro f s _ t ⟨rfl, hpending, hagrees⟩
    dsimp only
    split
    · split
      · exact parallel_pure ⟨rfl, hpending, hagrees⟩
      · exact (parallel_defineText hagrees _).bind fun _ _ _ _ hagrees =>
          parallel_pure ⟨rfl, hpending, hagrees⟩
    · exact parallel_throw _

/-- What is kept of two pragma lines is written alike: it is alike, or else it differs at
    the end only, and a line feed comes next. -/
inductive KeptAlike (next : List Lexeme) (ts us : List Lexeme) : Prop
  | alike (h : condense ts = condense us)
  | ending {vs gaps gaps' : List Lexeme} (hts : ts = vs ++ gaps) (hus : us = vs ++ gaps')
      (hgaps : ∀ t ∈ gaps, t.isGap) (hgaps' : ∀ t ∈ gaps', t.isGap)
      (hnext : ∃ u us, next = u :: us ∧ u.kind = .newline)

theorem InStep.push_kept {next : List Lexeme} (h : InStep f s g t) {ts us : List Lexeme}
    (hkept : KeptAlike next ts us) :
    Alike next f { s with output := s.output.push f.name ts } g
      { t with output := t.output.push g.name us } := by
  obtain ⟨rfl, hpending, hagrees⟩ := h
  cases hkept with
  | alike hsame =>
    have hwrites := hagrees.cursor.writeAll_alike hsame f.name
    refine ⟨rfl, rfl, rfl, hagrees.macros, ?_, hwrites.cursor.toSamePlace, rfl,
      Or.inl hwrites.cursor⟩
    show s.output.pieces ++ _ = t.output.pieces ++ _
    rw [hagrees.pieces, hwrites.pieces]
  | @ending vs gaps gaps' hts hus hgaps hgaps' hnext =>
    subst hts hus
    have hwrites := hagrees.cursor.writeAll f.name vs
    have hleft := Cursor.writeAll_gaps (s.output.cursor.writeAll f.name vs).2 f.name hgaps
    have hright := Cursor.writeAll_gaps (t.output.cursor.writeAll f.name vs).2 f.name hgaps'
    refine ⟨rfl, rfl, rfl, hagrees.macros, ?_, ?_, rfl, Or.inr ?_⟩
    · show s.output.pieces ++ (s.output.cursor.writeAll f.name (vs ++ gaps)).1 =
        t.output.pieces ++ (t.output.cursor.writeAll f.name (vs ++ gaps')).1
      rw [Cursor.writeAll_append, Cursor.writeAll_append, hleft.1, hright.1, hagrees.pieces,
        hwrites.pieces]
    · show Cursor.SamePlace (s.output.cursor.writeAll f.name (vs ++ gaps)).2
        (t.output.cursor.writeAll f.name (vs ++ gaps')).2
      rw [Cursor.writeAll_append, Cursor.writeAll_append]
      exact hleft.2.symm.trans (hwrites.cursor.toSamePlace.trans hright.2)
    · obtain ⟨u, us, rfl, hu⟩ := hnext
      rw [hpending, List.nil_append, condense_cons (isGap_of_newline hu)]
      exact ⟨u, condense us, rfl, hu⟩

/-- Reading an included file keeps sessions in agreement. -/
def KeepsAgreement (enter : Text → Bool → Nat → PreprocessM m Unit) : Prop :=
  ∀ name quoted line s t, s.Agrees t →
    Parallel (fun _ s _ t => s.Agrees t) (enter name quoted line) s (enter name quoted line) t

variable {enter : Text → Bool → Nat → PreprocessM m Unit}

theorem parallel_obey (henter : KeepsAgreement enter)
    (h : Alike [] f s g t) {group group' next : List Lexeme} {d d' : DirectiveLine}
    {name : CommandName} (hd : d.Alike d') (hname : d.name? = some (.command name))
    (hpragma : name = .pragma →
      KeptAlike next (group.filter staysInPragma) (group'.filter staysInPragma)) :
    Parallel (Alike next) (obey enter f group d name) s (obey enter g group' d' name) t := by
  have hreturn {f g : OpenFile} {s t : Session} (h : InStep f s g t) :
      Parallel (Alike next) (pure f : PreprocessM m OpenFile) s (pure g) t :=
    parallel_pure (h.alike next)
  match name with
  | .define =>
    refine (parallel_flush h).bind ?_
    rintro f s _ t ⟨rfl, hpending, hagrees⟩
    rw [← hd.line]
    exact (parallel_defineLexemes hagrees (hd.definition hname)).bind fun _ _ _ _ hagrees =>
      hreturn ⟨rfl, hpending, hagrees⟩
  | .undef =>
    refine (parallel_flush h).bind ?_
    rintro f s _ t ⟨rfl, hpending, hagrees⟩
    rw [← hd.firstName?_args, ← hd.line]
    split
    · exact parallel_throw _
    · have herase (name : Text) : Parallel (fun _ s _ t => s.Agrees t)
          (modify fun s => { s with macros := s.macros.erase name } : PreprocessM m PUnit) s
          (modify fun s => { s with macros := s.macros.erase name }) t :=
        parallel_modify ⟨congrArg (MacroTable.erase · name) hagrees.macros, hagrees.pieces,
          hagrees.cursor⟩
      exact (herase _).bind fun _ _ _ _ hagrees => hreturn ⟨rfl, hpending, hagrees⟩
  | .include =>
    refine (parallel_flush h).bind ?_
    rintro f s _ t ⟨rfl, hpending, hagrees⟩
    rw [← hd.line]
    refine (parallel_includeTarget hagrees d.line (hd.target hname)).bind ?_
    rintro target s _ t ⟨rfl, hagrees⟩
    refine (henter _ _ _ s t hagrees).bind fun _ s _ t hagrees => ?_
    exact (parallel_defineText hagrees _).bind fun _ _ _ _ hagrees =>
      hreturn ⟨rfl, hpending, hagrees⟩
  | .pragma =>
    refine (parallel_flush h).bind fun f s g t hstep => ?_
    refine Parallel.bind (Q := fun _ s _ t => Alike next f s g t)
      (parallel_modify (hstep.push_kept (hpragma rfl))) ?_
    exact fun _ _ _ _ h => parallel_pure h
  | .line =>
    rw [obey, obey, ← hd.line]
    exact (parallel_changeLine h (readLineChange_eq_of_condense hd.lineTarget) d.line).mono
      fun _ _ _ _ hstep => hstep.alike next

/-! ## Lines and files -/

/-- Two lines, with their numbers moved, in front of the lexemes `tail`: text that is alike,
    or directives that are. -/
inductive LinesAlike (tail group group' : List Lexeme) : Prop
  | text (h : directive? group = none) (h' : directive? group' = none)
      (hsame : condense (group ++ tail) = condense (group' ++ tail))
  | directive {d d' : DirectiveLine} (hd : directive? group = some d)
      (hd' : directive? group' = some d') (halike : d.Alike d')
      (hbreak : lineBreak group = lineBreak group')
      (hpragma : d.name? = some (.command .pragma) →
        KeptAlike (lineBreak group ++ tail) (group.filter staysInPragma)
          (group'.filter staysInPragma))

theorem LinesAlike.refl (group : List Lexeme) : LinesAlike [] group group := by
  cases hd : directive? group with
  | none => exact .text hd hd rfl
  | some d => exact .directive hd hd (.refl d) rfl fun _ => .alike rfl

theorem parallel_readLine (henter : KeepsAgreement enter)
    (h : Alike [] f s g t) {group group' : List Lexeme}
    (hlines : LinesAlike tail (renumber f.shift group) (renumber f.shift group')) :
    Parallel (Alike tail) (readLine enter f group) s (readLine enter g group') t := by
  obtain ⟨name, pending, conditionals, shift⟩ := f
  obtain ⟨name', pending', conditionals', shift'⟩ := g
  obtain ⟨rfl, rfl, rfl⟩ : name = name' ∧ conditionals = conditionals' ∧ shift = shift' :=
    ⟨h.name, h.conditionals, h.shift⟩
  unfold readLine
  dsimp only at hlines ⊢
  generalize renumber shift group = us at hlines
  generalize renumber shift group' = vs at hlines
  cases hlines with
  | text hus hvs hsame =>
    rw [hus, hvs]
    dsimp only
    refine parallel_pure ?_
    split
    · exact h.pushText hsame
    · exact h.append tail
  | @directive d d' hd hd' halike hbreak hpragma =>
    rw [hd, hd']
    dsimp only
    rw [← halike.name, ← hbreak]
    have hend {f g : OpenFile} {s t : Session} (h : Alike (lineBreak us ++ tail) f s g t) :
        Parallel (Alike tail)
          (pure { f with pending := f.pending ++ lineBreak us } : PreprocessM m OpenFile) s
          (pure { g with pending := g.pending ++ lineBreak us }) t :=
      parallel_pure h.pushNext
    split
    next branch hname =>
      refine parallel_get_bind ?_
      rw [h.macros, ← halike.line, halike.branchHolds t.macros hname]
      refine parallel_ofExcept_bind (fun _ => Iff.rfl) fun cs cs' hcs hcs' => ?_
      cases hcs.symm.trans hcs'
      rw [pure_bind, pure_bind]
      exact hend ((h.setConditionals cs).append _)
    next command hname =>
      split
      · have hobey := parallel_obey henter h halike hname fun heq => hpragma (by rw [hname, heq])
        exact hobey.bind fun f s g t h => hend h
      · rw [pure_bind, pure_bind]
        exact hend (h.append _)
    · rw [pure_bind, pure_bind]
      exact hend (h.append _)

/-- The same lines are read alike. -/
theorem parallel_readLines (henter : KeepsAgreement enter)
    (h : Alike [] f s g t) (groups : List (List Lexeme)) :
    Parallel (Alike []) (groups.foldlM (readLine enter) f) s (groups.foldlM (readLine enter) g) t :=
  parallel_foldlM (f := readLine enter)
    (fun _ _ _ _ _ h => parallel_readLine henter h (.refl _)) groups h

/-- What an included file does depends on the session up to what sessions agree on. -/
theorem keepsAgreement_enterFile (store : SourceStore m) {read : SourceFile → PreprocessM m Unit}
    (hread : ∀ found s t, s.Agrees t →
      Parallel (fun _ s _ t => s.Agrees t) (read found) s (read found) t) (stack : List Text) :
    KeepsAgreement (enterFile store stack read) := by
  intro name quoted line s t h
  refine parallel_lift_bind fun found => ?_
  cases found with
  | none => exact parallel_throw _
  | some found =>
    dsimp only
    split
    · exact parallel_throw _
    · exact hread found s t h

theorem parallel_readFile (store : SourceStore m) (depth : Nat) (around : List Text)
    (file : SourceFile) (s t : Session) (h : s.Agrees t) :
    Parallel (fun _ s _ t => s.Agrees t) (readFile store depth around file) s
      (readFile store depth around file) t := by
  induction depth generalizing around file s t with
  | zero => exact parallel_pure h
  | succ depth ih =>
    refine (parallel_defineText h _).bind fun _ s _ t h => ?_
    have hstart : Alike [] { name := file.name } s { name := file.name } t :=
      InStep.alike ⟨rfl, rfl, h⟩ []
    have hinclude :=
      keepsAgreement_enterFile store (fun found => ih (file.name :: around) found)
        (file.name :: around)
    refine (parallel_readLines hinclude hstart _).bind fun f s g t h => ?_
    refine (parallel_flush h).bind ?_
    rintro f s _ t ⟨rfl, -, hagrees⟩
    rw [Parallel, exec_ofExcept, exec_ofExcept]
    refine coupled_pure ?_
    cases f.conditionals.finish with
    | error e => exact .error e s t
    | ok => exact .ok hagrees

end Steps

end Session

end IdlFrontend
