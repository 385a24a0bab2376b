import IdlFrontend.Proofs.Conditional.Answers
import IdlFrontend.Proofs.MarkedText.Separation
import IdlFrontend.Proofs.Session.Follows
import IdlFrontend.Proofs.Session.Origin

/-!
# Sessions in other places

Two sessions resemble each other if they have the same macros but for `__FILE__` and have
written the same lexemes, from whatever files and lines. One of them may read its lines in
conditionals that are open around all of them.

Results:

* `significant_push`: writing adds the lexemes that are not blank.
* `Around.branch`: the same branches are kept within other conditionals.
* `follows_readLineAtOnce`: sessions that resemble each other still do behind a line that
  both have read.
-/

namespace IdlFrontend

open Lexeme

/-! ## Lexemes that are written -/

/-- The kind and the text of a lexeme in the output. -/
def Piece.significant? : Piece → Option (LexemeKind × Text)
  | .lexeme t => some (t.kind, t.text)
  | _ => none

/-- The kinds and the texts of the lexemes in the output. -/
def MarkedText.significant (out : MarkedText) : List (LexemeKind × Text) :=
  out.pieces.filterMap Piece.significant?

theorem Cursor.significant_write (c : Cursor) (file : Text) (t : Lexeme) :
    (c.write file t).1.filterMap Piece.significant? = Lexeme.significant [t] := by
  have hblank (h : t.isBlank) : Lexeme.significant [t] = [] := significant_cons_of_isBlank h []
  have hmark (c : Cursor) : (c.synchronize file t.line).1.filterMap Piece.significant? = [] := by
    unfold synchronize
    split
    · rfl
    · cases c.atLineStart <;> rfl
  unfold write
  split
  next hkind =>
    rw [hblank (isBlank_of_newline hkind)]
    cases c.file <;> rfl
  next hkind =>
    rw [hblank (by simp [Lexeme.isBlank, hkind])]
    rfl
  next hkind =>
    rw [hblank (by simp [Lexeme.isBlank, hkind])]
    rfl
  next hnewline hspace hcomment =>
    have hsolid : t.isBlank = false := by
      simpa [Lexeme.isBlank] using And.intro (And.intro hspace hnewline) hcomment
    rw [significant_cons_of_not_isBlank hsolid]
    dsimp only
    rw [List.filterMap_append, List.filterMap_append, hmark]
    split <;> rfl

theorem MarkedText.significant_push (out : MarkedText) (file : Text) (ts : List Lexeme) :
    (out.push file ts).significant = out.significant ++ Lexeme.significant ts := by
  have hwrite (c : Cursor) :
      (c.writeAll file ts).1.filterMap Piece.significant? = Lexeme.significant ts := by
    induction ts generalizing c with
    | nil => rfl
    | cons t ts ih =>
      show ((c.write file t).1 ++ ((c.write file t).2.writeAll file ts).1).filterMap _ = _
      rw [List.filterMap_append, ih, c.significant_write]
      simp [Lexeme.significant, List.filter_cons]
      split <;> rfl
  rw [significant, push, List.filterMap_append, hwrite]
  rfl

theorem Lexeme.significant_restamp (ts : List Lexeme) :
    significant (restamp 0 ts) = significant ts := by
  rw [significant, restamp, List.filter_map, List.map_map]
  rfl

theorem Lexeme.significant_of_isBlank {ts : List Lexeme} (h : ∀ t ∈ ts, t.isBlank) :
    significant ts = [] := by
  rw [significant, List.filter_eq_nil_iff.2, List.map_nil]
  exact fun t ht => by simp [h t ht]

/-! ## Conditionals around conditionals -/

/-- The conditional without its line number. -/
def Conditional.unnumbered (c : Conditional) : Conditional := { c with line := 0 }

namespace Conditionals

/-- The conditionals `cs'` are `cs`, line numbers apart, and `base` around them. -/
def Around (base cs cs' : Conditionals) : Prop :=
  cs'.map Conditional.unnumbered = (cs ++ base).map Conditional.unnumbered

variable {base cs cs' : Conditionals}

theorem kept_map_unnumbered (cs : Conditionals) :
    kept (cs.map Conditional.unnumbered) = cs.kept := by
  cases cs <;> rfl

theorem Around.kept (h : Around base cs cs') (hbase : base.kept) : cs'.kept = cs.kept := by
  rw [← kept_map_unnumbered, h, kept_map_unnumbered]
  cases cs with
  | nil => exact hbase
  | cons => rfl

theorem Around.exists_cons {c : Conditional} (h : Around base (c :: cs) cs') :
    ∃ c' rest, cs' = c' :: rest ∧ c'.unnumbered = c.unnumbered ∧ Around base cs rest := by
  cases cs' with
  | nil => cases h
  | cons c' rest =>
    obtain ⟨hhead, htail⟩ := List.cons.inj h
    exact ⟨c', rest, rfl, hhead, htail⟩

theorem Around.cons {c c' : Conditional} (h : Around base cs cs')
    (hc : c'.unnumbered = c.unnumbered) :
    Around base (c :: cs) (c' :: cs') := congrArg₂ List.cons hc h

/-- In kept conditionals, a conditional takes the same branches. -/
theorem Around.branch (h : Around base cs cs') (hbase : base.kept) {name : BranchName} {line : Nat}
    (condition condition' : Unit → Except PreprocessError Bool)
    (hcondition : ∀ holds, condition () = .ok holds → condition' () = .ok holds)
    {after : Conditionals} (hafter : cs.branch line condition name = .ok after) (line' : Nat) :
    ∃ after', cs'.branch line' condition' name = .ok after' ∧ Around base after after' := by
  cases name with
  | opener opener =>
    have hkept := h.kept hbase
    simp only [Conditionals.branch, start] at hafter ⊢
    rw [hkept]
    cases hcs : cs.kept with
    | false =>
      rw [hcs, if_neg Bool.false_ne_true] at hafter
      cases hafter
      exact ⟨_, rfl, h.cons rfl⟩
    | true =>
      rw [hcs, if_pos rfl] at hafter
      cases hholds : condition () with
      | error e =>
        rw [hholds] at hafter
        cases hafter
      | ok holds =>
        rw [hholds] at hafter
        cases hafter
        rw [hcondition holds hholds]
        exact ⟨_, rfl, h.cons rfl⟩
  | elif =>
    cases cs with
    | nil => cases hafter
    | cons c cs =>
      obtain ⟨⟨opener', line'', reached, taken, keeping⟩, rest, rfl, hc, hrest⟩ := h.exists_cons
      obtain ⟨opener, line, reached', taken', keeping'⟩ := c
      cases hc
      simp only [Conditionals.branch, Conditionals.elif] at hafter ⊢
      split at hafter
      next hskip =>
        cases hafter
        rw [if_pos hskip]
        exact ⟨_, rfl, hrest.cons rfl⟩
      next hskip =>
        rw [if_neg hskip]
        cases hholds : condition () with
        | error e =>
          rw [hholds] at hafter
          cases hafter
        | ok holds =>
          rw [hholds] at hafter
          cases hafter
          rw [hcondition holds hholds]
          exact ⟨_, rfl, hrest.cons rfl⟩
  | otherwise =>
    cases cs with
    | nil => cases hafter
    | cons c cs =>
      obtain ⟨⟨opener', line'', reached, taken, keeping⟩, rest, rfl, hc, hrest⟩ := h.exists_cons
      obtain ⟨opener, line, reached', taken', keeping'⟩ := c
      cases hc
      cases hafter
      exact ⟨_, rfl, hrest.cons rfl⟩
  | endif =>
    cases cs with
    | nil => cases hafter
    | cons c cs =>
      obtain ⟨c', rest, rfl, -, hrest⟩ := h.exists_cons
      cases hafter
      exact ⟨_, rfl, hrest⟩

end Conditionals

/-! ## Directives -/

/-- The line asks neither for the name of its file nor for its line, and changes none of them. -/
structure PlacelessLine (group : List Lexeme) : Prop where
  lexemes : ∀ t ∈ group, Placeless t.kind t.text
  directive : ∀ d ∈ directive? group, d.name? ≠ some (.command .line)

instance (group : List Lexeme) : Decidable (PlacelessLine group) :=
  decidable_of_iff ((∀ t ∈ group, Placeless t.kind t.text) ∧
      ∀ d ∈ directive? group, d.name? ≠ some (.command .line))
    ⟨fun h => ⟨h.1, h.2⟩, fun h => ⟨h.lexemes, h.directive⟩⟩

theorem directive?_of_restamp {group group' : List Lexeme}
    (hsame : restamp 0 group = restamp 0 group') :
    (directive? group = none ∧ directive? group' = none) ∨
      ∃ d d', directive? group = some d ∧ directive? group' = some d' ∧ d'.name? = d.name? ∧
        restamp 0 d.args = restamp 0 d'.args := by
  have hmap := congrArg directive? hsame
  change directive? (relabel (fun _ => 0) group) = directive? (relabel (fun _ => 0) group') at hmap
  rw [directive?_relabel, directive?_relabel] at hmap
  cases hd : directive? group with
  | none =>
    rw [hd] at hmap
    exact Or.inl ⟨rfl, Option.map_eq_none_iff.1 hmap.symm⟩
  | some d =>
    rw [hd] at hmap
    obtain ⟨d', hd', hrelabel⟩ := Option.map_eq_some_iff.1 hmap.symm
    refine Or.inr ⟨d, d', rfl, hd', ?_, ?_⟩
    · rw [← DirectiveLine.name?_relabel (fun _ => 0), hrelabel, DirectiveLine.name?_relabel]
    · show relabel (fun _ => 0) d.args = relabel (fun _ => 0) d'.args
      rw [← DirectiveLine.args_relabel, ← DirectiveLine.args_relabel, hrelabel]

theorem includeTarget?_of_restamp {ts us : List Lexeme} (hsame : restamp 0 ts = restamp 0 us) :
    includeTarget? ts = includeTarget? us := by
  rw [← includeTarget?_relabel fun _ => 0, ← includeTarget?_relabel (fun _ => 0) us]
  exact congrArg includeTarget? hsame

open Session (renumber) in
theorem restamp_renumber (shift : Int) (ts : List Lexeme) :
    restamp 0 (renumber shift ts) = restamp 0 ts :=
  List.map_map

open Session (renumber) in
theorem PlacelessLine.renumbered {group : List Lexeme} (h : PlacelessLine group) (shift : Int) :
    PlacelessLine (renumber shift group) := by
  have hsame : restamp 0 group = restamp 0 (renumber shift group) :=
    (restamp_renumber shift group).symm
  refine ⟨forall_of_restamp_eq hsame h.lexemes, fun d hd => ?_⟩
  rcases directive?_of_restamp hsame with ⟨-, hnone⟩ | ⟨d₀, d₁, hd₀, hd₁, hname, -⟩
  · cases hnone.symm.trans hd
  · cases hd₁.symm.trans hd
    rw [hname]
    exact h.directive d₀ hd₀

namespace Session

/-! ## Sessions -/

/-- The sessions have the same macros but for `__FILE__`, and have written the same lexemes. -/
structure Resembles (s t : Session) : Prop where
  macros : s.macros.Resembles t.macros
  written : s.output.significant = t.output.significant

/-- Nothing is pending in either session. What the second one reads stands within the
    conditionals `base`, besides those of the first one. -/
structure Within (base : Conditionals) (f : OpenFile) (s : Session) (g : OpenFile) (t : Session) :
    Prop where
  pending : f.pending = []
  pending' : g.pending = []
  shift : f.shift = 0
  shift' : g.shift = 0
  conditionals : Conditionals.Around base f.conditionals g.conditionals
  session : s.Resembles t

variable {base : Conditionals} {f g : OpenFile} {s t : Session}

theorem Resembles.push (h : s.Resembles t) {ts us : List Lexeme}
    (hsame : significant ts = significant us) (name name' : Text) :
    Resembles { s with output := s.output.push name ts }
      { t with output := t.output.push name' us } := by
  refine ⟨h.macros, ?_⟩
  rw [MarkedText.significant_push, MarkedText.significant_push, h.written, hsame]

theorem Resembles.insertFile (h : s.Resembles t) (name name' : Text) :
    Resembles { s with macros := s.macros.insert (fileMacro name) }
      { t with macros := t.macros.insert (fileMacro name') } :=
  ⟨h.macros.insert rfl rfl fun hname => absurd rfl hname, h.written⟩

theorem Within.setSession (h : Within base f s g t) {s' t' : Session} (hsession : s'.Resembles t') :
    Within base f s' g t' :=
  ⟨h.pending, h.pending', h.shift, h.shift', h.conditionals, hsession⟩

theorem follows_defineFileName (h : s.Resembles t) (name name' : Text) :
    Follows (fun _ s _ t => s.Resembles t) (defineFileName name) s (defineFileName name') t :=
  follows_of_succeeds (exec_defineFileName name s) (exec_defineFileName name' t)
    (h.insertFile name name')

theorem follows_flush_bind {α β : Type} (h : Within base f s g t)
    {x : OpenFile → PreprocessM (OptionT Id) α} {y : OpenFile → PreprocessM (OptionT Id) β}
    {Q : α → Session → β → Session → Prop} (hxy : Follows Q (x f) s (y g) t) :
    Follows Q (flush f >>= x) s (flush g >>= y) t :=
  Follows.bind (Q := fun f' s' g' t' => f' = f ∧ s' = s ∧ g' = g ∧ t' = t)
    (follows_of_succeeds (exec_flush_nil h.pending) (exec_flush_nil h.pending') ⟨rfl, rfl,
    rfl, rfl⟩) (by rintro _ _ _ _ ⟨rfl, rfl, rfl, rfl⟩; exact hxy)

/-- Line breaks are written, and are not significant. -/
theorem succeeds_flush_lineBreak (hpending : f.pending = []) (s : Session) (group : List Lexeme) :
    Succeeds (flush { f with pending := f.pending ++ lineBreak group }) s f
      { s with output := s.output.push f.name (lineBreak group) } := by
  obtain ⟨name, pending, conditionals, shift⟩ := f
  obtain rfl : pending = [] := hpending
  exact exec_flush_ok (expand_lineBreak _ group (expand_nil _))

theorem significant_lineBreak (group : List Lexeme) : significant (lineBreak group) = [] :=
  significant_of_isBlank fun _ hb => isBlank_of_newline (beq_iff_eq.1 (List.mem_filter.1 hb).2)

theorem follows_lineBreak (h : Within base f s g t) (group group' : List Lexeme) :
    Follows (Within base) (flush { f with pending := f.pending ++ lineBreak group }) s
      (flush { g with pending := g.pending ++ lineBreak group' }) t := by
  refine follows_of_succeeds (succeeds_flush_lineBreak h.pending s group)
    (succeeds_flush_lineBreak h.pending' t group') (h.setSession (h.session.push ?_ _ _))
  rw [significant_lineBreak, significant_lineBreak]

/-! ## Lines -/

/-- Two ways to read included files: the second one goes along with the first one. -/
def EntersAlike (enter enter' : Text → Bool → Nat → PreprocessM (OptionT Id) Unit) : Prop :=
  ∀ name quoted line line' s t, s.Resembles t →
    Follows (fun _ s _ t => s.Resembles t) (enter name quoted line) s (enter' name quoted line') t

variable {enter enter' : Text → Bool → Nat → PreprocessM (OptionT Id) Unit}

theorem follows_includeTarget (h : s.Resembles t) (hmacros : s.macros.IsObjectLike)
    {args args' : List Lexeme} (hsame : restamp 0 args = restamp 0 args')
    (hargs : ∀ t ∈ args, Placeless t.kind t.text) (line line' : Nat) :
    Follows (fun target s' target' t' => target = target' ∧ s' = s ∧ t' = t)
      (includeTarget args line) s (includeTarget args' line') t := by
  unfold includeTarget
  rw [includeTarget?_of_restamp hsame]
  cases includeTarget? args' with
  | some target => exact follows_pure ⟨rfl, rfl, rfl⟩
  | none =>
    refine follows_get_bind (follows_ofExcept_bind fun us hus => ?_)
    obtain ⟨us', vs, hus', hvs, hexpanded⟩ := h.macros.expand hmacros hsame hargs
    cases hus.symm.trans hus'
    refine ⟨vs, hvs, ?_⟩
    have hstrip : restamp 0 (stripBlank us) = restamp 0 (stripBlank vs) := by
      show relabel (fun _ => 0) (stripBlank us) = relabel (fun _ => 0) (stripBlank vs)
      rw [← stripBlank_relabel, ← stripBlank_relabel]
      exact congrArg stripBlank hexpanded
    rw [includeTarget?_of_restamp hstrip]
    cases includeTarget? (stripBlank vs) with
    | some target => exact follows_pure ⟨rfl, rfl, rfl⟩
    | none => exact follows_throw _

/-- A directive of a kept region is obeyed alike. -/
theorem follows_obey (henter : EntersAlike enter enter') (h : Within base f s g t)
    (hmacros : s.macros.IsObjectLike) {group group' : List Lexeme}
    (hgroup : restamp 0 group = restamp 0 group') {d d' : DirectiveLine}
    (hsame : restamp 0 d.args = restamp 0 d'.args) (hargs : ∀ t ∈ d.args, Placeless t.kind t.text)
    {name : CommandName} (hline : name ≠ .line) :
    Follows (Within base) (obey enter f group d name) s (obey enter' g group' d' name) t := by
  match name with
  | .define =>
    refine follows_flush_bind h ?_
    refine Follows.bind (Q := fun _ s _ t => s.Resembles t) ?_ fun _ _ _ _ hsession =>
      follows_pure (h.setSession hsession)
    refine follows_get_bind (follows_ofExcept_bind fun macros hdefine => ?_)
    obtain ⟨macros', hdefine', hresembles⟩ := h.session.macros.define hsame hargs hdefine d'.line
    exact ⟨macros', hdefine', follows_of_succeeds (exec_set _ _) (exec_set _ _)
      ⟨hresembles, h.session.written⟩⟩
  | .undef =>
    refine follows_flush_bind h ?_
    have hname : firstName? d.args = firstName? d'.args := by
      rw [← firstName?_relabel (fun _ => 0), ← firstName?_relabel (fun _ => 0) d'.args]
      exact congrArg firstName? hsame
    rw [hname]
    cases firstName? d'.args with
    | none => exact follows_throw _
    | some name =>
      refine Follows.bind (Q := fun _ s _ t => s.Resembles t)
        (follows_modify ?_) fun _ _ _ _ hsession =>
        follows_pure (h.setSession hsession)
      exact ⟨h.session.macros.erase name, h.session.written⟩
  | .include =>
    refine follows_flush_bind h ?_
    refine (follows_includeTarget h.session hmacros hsame hargs d.line d'.line).bind ?_
    rintro ⟨file, quoted⟩ _ _ _ ⟨rfl, rfl, rfl⟩
    refine (henter file quoted d.line d'.line _ _ h.session).bind fun _ s _ t hsession => ?_
    exact (follows_defineFileName hsession f.name g.name).bind fun _ _ _ _ hsession =>
      follows_pure (h.setSession hsession)
  | .pragma =>
    refine follows_flush_bind h ?_
    refine Follows.bind (Q := fun _ s _ t => s.Resembles t)
      (follows_modify ?_) fun _ _ _ _ hsession =>
      follows_pure (h.setSession hsession)
    refine h.session.push ?_ _ _
    rw [← significant_restamp, restamp_filter_of_restamp_eq (fun _ => rfl) hgroup,
      significant_restamp]
  | .line => exact absurd rfl hline

/-- Text that is not kept is passed over. -/
theorem succeeds_readLineAtOnce_skipped (enter : Text → Bool → Nat → PreprocessM (OptionT Id) Unit)
    {group : List Lexeme} (hpending : f.pending = []) (hkept : f.conditionals.kept = false)
    (hd : directive? (renumber f.shift group) = none) (s : Session) :
    Succeeds (readLineAtOnce enter f group) s f s :=
  (exec_readLineAtOnce_text enter hpending hd).trans (if_neg (by simp [hkept]))

/-- **Sessions that resemble each other still do behind a line that both have read.** -/
theorem follows_readLineAtOnce (henter : EntersAlike enter enter') (hbase : base.kept)
    (h : Within base f s g t) (hmacros : s.macros.IsObjectLike) {group group' : List Lexeme}
    (hsame : restamp 0 group = restamp 0 group') (hgroup : PlacelessLine group) :
    Follows (Within base) (readLineAtOnce enter f group) s (readLineAtOnce enter' g group') t := by
  have hrenumbered : restamp 0 (renumber f.shift group) = restamp 0 (renumber g.shift group') := by
    rw [restamp_renumber, restamp_renumber, hsame]
  have hplaceless := hgroup.renumbered f.shift
  have hkept := h.conditionals.kept hbase
  rcases directive?_of_restamp hrenumbered with ⟨hd, hd'⟩ | ⟨d, d', hd, hd', hname, hargs⟩
  · by_cases hf : f.conditionals.kept
    · obtain ⟨us, vs, hus, hvs, hexpanded⟩ :=
        h.session.macros.expand hmacros hrenumbered hplaceless.lexemes
      refine follows_of_succeeds (exec_readLineAtOnce_of_expand enter h.pending hf hd hus)
        (exec_readLineAtOnce_of_expand enter' h.pending' (hkept.trans hf) hd' hvs)
        (h.setSession (h.session.push ?_ _ _))
      rw [← significant_restamp, hexpanded, significant_restamp]
    · exact follows_of_succeeds (succeeds_readLineAtOnce_skipped enter h.pending
        (by simpa using hf) hd s)
        (succeeds_readLineAtOnce_skipped enter' h.pending' (hkept.trans (by simpa using hf)) hd' t)
        h
  · have hplacelessArgs : ∀ t ∈ d.args, Placeless t.kind t.text :=
      fun t ht => hplaceless.lexemes t (mem_of_mem_args hd ht)
    unfold readLineAtOnce readLine
    dsimp only
    rw [hd, hd']
    dsimp only
    rw [hname]
    split
    next branch hbranch =>
      simp only [bind_assoc, pure_bind]
      refine follows_get_bind (follows_ofExcept_bind fun cs hcs => ?_)
      obtain ⟨cs', hcs', haround⟩ := h.conditionals.branch hbase
        (fun _ => d.branchHolds s.macros branch)
        (fun _ => d'.branchHolds t.macros branch)
        (fun _ => h.session.macros.branchHolds hmacros hargs hplacelessArgs) hcs d'.line
      refine ⟨cs', hcs', follows_lineBreak (f := { f with conditionals := cs })
        (g := { g with conditionals := cs' }) ?_ _ _⟩
      exact ⟨h.pending, h.pending', h.shift, h.shift', haround, h.session⟩
    next command hcommand =>
      rw [hkept]
      split
      · rw [bind_assoc, bind_assoc]
        refine (follows_obey henter h hmacros hrenumbered hargs hplacelessArgs ?_).bind
          fun f s g t h => ?_
        · rintro rfl
          exact hplaceless.directive d hd hcommand
        · rw [pure_bind, pure_bind]
          exact follows_lineBreak h _ _
      · simp only [pure_bind]
        exact follows_lineBreak h _ _
    · simp only [pure_bind]
      exact follows_lineBreak h _ _

end Session

end IdlFrontend
