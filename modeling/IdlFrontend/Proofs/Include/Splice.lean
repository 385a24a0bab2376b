import IdlFrontend.Proofs.Session.Lines
import IdlFrontend.Proofs.Session.Machine

/-!
# Included files in place

An include directive stands for the lines of the file that it names.
-/

namespace IdlFrontend

open Lexeme Source

/-! ## Include directives -/

/-- The line includes the file `name`, without a macro for its name. -/
def Includes (name : Text) (group : List Lexeme) : Prop :=
  ∃ d quoted, directive? group = some d ∧ d.name? = some (.command .include) ∧
    includeTarget? d.args = some (name, quoted)

theorem Includes.of_restamp {name : Text} {group group' : List Lexeme} (h : Includes name group)
    (hsame : restamp 0 group = restamp 0 group') : Includes name group' := by
  obtain ⟨d, quoted, hd, hname, htarget⟩ := h
  rcases directive?_of_restamp hsame with ⟨hnone, -⟩ | ⟨d₀, d', hd₀, hd', hname', hargs⟩
  · cases hnone.symm.trans hd
  · cases hd₀.symm.trans hd
    exact ⟨d', quoted, hd', hname'.trans hname, includeTarget?_of_restamp hargs ▸ htarget⟩

theorem Includes.nestingBehind {name : Text} {group : List Lexeme} (h : Includes name group)
    (n : Nat) :
    nestingBehind n group = some n := by
  obtain ⟨d, -, hd, hname, -⟩ := h
  exact nestingBehind_of_not_branch hd (fun _ => by rw [hname]; rintro ⟨⟩) n

theorem Includes.ne_emptyLine {name : Text} {group : List Lexeme} (h : Includes name group) :
    group ≠ Session.emptyLine := by
  rintro rfl
  obtain ⟨d, -, hd, -⟩ := h
  cases hd

/-- The macro that is defined beforehand asks neither for a file nor for a line. -/
def Predefinition.Placeless (d : Predefinition) : Prop :=
  ∀ m, MacroTable.readDefinition (scan (d.name ++ ' ' :: d.value.getD [])) = .ok m →
    ∀ t ∈ m.body, Lexeme.Placeless t.kind t.text

/-- The text `line` between `before` and `after` is a line that includes the file `name`. -/
structure IncludeLine (name before line after : Text) : Prop where
  whole_before : WholeLines before
  includes : ∃ group, Session.lineShapes line = [group] ∧ Includes name group
  /-- The last line of a text may go without its line break. -/
  whole : WholeLines line ∨ after = []

/-- The second file is the first one, or has the text in place of a line that includes the
    file `name`. -/
inductive Spliced (name text : Text) : SourceFile → SourceFile → Prop
  | same (file : SourceFile) : Spliced name text file file
  | line {before line after : Text} (file : Text) (h : IncludeLine name before line after) :
    Spliced name text ⟨file, before ++ line ++ after⟩ ⟨file, before ++ text ++ after⟩

theorem Spliced.name_eq {name text : Text} {file file' : SourceFile}
    (h : Spliced name text file file') :
    file'.name = file.name := by
  cases h <;> rfl

theorem balanced_of_solidLines {groups groups' : List (List Lexeme)} (h : Balanced groups)
    (hsame : Session.solidLines groups = Session.solidLines groups') : Balanced groups' := by
  have hsolid (groups : List (List Lexeme)) (n : Nat) :
      groups.foldlM nestingBehind n = (Session.solidLines groups).foldlM nestingBehind n := by
    induction groups generalizing n with
    | nil => rfl
    | cons group groups ih =>
      have hshape : nestingBehind n group = nestingBehind n (restamp 0 group) :=
        congrFun (nestingBehind_of_restamp (restamp_restamp 0 0 group).symm) n
      rw [Session.solidLines_cons, List.foldlM_cons, hshape]
      split
      next hempty =>
        rw [hempty, nestingBehind_of_none rfl]
        exact ih n
      · rw [List.foldlM_cons]
        exact bind_congr ih
  rw [Balanced, hsolid, ← hsame, ← hsolid]
  exact h

namespace Session

/-! ## One line and the lines in its place -/

variable {f f' g : OpenFile} {s s' t : Session} {name text : Text}
  {enter enter' : Text → Bool → Nat → PreprocessM (OptionT Id) Unit}

/-- An include directive of a kept region that is read with success reads the file, and then
    there is only a line break to write. -/
theorem exists_include (hline : Succeeds (readWatched enter f group) s f' s')
    (hgroup : Includes name group) (hpending : f.pending = []) (hkept : f.conditionals.kept) :
    f' = f ∧ ∃ quoted number u, Succeeds (enter name quoted number) s () u ∧
      WritesNothing { u with macros := u.macros.insert (fileMacro f.name) } s' := by
  obtain ⟨d, quoted, hd, hname, htarget⟩ := hgroup.of_restamp (restamp_renumber f.shift group).symm
  obtain ⟨-, hatOnce, -⟩ := succeeds_readWatched_iff.1 hline
  obtain ⟨f₁, s₁, hread, hflush⟩ := succeeds_bind_iff.1 hatOnce
  unfold readLine at hread
  dsimp only at hread
  rw [hd] at hread
  dsimp only at hread
  rw [hname] at hread
  dsimp only at hread
  rw [if_pos hkept] at hread
  obtain ⟨f₂, s₂, hobey, hreturn⟩ := succeeds_bind_iff.1 hread
  obtain ⟨f₃, s₃, hfirst, htargeted⟩ := succeeds_bind_iff.1 hobey
  obtain ⟨rfl, rfl⟩ := Succeeds.eq (exec_flush_nil hpending) hfirst
  obtain ⟨target, s₄, hfile, henter⟩ := succeeds_bind_iff.1 htargeted
  have hself : Succeeds (includeTarget d.args d.line) s (name, quoted) s := by
    unfold includeTarget
    rw [htarget]
    exact exec_pure _ s
  obtain ⟨rfl, rfl⟩ := hself.eq hfile
  obtain ⟨⟨⟩, u, hentered, hrename⟩ := succeeds_bind_iff.1 henter
  obtain ⟨⟨⟩, u', hrenamed, hback⟩ := succeeds_bind_iff.1 hrename
  obtain ⟨-, rfl⟩ := Succeeds.eq (exec_defineFileName f.name u) hrenamed
  obtain ⟨rfl, rfl⟩ := Succeeds.eq (exec_pure f _) hback
  obtain ⟨rfl, rfl⟩ := Succeeds.eq (exec_pure _ _) hreturn
  obtain ⟨rfl, rfl⟩ := (succeeds_flush_lineBreak hpending _ _).eq hflush
  refine ⟨rfl, quoted, d.line, u, hentered, rfl, ?_⟩
  rw [MarkedText.significant_push, significant_lineBreak, List.append_nil]

variable {base : Conditionals} {groups : List (List Lexeme)}

/-- In kept regions, the lines of the text do what including the file does. -/
def StandsFor (enter enter' : Text → Bool → Nat → PreprocessM (OptionT Id) Unit)
    (name text : Text) : Prop :=
  ∀ (base : Conditionals) (f g : OpenFile) (s t u : Session) (quoted : Bool) (number : Nat)
    (groups : List (List Lexeme)), Watched base f s g t → f.conditionals.kept → base.kept →
    Succeeds (enter name quoted number) s () u → solidLines groups = solidLines (sourceLines text) →
    ∃ g' t', Succeeds (groups.foldlM (readWatched enter') g) t g' t' ∧
      Within base f { u with macros := u.macros.insert (fileMacro f.name) } g' t'

/-- A line that includes a file goes along with the lines of the text that stands for it. -/
theorem follows_includeLine (hbase : base.kept) (h : Watched base f s g t) {group : List Lexeme}
    (hgroup : Includes name group) (hstands : StandsFor enter enter' name text)
    (htext : Balanced (sourceLines text))
    (hsame : solidLines groups = solidLines (sourceLines text)) :
    Follows (Watched base) (readWatched enter f group) s
      (groups.foldlM (readWatched enter') g) t := by
  intro f' s' hline
  have hmacros := (succeeds_readWatched_iff.1 hline).2.2
  have haround := h.conditionals.kept hbase
  by_cases hkept : f.conditionals.kept
  · obtain ⟨rfl, quoted, number, u, henter, hnothing⟩ := exists_include hline hgroup h.pending hkept
    obtain ⟨g', t', hlines, hwithin⟩ :=
      hstands base f' g s t u quoted number groups h hkept hbase henter hsame
    have hinclude : s'.macros = u.macros.insert (fileMacro f'.name) := hnothing.macros
    refine ⟨g', t', hlines, Watched.left ⟨hwithin, ?_⟩ hnothing⟩
    rwa [hinclude] at hmacros
  · have hskipped : f.conditionals.kept = false := by simpa using hkept
    obtain ⟨inner, s'', hpassed, hinner, -, hnothing⟩ := exists_skip_line enter
      (List.forall_mem_nil _) hskipped rfl h.pending h.objectLike (hgroup.nestingBehind 0)
    obtain rfl := List.length_eq_zero_iff.1 hinner
    obtain ⟨rfl, rfl⟩ := hpassed.eq hline
    obtain ⟨t', hlines, hnothing'⟩ := exists_skip enter' (balanced_of_solidLines htext hsame.symm)
      (haround.trans hskipped) h.pending' (h.session.macros.isObjectLike h.objectLike)
    exact ⟨g, t', hlines, (h.left hnothing).right hnothing'⟩

/-! ## One file and the other -/

theorem exists_solidLines {before line after : Text} (h : IncludeLine name before line after)
    (htext : WholeLines text) :
    ∃ group, Includes name group ∧
      solidLines (sourceLines (before ++ line ++ after)) =
        solidLines (sourceLines before) ++ group :: solidLines (sourceLines after) ∧
      solidLines (sourceLines (before ++ text ++ after)) =
        solidLines (sourceLines before) ++
          (solidLines (sourceLines text) ++ solidLines (sourceLines after)) := by
  obtain ⟨group, hshape, hgroup⟩ := h.includes
  have hline : solidLines (sourceLines line) = [group] := by
    show (lineShapes line).filter (· ≠ emptyLine) = _
    rw [hshape, List.filter_cons_of_pos (by simpa using hgroup.ne_emptyLine), List.filter_nil]
  refine ⟨group, hgroup, ?_, ?_⟩
  · rw [List.append_assoc, solidLines_sourceLines_append h.whole_before]
    rcases h.whole with hwhole | rfl
    · rw [solidLines_sourceLines_append hwhole, hline, List.singleton_append]
    · have hnone : sourceLines [] = [] := by decide +kernel
      rw [List.append_nil, hline, hnone]
      rfl
  · rw [List.append_assoc, solidLines_sourceLines_append h.whole_before,
      solidLines_sourceLines_append htext]

/-- The lines of a file go along with those of the file that has the text in place of a line
    that includes. -/
theorem follows_splicedLines (henter : EntersAlike enter enter') (hbase : base.kept)
    (hstands : StandsFor enter enter' name text) (hwhole : WholeLines text)
    (htext : Balanced (sourceLines text)) {file file' : SourceFile}
    (hfile : Spliced name text file file')
    (hplaceless : ∀ group ∈ sourceLines file.contents, PlacelessLine group)
    (h : Watched base f s g t) :
    Follows (Watched base) ((sourceLines file.contents).foldlM (readWatched enter) f) s
      ((sourceLines file'.contents).foldlM (readWatched enter') g) t := by
  cases hfile with
  | same => exact follows_readLines henter hbase rfl hplaceless h
  | line file hline =>
    obtain ⟨shape, hshape, hsolid, hsolid'⟩ := exists_solidLines hline hwhole
    obtain ⟨gs, rest, hgroups, hgs, hrest⟩ := exists_append_of_solidLines hsolid
    obtain ⟨es, group, hs, rfl, hes, hgroup, hhs⟩ := exists_cons_of_solidLines hrest
    obtain ⟨gs', rest', hgroups', hgs', hrest'⟩ := exists_append_of_solidLines hsolid'
    obtain ⟨ts, hs', rfl, hts, hhs'⟩ := exists_append_of_solidLines hrest'
    have hbefore : solidLines (gs ++ es) = solidLines gs' := by
      rw [solidLines_append, hes, List.append_nil, hgs, hgs']
    have hinclude : Includes name group := hshape.of_restamp (by rw [← hgroup, restamp_restamp])
    rw [hgroups, ← List.append_assoc] at hplaceless ⊢
    generalize gs ++ es = as at hbefore hplaceless ⊢
    rw [hgroups', List.foldlM_append, List.foldlM_append]
    rw [List.forall_mem_append, List.forall_mem_cons] at hplaceless
    refine (follows_readLines henter hbase hbefore hplaceless.1 h).bind fun f s g t h => ?_
    rw [List.foldlM_cons, List.foldlM_append]
    refine (follows_includeLine hbase h hinclude hstands htext hts).bind fun f s g t h => ?_
    exact follows_readLines henter hbase (hhs.trans hhs'.symm) hplaceless.2.2 h

/-- At the end of a file, the same conditionals are open. -/
theorem follows_finish (h : Within [] f s g t) : Follows (fun _ s _ t => s.Resembles t)
    (flush f >>= fun f => MonadExcept.ofExcept f.conditionals.finish) s
    (flush g >>= fun g => MonadExcept.ofExcept g.conditionals.finish) t := by
  refine follows_flush_bind h fun a s' hclosed => ?_
  have haround := h.conditionals
  cases hf : f.conditionals with
  | cons c cs =>
    rw [hf] at hclosed
    cases hclosed
  | nil =>
    rw [hf] at hclosed haround
    have hg : g.conditionals = [] := List.map_eq_nil_iff.1 haround
    obtain ⟨-, rfl⟩ := Succeeds.eq (exec_ofExcept (.ok ()) s) hclosed
    rw [hg]
    exact ⟨(), t, exec_ofExcept _ t, h.session⟩

/-- Reading a file goes along with reading the one that has the text in place of a line that
    includes. -/
theorem follows_readFileWithBy (henter : EntersAlike enter enter')
    (hstands : StandsFor enter enter' name text) (hwhole : WholeLines text)
    (htext : Balanced (sourceLines text)) {file file' : SourceFile}
    (hfile : Spliced name text file file')
    (hplaceless : ∀ group ∈ sourceLines file.contents, PlacelessLine group) (h : s.Resembles t) :
    Follows (fun _ s _ t => s.Resembles t) (readFileWithBy readWatched file enter) s
      (readFileWithBy readWatched file' enter') t := by
  refine (follows_defineFileName h file.name file'.name).bind fun _ s _ t h => ?_
  have hstart : Within [] { name := file.name } s { name := file'.name } t :=
    ⟨rfl, rfl, rfl, rfl, rfl, h⟩
  refine Follows.bind (Q := Within []) ?_ fun f s g t h => follows_finish h
  cases hlines : sourceLines file.contents with
  | nil =>
    -- Only here macros with parameters may be left from before.
    cases hfile with
    | same =>
      rw [hlines]
      exact follows_pure hstart
    | line file hline =>
      obtain ⟨group, -, hsolid, -⟩ := exists_solidLines hline hwhole
      rw [hlines] at hsolid
      exact absurd hsolid.symm (List.append_ne_nil_of_right_ne_nil _ (List.cons_ne_nil _ _))
  | cons group groups =>
    rw [← hlines]
    intro f' s' hread
    have hfirst := hread
    rw [hlines, List.foldlM_cons] at hfirst
    obtain ⟨f₁, s₁, hline, -⟩ := succeeds_bind_iff.1 hfirst
    have hwatched : Watched [] { name := file.name } s { name := file'.name } t :=
      ⟨hstart, (succeeds_readWatched_iff.1 hline).1⟩
    obtain ⟨g', t', hread', h⟩ :=
      follows_splicedLines henter rfl hstands hwhole htext hfile hplaceless hwatched f' s' hread
    exact ⟨g', t', hread', h.toWithin⟩

/-! ## Included files -/

variable {files files' : List SourceFile} {b : SourceFile}

/-- The reader of the files of a list that gives up where a macro has parameters. -/
abbrev includeFrom (files : List SourceFile) (depth : Nat) (stack : List Text) :
    Text → Bool → Nat → PreprocessM (OptionT Id) Unit :=
  enterFile (SourceStore.ofList files).orGiveUp stack
    (readFileBy readWatched (SourceStore.ofList files).orGiveUp depth stack)

theorem readFileBy_succ (files : List SourceFile) (depth : Nat) (around : List Text)
    (file : SourceFile) :
    readFileBy readWatched (SourceStore.ofList files).orGiveUp (depth + 1) around file =
      readFileWithBy readWatched file (includeFrom files depth (file.name :: around)) := rfl

theorem succeeds_includeFrom_iff {depth : Nat} {stack : List Text} {quoted : Bool} {number : Nat}
    {u : Unit} :
    Succeeds (includeFrom files depth stack name quoted number) s u s' ↔
      ∃ found, files.find? (·.name == name) = some found ∧ found.name ∉ stack ∧
        Succeeds (readFileBy readWatched (SourceStore.ofList files).orGiveUp depth stack found) s
          u s' := by
  have hfind : Succeeds (liftM ((SourceStore.ofList files).orGiveUp.find ⟨name, quoted,
      stack.headD []⟩)) s (files.find? (·.name == name)) s := by
    rw [Succeeds, exec_lift]
    rfl
  constructor
  · intro h
    obtain ⟨found?, s₁, hfound, hread⟩ := succeeds_bind_iff.1 h
    obtain ⟨rfl, rfl⟩ := hfind.eq hfound
    cases hfile : files.find? (·.name == name) with
    | none =>
      rw [hfile] at hread
      cases hread
    | some found =>
      rw [hfile] at hread
      dsimp only at hread
      split at hread
      · cases hread
      next hmem => exact ⟨found, rfl, hmem, hread⟩
  · rintro ⟨found, hfile, hmem, hread⟩
    refine hfind.bind ?_
    rw [hfile]
    dsimp only
    rw [if_neg hmem]
    exact hread

/-- A file does what its lines do in its place, or it leaves a conditional open. -/
theorem standsFor_includeFrom {depth : Nat} {stack : List Text}
    (hb : files.find? (·.name == b.name) = some b)
    (hplaceless : ∀ group ∈ sourceLines b.contents, PlacelessLine group)
    (htext : Balanced (sourceLines b.contents) → text = b.contents)
    (hinner : b.name ∉ stack →
      ∃ inner, depth = inner + 1 ∧ EntersAlike (includeFrom files inner (b.name :: stack)) enter') :
    StandsFor (includeFrom files depth stack) enter' b.name text := by
  intro base f g s t u quoted number groups h hkept hbase hentered hsame
  obtain ⟨found, hfind, hmem, hread⟩ := succeeds_includeFrom_iff.1 hentered
  obtain rfl : b = found := Option.some.inj (hb.symm.trans hfind)
  obtain ⟨inner, rfl, henter⟩ := hinner hmem
  rw [readFileBy_succ] at hread
  rw [htext (balanced_of_succeeds hread)] at hsame
  obtain ⟨⟨⟩, s₁, hname, hopened⟩ := succeeds_bind_iff.1 hread
  obtain ⟨-, rfl⟩ := Succeeds.eq (exec_defineFileName b.name s) hname
  obtain ⟨f₁, s₂, hlines, hend⟩ := succeeds_bind_iff.1 hopened
  have hmacros : (s.macros.insert (fileMacro b.name)).IsObjectLike :=
    List.forall_mem_cons.2 ⟨rfl, fun m hm => h.objectLike m (List.mem_filter.1 hm).1⟩
  have hresembles : Resembles { s with macros := s.macros.insert (fileMacro b.name) } t :=
    ⟨h.session.macros.insert_left (h.session.macros.isObjectLike h.objectLike) rfl rfl,
      h.session.written⟩
  -- All that is open in place of the file is open around its lines.
  have hstart : Watched g.conditionals { name := b.name } _ g t :=
    ⟨⟨rfl, h.pending', rfl, h.shift', rfl, hresembles⟩, hmacros⟩
  obtain ⟨g', t', hplace, hwatched⟩ := follows_readLines henter
    ((h.conditionals.kept hbase).trans hkept)
    hsame.symm hplaceless hstart f₁ s₂ hlines
  obtain ⟨f₂, s₃, hflush, hfinish⟩ := succeeds_bind_iff.1 hend
  obtain ⟨rfl, rfl⟩ := Succeeds.eq (exec_flush_nil hwatched.pending) hflush
  have haround := hwatched.conditionals
  cases hconditionals : f₁.conditionals with
  | cons c cs =>
    rw [hconditionals] at hfinish
    cases hfinish
  | nil =>
    rw [hconditionals] at hfinish haround
    obtain ⟨-, rfl⟩ := Succeeds.eq (exec_ofExcept (.ok ()) s₂) hfinish
    refine ⟨g', t', hplace, h.pending, hwatched.pending', h.shift, hwatched.shift',
      haround.trans h.conditionals, ?_, hwatched.session.written⟩
    exact hwatched.session.macros.insert_left
      (hwatched.session.macros.isObjectLike hwatched.objectLike) rfl rfl

theorem exists_find?_of_spliced (hfiles : List.Forall₂ (Spliced name text) files files')
    {p : Text → Bool} {found : SourceFile} (hfind : files.find? (p ·.name) = some found) :
    ∃ found', files'.find? (p ·.name) = some found' ∧ Spliced name text found found' := by
  induction hfiles with
  | nil => cases hfind
  | @cons file file' files files' hfile _ ih =>
    rw [List.find?_cons] at hfind ⊢
    rw [hfile.name_eq]
    cases hp : p file.name with
    | true =>
      rw [hp] at hfind
      cases hfind
      exact ⟨file', rfl, hfile⟩
    | false =>
      rw [hp] at hfind
      exact ih hfind

/-- In the second list of files, the text stands in place of lines that include the file `b` of
    the first list. It is the text of `b`, unless `b` leaves a conditional open and cannot be
    included with success. -/
structure InPlace (b : SourceFile) (text : Text) (files files' : List SourceFile) : Prop where
  spliced : List.Forall₂ (Spliced b.name text) files files'
  found : files.find? (·.name == b.name) = some b
  placeless : ∀ file ∈ files, ∀ group ∈ sourceLines file.contents, PlacelessLine group
  whole : WholeLines text
  balanced : Balanced (sourceLines text)
  text_eq : Balanced (sourceLines b.contents) → text = b.contents

variable {names : Finset Text} {depth depth' : Nat} {stack stack' : List Text}

/-- A file goes along with the one where the text is in place, if what it includes does. The
    names that are not on the stack yet are counted, since only what is nested deeper than
    that remains unread. -/
theorem InPlace.follows_readFileBy (h : InPlace b text files files')
    (hnames : ∀ file ∈ files, file.name ∈ names)
    (hinner : ∀ inner inner' stack stack', inner ≤ depth → inner ≤ inner' → stack' ⊆ stack →
      (names \ stack.toFinset).card ≤ inner →
      EntersAlike (includeFrom files inner stack) (includeFrom files' inner' stack'))
    {file file' : SourceFile} (hfile : Spliced b.name text file file')
    (hplaceless : ∀ group ∈ sourceLines file.contents, PlacelessLine group)
    (hdepth : depth ≤ depth') (hstack : stack' ⊆ stack)
    (hcard : (names \ (file.name :: stack).toFinset).card ≤ depth)
    (hsession : s.Resembles t) :
    Follows (fun _ s _ t => s.Resembles t)
      (readFileBy readWatched (SourceStore.ofList files).orGiveUp (depth + 1) stack file) s
      (readFileBy readWatched (SourceStore.ofList files').orGiveUp (depth' + 1) stack'
      file') t := by
  have hsub : file'.name :: stack' ⊆ file.name :: stack := by
    rw [hfile.name_eq]
    exact List.cons_subset_cons _ hstack
  have hmem := List.mem_of_find?_eq_some h.found
  rw [readFileBy_succ, readFileBy_succ]
  refine follows_readFileWithBy (hinner _ _ _ _ le_rfl hdepth hsub hcard)
    (standsFor_includeFrom h.found (h.placeless b hmem) h.text_eq fun hnew => ?_) h.whole
    h.balanced hfile hplaceless hsession
  have hfewer := card_sdiff_cons_lt (hnames b hmem) hnew
  obtain ⟨inner, rfl⟩ : ∃ inner, depth = inner + 1 := Nat.exists_eq_add_one.2 (by omega)
  exact ⟨inner, rfl, hinner _ _ _ _ (by omega) (by omega)
    (List.Subset.trans hsub (List.subset_cons_self _ _))
    (by omega)⟩

/-- What is included goes along, by induction on how deep files may be nested. -/
theorem InPlace.entersAlike (h : InPlace b text files files')
    (hnames : ∀ file ∈ files, file.name ∈ names) (hdepth : depth ≤ depth') (hstack : stack' ⊆ stack)
    (hcard : (names \ stack.toFinset).card ≤ depth) :
    EntersAlike (includeFrom files depth stack) (includeFrom files' depth' stack') := by
  induction depth using Nat.strong_induction_on generalizing depth' stack stack' with
  | h depth ih =>
  intro name quoted line line' s t hsession u s' hentered
  obtain ⟨found, hfind, hmem, hread⟩ := succeeds_includeFrom_iff.1 hentered
  have hfound := List.mem_of_find?_eq_some hfind
  have hfewer := card_sdiff_cons_lt (hnames found hfound) hmem
  obtain ⟨inner, rfl⟩ : ∃ inner, depth = inner + 1 := Nat.exists_eq_add_one.2 (by omega)
  obtain ⟨inner', rfl⟩ : ∃ inner', depth' = inner' + 1 := Nat.exists_eq_add_one.2 (by omega)
  obtain ⟨found', hfind', hspliced⟩ := exists_find?_of_spliced h.spliced (p := (· == name)) hfind
  have hinner (i i' : Nat) (r r' : List Text) (hi : i ≤ inner) (hi' : i ≤ i') (hr : r' ⊆ r)
      (hcard : (names \ r.toFinset).card ≤ i) :
      EntersAlike (includeFrom files i r) (includeFrom files' i' r') :=
    ih i (Nat.lt_succ_of_le hi) hi' hr hcard
  obtain ⟨u', t', hread', hresembles⟩ := h.follows_readFileBy hnames hinner hspliced
    (h.placeless found hfound) (Nat.le_of_succ_le_succ hdepth) hstack (by omega) hsession u s' hread
  refine ⟨u', t', succeeds_includeFrom_iff.2 ⟨found', hfind', ?_, hread'⟩, hresembles⟩
  rw [hspliced.name_eq]
  exact fun hmem' => hmem (hstack hmem')

/-! ## Whole runs -/

/-- Macros defined beforehand that do not ask for places leave a table of such macros. -/
theorem bodiesMeet_of_succeeds_forM {defines : List Predefinition}
    (hdefines : ∀ d ∈ defines, d.Placeless) (hs : s.macros.BodiesMeet Placeless) {u : PUnit}
    (h : Succeeds (defines.forM Session.define) s u s') : s'.macros.BodiesMeet Placeless := by
  induction defines generalizing s with
  | nil =>
    obtain ⟨-, rfl⟩ := Succeeds.eq (exec_pure _ s) h
    exact hs
  | cons d defines ih =>
    rw [List.forall_mem_cons] at hdefines
    obtain ⟨⟨⟩, s₁, hdefine, hrest⟩ := succeeds_bind_iff.1 h
    refine ih hdefines.2 ?_ hrest
    unfold Session.define defineText at hdefine
    rw [Succeeds, exec_defineLexemes, MacroTable.define_eq] at hdefine
    cases hm : MacroTable.readDefinition (scan (d.name ++ ' ' :: d.value.getD [])) with
    | error fault =>
      rw [hm] at hdefine
      cases hdefine
    | ok m =>
      rw [hm] at hdefine
      obtain rfl : { s with macros := s.macros.insert m } = s₁ :=
        congrArg Prod.snd (Option.some.inj hdefine)
      exact MacroTable.bodiesMeet_insert hs fun _ => hdefines.1 m hm

end Session

end IdlFrontend
