import IdlFrontend.Proofs.Include.QuotedName
import IdlFrontend.Proofs.Session.FileMacro
import IdlFrontend.Proofs.Session.Noting
import IdlFrontend.Proofs.Session.Relabel

/-!
# The source that is being read

There is one macro `__FILE__` for all files. It is set where a file is entered, where a line
directive renames it, and where an included file has been left; in between, text is collected
and expanded. A session can record all of this. The record says which files are open and what is
written, and by which macros: each of them has to name the file whose text it expands.

Results:

* `readLine_eq_flush_bind`: a command writes the text in front of it before it does anything else.
* `notingAlways_obey`, `notingAlways_readLineTraced`: commands and lines leave the macro as it
  should be.
* `notingAlways_readFileTraced`: so does an included file, and it leaves the files around it open.
* `always_truthful_preprocessTraced`: a session does the same when it is recorded, its output is
  on the record, and whenever it expands text, `__FILE__` names the source.
-/

namespace IdlFrontend

/-- A line of the file defines or undefines a macro of the given name. -/
def SourceFile.Redefines (file : SourceFile) (name : Text) : Prop :=
  ∃ group ∈ Session.sourceLines file.contents, ∃ d ∈ directive? group,
    (d.name? = some (.command .define) ∨ d.name? = some (.command .undef)) ∧
      firstName? d.args = some name

namespace Session

/-! ## Names in directives -/

/-- A macro that is defined has the name that stands first. -/
theorem firstName?_of_readDefinition {args : List Lexeme} {defined : Macro}
    (h : MacroTable.readDefinition args = .ok defined) :
    firstName? (Lexeme.stripBlank args) = some defined.name := by
  unfold MacroTable.readDefinition at h
  cases hargs : Lexeme.stripBlank args with
  | nil =>
    rw [hargs] at h
    cases h
  | cons name rest =>
    rw [hargs] at h
    dsimp only at h
    split at h
    · cases h
    next hword =>
      rw [firstName?, if_pos (not_not.1 hword)]
      split at h
      · cases h
        rfl
      · split at h
        · split at h <;> cases h
          rfl
        · cases h
          rfl

/-- A directive defines the macro of its first name. -/
theorem find?_of_define {table macros : MacroTable} {d : DirectiveLine} {line : Nat}
    (h : table.define d.args line = .ok macros) {other : Text}
    (hother : firstName? d.args ≠ some other) :
    macros.find? other = table.find? other := by
  rw [MacroTable.define_eq] at h
  cases hread : MacroTable.readDefinition d.args with
  | error fault =>
    rw [hread] at h
    cases h
  | ok defined =>
    rw [hread] at h
    cases h
    have hname := firstName?_of_readDefinition hread
    rw [DirectiveLine.args, Lexeme.stripBlank_stripBlank, ← DirectiveLine.args] at hname
    refine MacroTable.find?_insert_of_ne table defined fun heq => hother ?_
    rw [hname, heq]

/-- The name in a line directive is that of a literal. -/
theorem exists_of_readLineChange {args : List Lexeme} {next : Nat} {name : Text}
    (h : readLineChange args = some (next, some name)) :
    ∃ t ∈ args, t.kind = .string ∧ unquote? t.text = some name := by
  unfold readLineChange at h
  cases hargs : args.filter (!·.isBlank) with
  | nil =>
    rw [hargs] at h
    cases h
  | cons number rest =>
    rw [hargs] at h
    dsimp only at h
    split at h
    · cases h
    cases hnumber : number.text.lineNumber? with
    | none =>
      rw [hnumber] at h
      cases h
    | some n =>
      rw [hnumber] at h
      cases rest with
      | nil => cases h
      | cons file more =>
        dsimp only at h
        split at h
        next hkind =>
          obtain ⟨name, hname, heq⟩ := Option.map_eq_some_iff.1 h
          cases heq
          refine ⟨file, List.mem_of_mem_filter (p := (!·.isBlank)) ?_, hkind, hname⟩
          rw [hargs]
          simp
        · cases h

/-- There is no line feed in a literal. -/
theorem inline_of_unquote? {t : Lexeme} {name : Text} (hkind : t.kind = .string)
    (hwhole : Lexeme.IsWhole t.kind t.text) (h : unquote? t.text = some name) : '\n' ∉ name := by
  obtain ⟨cs, htext, hlength⟩ := Lexeme.eq_of_isWhole_string (hkind ▸ hwhole)
  rw [htext, unquote?] at h
  split at h
  · cases h
    exact fun hmem => Lexeme.not_mem_of_quotedLength hlength (List.mem_of_mem_dropLast hmem)
  · cases h

/-! ## Records -/

/-- What is recorded of a session. -/
inductive SourceEvent where
  /-- A file is entered that the store knows by this name. -/
  | enter (name : Text)
  /-- A line directive gives the innermost file another name. -/
  | rename (name : Text)
  /-- The innermost file has been read to its end. -/
  | leave
  /-- A directive defines or undefines a macro, which has this name if the directive gives one. -/
  | redefine (name : Option Text)
  /-- Collected text of the innermost file is expanded by the macros, and written. -/
  | expand (macros : MacroTable) (ts : List Lexeme)
  /-- What is kept of a pragma line of the innermost file is written. -/
  | pragma (ts : List Lexeme)
deriving DecidableEq, Repr

/-- The names of the open files, the innermost one first, after something has happened. -/
def SourceEvent.after (names : List Text) : SourceEvent → List Text
  | .enter name => name :: names
  | .rename name => name :: names.tail
  | .leave => names.tail
  | .redefine _ | .expand _ _ | .pragma _ => names

/-- The output after something has happened, with the names of the open files. Only expanded
    text and pragma lines are written. -/
def SourceEvent.write (names : List Text) (out : MarkedText) : SourceEvent → MarkedText
  | .expand macros ts =>
    match macros.expand ts with
    | .ok us => out.push (names.headD []) us
    | .error _ => out
  | .pragma ts => out.push (names.headD []) ts
  | .enter _ | .rename _ | .leave | .redefine _ => out

/-- The names of the files that have been entered and not left, the innermost one first. -/
def openNames (trace : List SourceEvent) : List Text := trace.foldl SourceEvent.after []

/-- The output of all that has happened. -/
def written (trace : List SourceEvent) : MarkedText :=
  (trace.foldl (fun r event => (event.after r.1, event.write r.1 r.2)) ([], {})).2

theorem openNames_append (trace : List SourceEvent) (event : SourceEvent) :
    openNames (trace ++ [event]) = event.after (openNames trace) := by
  rw [openNames, List.foldl_append]
  rfl

theorem written_append (trace : List SourceEvent) (event : SourceEvent) :
    written (trace ++ [event]) = event.write (openNames trace) (written trace) := by
  have hnames : (trace.foldl (fun r event => (event.after r.1, event.write r.1 r.2)) ([], {})).1 =
      openNames trace := (List.foldl_hom Prod.fst fun _ _ => rfl).symm
  rw [written, List.foldl_append]
  show event.write (trace.foldl (fun r event => (event.after r.1, event.write r.1 r.2)) ([],
    {})).1 _ = _
  rw [hnames]
  rfl

/-- Whether an event is right behind those before it. Text is expanded by macros of which
    `__FILE__` names the innermost open file, unless a directive has defined or undefined this
    macro. A directive defines or undefines what one of the given files says. -/
def SourceEvent.IsRight (given : SourceFile → Prop) (before : List SourceEvent) : SourceEvent → Prop
  | .expand macros _ => .redefine (some "__FILE__".toList) ∉ before →
    ∃ name around, openNames before = name :: around ∧ macros.NamesSource name
  | .redefine redefined => ∀ name, redefined = some name → ∃ file, given file ∧ file.Redefines name
  | .enter _ | .rename _ | .leave | .pragma _ => True

/-- Each event is right. -/
def Truthful (given : SourceFile → Prop) (trace : List SourceEvent) : Prop :=
  ∀ before event after, trace = before ++ event :: after → event.IsRight given before

variable {given : SourceFile → Prop} {trace : List SourceEvent} {event : SourceEvent}

theorem truthful_nil : Truthful given [] := fun before _ _ h => by simp at h

theorem Truthful.append (h : Truthful given trace) (hevent : event.IsRight given trace) :
    Truthful given (trace ++ [event]) := by
  intro before event' after heq
  rcases List.eq_nil_or_concat after with rfl | ⟨rest, last, rfl⟩
  · obtain ⟨rfl, hlast⟩ := List.append_inj' heq rfl
    rw [← List.singleton_inj.1 hlast]
    exact hevent
  · rw [List.concat_eq_append, ← List.cons_append, ← List.append_assoc] at heq
    exact h before event' rest (List.append_inj' heq rfl).1

/-! ## Sessions that are recorded -/

section Traced

variable {m : Type → Type} [Monad m]

/-- A step of a session that is recorded. -/
abbrev TracedM (m : Type → Type) := PreprocessM (StateT (List SourceEvent) m)

/-- Records what happens next. -/
def record (events : List SourceEvent) : TracedM m Unit := note (· ++ events)

/-- Expands the text collected so far and writes it. -/
def flushTraced (f : OpenFile) : TracedM m OpenFile := do
  let s ← get
  record [.expand s.macros f.pending]
  flush f

/-- The command on a line of a kept region, with the directive that it is in. -/
def command? (f : OpenFile) (group : List Lexeme) : Option (DirectiveLine × CommandName) :=
  match directive? (renumber f.shift group) with
  | none => none
  | some d =>
    match d.name? with
    | some (.command name) => if f.conditionals.kept then some (d, name) else none
    | _ => none

/-- What a command does once the text in front of it has been written. There is nothing to
    record of a line directive that cannot be read, since it fails before that text is
    written. -/
def commandEvents? (f : OpenFile) (group : List Lexeme) (d : DirectiveLine) :
    CommandName → Option (List SourceEvent)
  | .define | .undef => some [.redefine (firstName? d.args)]
  | .include => some []
  | .pragma => some [.pragma (group.filter Lexeme.staysInPragma)]
  | .line => (readLineChange d.lineTarget).map fun change =>
    if change.1 < signedLimit ∧ shiftLine d.line (-f.shift) + 1 < signedLimit then
      (change.2.map SourceEvent.rename).toList
    else []

/-- Reads one line. The text in front of a command is written first; behind that, reading the
    line has no text to write, and only what the command itself does is left to record. -/
def readLineTraced : LineReader (StateT (List SourceEvent) m) := fun enter f group => do
  match (command? f group).bind fun c => commandEvents? f (renumber f.shift group) c.1 c.2 with
  | none => readLine enter f group
  | some events =>
    let f ← flushTraced f
    record events
    readLine enter f group

/-- Writes what is left behind the last line of a file, and leaves it. -/
def leaveTraced (f : OpenFile) : TracedM m OpenFile := do
  let f ← flushTraced f
  record [.leave]
  return f

/-- Reads a file. -/
def readFileTraced : FileReader (StateT (List SourceEvent) m) := fun file enter => do
  record [.enter file.name]
  readLinesBy readLineTraced leaveTraced file enter

end Traced

end Session

/-- The output for a file, with macros defined beforehand, and a record of the session. -/
def preprocessTraced {m : Type → Type} [Monad m] (store : SourceStore m)
    (defines : List Predefinition) (file : SourceFile) :
    StateT (List Session.SourceEvent) m (Except PreprocessError MarkedText) := do
  let work : Session.TracedM m Unit := do
    defines.forM Session.define
    Session.readNested Session.readFileTraced store.noting (store.capacity + 1) [] file
  let (result, s) ← Session.exec work {}
  return result.map fun _ => s.output

namespace Session

/-! ## Lines with a command -/

section Commands

variable {m : Type → Type} [Monad m] {f : OpenFile} {group : List Lexeme} {d : DirectiveLine}
  {name : CommandName} (enter : Text → Bool → Nat → PreprocessM m Unit)

theorem command?_eq_some_iff : command? f group = some (d, name) ↔
    directive? (renumber f.shift group) = some d ∧ d.name? = some (.command name) ∧
    f.conditionals.kept := by
  unfold command?
  cases hd : directive? (renumber f.shift group) with
  | none => simp
  | some d' =>
    dsimp only
    constructor
    · intro h
      rcases hname : d'.name? with _ | (branch | command) <;> rw [hname] at h
      · cases h
      · cases h
      · dsimp only at h
        by_cases hkept : f.conditionals.kept
        · rw [if_pos hkept] at h
          cases h
          exact ⟨rfl, hname, hkept⟩
        · rw [if_neg hkept] at h
          cases h
    · rintro ⟨hd', hname, hkept⟩
      cases hd'
      rw [hname]
      exact if_pos hkept

theorem readLine_of_command (h : command? f group = some (d, name)) :
    readLine enter f group = (do
      let g ← obey enter f (renumber f.shift group) d name
      return { g with pending := g.pending ++ lineBreak (renumber f.shift group) }) := by
  obtain ⟨hd, hname, hkept⟩ := command?_eq_some_iff.1 h
  unfold readLine
  simp only [hd, hname, if_pos hkept]

variable [LawfulMonad m]

theorem flush_of_pending_nil (h : f.pending = []) : (flush f : PreprocessM m OpenFile) = pure f :=
  ext_exec fun _ => exec_flush_nil h

theorem flush_bind_flush (f : OpenFile) :
    (do flush (← flush f)) = (flush f : PreprocessM m OpenFile) := by
  refine ext_exec fun s => ?_
  rw [exec_bind, exec_flush]
  cases s.macros.expand f.pending with
  | error e => exact pure_bind _ _
  | ok ts =>
    rw [pure_bind]
    exact exec_flush_nil rfl

/-- Before a command does anything of which something is recorded, it writes the text in front
    of it. -/
theorem obey_eq_flush_bind {events : List SourceEvent}
    (h : commandEvents? f group d name = some events) :
    obey enter f group d name = (do obey enter (← flush f) group d name) := by
  have hflush {α : Type} (k : OpenFile → PreprocessM m α) :
      flush f >>= k = flush f >>= fun g => flush g >>= k := by
    rw [← bind_assoc, flush_bind_flush]
  match name with
  | .define | .undef | .include | .pragma => exact hflush _
  | .line =>
    obtain ⟨⟨next, renamed⟩, hread, -⟩ := Option.map_eq_some_iff.1 h
    simp only [obey, changeLine, hread]
    exact hflush _

theorem readLine_eq_flush_bind (h : command? f group = some (d, name)) {events : List SourceEvent}
    (hevents : commandEvents? f (renumber f.shift group) d name = some events) :
    readLine enter f group = (do readLine enter (← flush f) group) := by
  have hbehind (g : OpenFile) (hg : g = { f with pending := [] }) :
      readLine enter g group = (do
        let g ← obey enter g (renumber f.shift group) d name
        return { g with pending := g.pending ++ lineBreak (renumber f.shift group) }) := by
    subst hg
    exact readLine_of_command enter (f := { f with pending := [] }) h
  rw [readLine_of_command enter h, obey_eq_flush_bind enter hevents, bind_assoc]
  simp only [flush, bind_assoc, pure_bind, hbehind _ rfl]

end Commands

/-! ## Directives -/

/-- The record is right, and what it says has been written is the output. -/
structure Recorded (given : SourceFile → Prop) (s : Session) (trace : List SourceEvent) : Prop where
  truthful : Truthful given trace
  output : s.output = written trace

/-- Likewise, and in the innermost file, which has the given name, `__FILE__` stands for that
    name unless a directive has defined or undefined it. -/
structure Named (given : SourceFile → Prop) (name : Text) (around : List Text) (s : Session)
    (trace : List SourceEvent) : Prop extends Recorded given s trace where
  names : openNames trace = name :: around
  inline : '\n' ∉ name
  macros : .redefine (some "__FILE__".toList) ∉ trace →
    s.macros.find? "__FILE__".toList = some (fileMacro name)

variable {name : Text} {around : List Text} {s : Session} {f : OpenFile}

/-- One more event. The output is what it says. -/
theorem Recorded.append (h : Recorded given s trace) (event : SourceEvent)
    (hevent : event.IsRight given trace) {s' : Session}
    (houtput : s'.output = event.write (openNames trace) s.output) :
    Recorded given s' (trace ++ [event]) := by
  refine ⟨h.truthful.append hevent, ?_⟩
  rw [houtput, written_append, h.output]

/-- One more event in the innermost file, which keeps its name and its macro. -/
theorem Named.append (h : Named given name around s trace) (event : SourceEvent)
    (hevent : event.IsRight given trace)
    (hnames : event.after (name :: around) = name :: around) {s' : Session}
    (houtput : s'.output = event.write (openNames trace) s.output)
    (hmacros : event ≠ .redefine (some "__FILE__".toList) →
      s'.macros.find? "__FILE__".toList = s.macros.find? "__FILE__".toList) :
    Named given name around s' (trace ++ [event]) := by
  refine ⟨h.toRecorded.append event hevent houtput, ?_, h.inline, fun hfile => ?_⟩
  · rw [openNames_append, h.names]
    exact hnames
  · rw [List.mem_append, not_or, List.mem_singleton] at hfile
    rw [hmacros fun heq => hfile.2 heq.symm]
    exact h.macros hfile.1

section Steps

variable {m : Type → Type} [Monad m] [LawfulMonad m]
  {enter : Text → Bool → Nat → TracedM m Unit} {enter' : Text → Bool → Nat → PreprocessM m Unit}

/-- Expanding the collected text is recorded with macros that name the file. -/
theorem notingAlways_flushTraced (h : Named given f.name around s trace) :
    NotingAlways (m := m) (Truthful given)
      (fun g s' trace' => g = { f with pending := [] } ∧ Named given f.name around s' trace')
      (flushTraced f) trace (flush f) s := by
  have hright : (SourceEvent.expand s.macros f.pending).IsRight given trace := fun hfile =>
    ⟨f.name, around, h.names, MacroTable.namesSource_of_find? (h.macros hfile) h.inline⟩
  refine notingAlways_look_bind (notingAlways_note_bind ?_)
  refine notingAlways_of_exec (exec_flush f s) (exec_flush f s) (h.truthful.append hright)
    fun g hg => ?_
  cases hts : s.macros.expand f.pending with
  | error e =>
    rw [hts] at hg
    cases hg
  | ok ts =>
    rw [hts] at hg
    cases hg
    refine ⟨rfl, h.append _ hright rfl ?_ fun _ => rfl⟩
    rw [h.names, SourceEvent.write, hts]
    rfl

/-- Setting the macro takes no notes. -/
theorem notingAlways_defineFileName (h : Recorded given s trace)
    (hnames : openNames trace = name :: around) (hinline : '\n' ∉ name) :
    NotingAlways (m := m) (Truthful given) (fun _ => Named given name around)
      (defineFileName name) trace (defineFileName name) s := by
  refine notingAlways_of_exec (exec_defineFileName name s) (exec_defineFileName name s)
    h.truthful ?_
  exact fun _ _ => ⟨⟨h.truthful, h.output⟩, hnames, hinline, fun _ =>
    MacroTable.find?_insert_self _ (fileMacro name)⟩

/-- An included file is recorded, and is left at its end. -/
def TracesInclude (given : SourceFile → Prop) (enter : Text → Bool → Nat → TracedM m Unit)
    (enter' : Text → Bool → Nat → PreprocessM m Unit) : Prop :=
  ∀ name quoted line s trace, Recorded given s trace →
    NotingAlways (Truthful given)
      (fun _ s' trace' => Recorded given s' trace' ∧ openNames trace' = openNames trace)
      (enter name quoted line) trace (enter' name quoted line) s

/-- What a directive on a line of the file may do. -/
structure Admitted (given : SourceFile → Prop) (d : DirectiveLine) (command : CommandName) :
    Prop where
  redefined : command = .define ∨ command = .undef →
    ∀ name, firstName? d.args = some name → ∃ file, given file ∧ file.Redefines name
  renamed : ∀ next name, readLineChange d.lineTarget = some (next, some name) → '\n' ∉ name

/-- What is recorded in front of a command is what the command does. -/
theorem notingAlways_obey (henter : TracesInclude given enter enter')
    (h : Named given f.name around s trace) (hpending : f.pending = []) (group : List Lexeme)
    {d : DirectiveLine} {command : CommandName}
    (hd : Admitted given d command) {events : List SourceEvent}
    (hevents : commandEvents? f group d command = some events) :
    NotingAlways (Truthful given) (fun g => Named given g.name around)
      (obey enter f group d command) (trace ++ events) (obey enter' f group d command) s := by
  match command with
  | .define =>
    obtain rfl := Option.some.inj hevents
    have hgiven := hd.redefined (.inl rfl)
    simp only [obey, flush_of_pending_nil hpending, pure_bind]
    refine NotingAlways.bind (Q := fun _ => Named given f.name around) ?_ fun _ s trace h =>
      notingAlways_pure h.truthful h
    refine notingAlways_of_exec (exec_defineLexemes _ _ s) (exec_defineLexemes _ _ s)
      (h.truthful.append hgiven) fun _ hdefine => ?_
    cases hmacros : s.macros.define d.args d.line with
    | error e =>
      rw [hmacros] at hdefine
      cases hdefine
    | ok macros =>
      exact h.append (.redefine (firstName? d.args)) hgiven rfl rfl fun hfile =>
        find?_of_define hmacros fun heq => hfile (congrArg SourceEvent.redefine heq)
  | .undef =>
    obtain rfl := Option.some.inj hevents
    have hgiven := hd.redefined (.inr rfl)
    simp only [obey, flush_of_pending_nil hpending, pure_bind]
    cases hname : firstName? d.args with
    | none => exact notingAlways_throw _ (h.truthful.append fun _ heq => by cases heq)
    | some name =>
      rw [hname] at hgiven
      have herased : Named given f.name around { s with macros := s.macros.erase name }
          (trace ++ [.redefine (some name)]) :=
        h.append (.redefine (some name)) hgiven rfl rfl fun hfile =>
          MacroTable.find?_erase_of_ne s.macros fun heq => hfile (by rw [heq])
      exact (notingAlways_modify (Q := fun _ => Named given f.name around) herased.truthful
        herased).bind fun _ s trace h => notingAlways_pure h.truthful h
  | .include =>
    obtain rfl := Option.some.inj hevents
    simp only [obey, flush_of_pending_nil hpending, pure_bind, List.append_nil]
    refine (notingAlways_includeTarget _ _ h.truthful).bind ?_
    rintro ⟨name, quoted⟩ _ _ ⟨rfl, rfl⟩
    refine (henter name quoted d.line _ _ h.toRecorded).bind ?_
    rintro _ s trace' ⟨hrecorded, hnames⟩
    refine (notingAlways_defineFileName hrecorded (hnames.trans h.names) h.inline).bind
      fun _ s trace h => ?_
    exact notingAlways_pure h.truthful h
  | .pragma =>
    obtain rfl := Option.some.inj hevents
    simp only [obey, flush_of_pending_nil hpending, pure_bind]
    have hwritten : Named given f.name around
        { s with output := s.output.push f.name (group.filter Lexeme.staysInPragma) }
        (trace ++ [.pragma (group.filter Lexeme.staysInPragma)]) := by
      refine h.append (.pragma _) trivial rfl ?_ fun _ => rfl
      rw [h.names]
      rfl
    exact (notingAlways_modify (Q := fun _ => Named given f.name around) hwritten.truthful
      hwritten).bind fun _ s trace h => notingAlways_pure h.truthful h
  | .line =>
    obtain ⟨⟨next, renamed⟩, hread, rfl⟩ := Option.map_eq_some_iff.1 hevents
    simp only [obey, changeLine, hread, flush_of_pending_nil hpending, pure_bind]
    split
    · cases renamed with
      | none =>
        rw [Option.map_none, Option.toList_none, List.append_nil]
        exact notingAlways_pure h.truthful h
      | some name =>
        have hrenamed : Recorded given s (trace ++ [.rename name]) :=
          h.toRecorded.append (.rename name) trivial rfl
        have hnames : openNames (trace ++ [.rename name]) = name :: around := by
          rw [openNames_append, h.names]
          rfl
        exact (notingAlways_defineFileName hrenamed hnames (hd.renamed next name hread)).bind
          fun _ s trace h => notingAlways_pure h.truthful h
    · rw [List.append_nil]
      exact notingAlways_throw _ h.truthful

/-! ## Lines and files -/

/-- What the lines of a given file may do. -/
theorem admitted_of_command? {file : SourceFile} (hgiven : given file) {group : List Lexeme}
    (hgroup : group ∈ sourceLines file.contents) {d : DirectiveLine} {command : CommandName}
    (h : command? f group = some (d, command)) : Admitted given d command := by
  obtain ⟨hd, hname, -⟩ := command?_eq_some_iff.1 h
  refine ⟨fun hcommand name hfirst => ⟨file, hgiven, group, hgroup, ?_⟩, fun next name hread => ?_⟩
  · have hrelabel := directive?_relabel (shiftLine · f.shift) group
    obtain ⟨d₀, hd₀, rfl⟩ := Option.map_eq_some_iff.1 (hrelabel.symm.trans hd)
    rw [DirectiveLine.name?_relabel] at hname
    rw [DirectiveLine.args_relabel, firstName?_relabel] at hfirst
    refine ⟨d₀, hd₀, ?_, hfirst⟩
    rw [hname]
    simpa using hcommand
  · obtain ⟨t, ht, hkind, hquoted⟩ := exists_of_readLineChange hread
    have hmem : t ∈ renumber f.shift group := by
      rw [DirectiveLine.lineTarget] at ht
      split at ht
      · exact mem_of_mem_content hd ht
      · exact mem_of_mem_args hd ht
    exact inline_of_unquote? hkind (proper_renumber hgroup f.shift t hmem).1 hquoted

/-- A line of which nothing is recorded leaves the record as it is. -/
theorem notingAlways_readLine_quiet (h : Named given f.name around s trace) {group : List Lexeme}
    (hquiet : ∀ c ∈ command? f group, commandEvents? f (renumber f.shift group) c.1 c.2 = none) :
    NotingAlways (Truthful given) (fun g => Named given g.name around)
      (readLine enter f group) trace (readLine enter' f group) s := by
  unfold command? at hquiet
  unfold readLine
  dsimp only
  cases hd : directive? (renumber f.shift group) with
  | none =>
    refine notingAlways_pure h.truthful ?_
    split <;> exact h
  | some d =>
    rw [hd] at hquiet
    dsimp only at hquiet ⊢
    cases hname : d.name? with
    | none =>
      rw [pure_bind, pure_bind]
      exact notingAlways_pure h.truthful h
    | some directive =>
      rw [hname] at hquiet
      cases directive with
      | branch name =>
        simp only [pure_bind]
        refine notingAlways_get_bind ?_
        refine (notingAlways_ofExcept (Q := fun _ => Named given f.name around) _ h.truthful
          fun _ _ => h).bind fun _ s trace h => ?_
        exact notingAlways_pure h.truthful h
      | command name =>
        dsimp only at hquiet ⊢
        by_cases hkept : f.conditionals.kept
        · rw [if_pos hkept] at hquiet
          have hnone := hquiet (d, name) rfl
          match name with
          | .define | .undef | .include | .pragma => cases hnone
          | .line =>
            have hread : readLineChange d.lineTarget = none := Option.map_eq_none_iff.1 hnone
            rw [if_pos hkept, if_pos hkept]
            simp only [obey, changeLine, hread]
            exact NotingAlways.bind (Q := fun g => Named given g.name around)
              (notingAlways_throw _ h.truthful) fun _ s trace h => notingAlways_pure h.truthful h
        · rw [if_neg hkept, if_neg hkept, pure_bind, pure_bind]
          exact notingAlways_pure h.truthful h

theorem notingAlways_readLineTraced {file : SourceFile} (hgiven : given file) {group : List Lexeme}
    (hgroup : group ∈ sourceLines file.contents) (henter : TracesInclude given enter enter')
    (h : Named given f.name around s trace) :
    NotingAlways (Truthful given) (fun g => Named given g.name around)
      (readLineTraced enter f group) trace (readLine enter' f group) s := by
  unfold readLineTraced
  cases hevents : (command? f group).bind fun c =>
      commandEvents? f (renumber f.shift group) c.1 c.2 with
  | none => exact notingAlways_readLine_quiet h (Option.bind_eq_none_iff.1 hevents)
  | some events =>
    obtain ⟨⟨d, name⟩, hcommand, hcommandEvents⟩ := Option.bind_eq_some_iff.1 hevents
    rw [readLine_eq_flush_bind enter' hcommand hcommandEvents]
    refine (notingAlways_flushTraced h).bind ?_
    rintro _ s trace ⟨rfl, h⟩
    refine notingAlways_note_bind ?_
    have hcommand' : command? { f with pending := [] } group = some (d, name) := hcommand
    rw [readLine_of_command enter hcommand', readLine_of_command enter' hcommand']
    have hadmitted := admitted_of_command? hgiven hgroup hcommand
    have hobeyed := notingAlways_obey (f := { f with pending := [] }) henter h rfl
      (renumber f.shift group) hadmitted hcommandEvents
    refine hobeyed.bind fun g s trace h => ?_
    exact notingAlways_pure h.truthful h

theorem notingAlways_readFileTraced {store : SourceStore m}
    (hnames : ∀ file, given file → '\n' ∉ file.name)
    (hstore : ∀ request, Always (fun found => ∀ file ∈ found, given file) (store.find request))
    (depth : Nat) (around : List Text) {file : SourceFile} (hgiven : given file)
    (h : Recorded given s trace) :
    NotingAlways (Truthful given)
      (fun _ s' trace' => Recorded given s' trace' ∧ openNames trace' = openNames trace)
      (readNested readFileTraced store.noting depth around file) trace
      (readFile store depth around file) s := by
  induction depth generalizing around file s trace with
  | zero => exact notingAlways_pure h.truthful ⟨h, rfl⟩
  | succ depth ih =>
    have hentered : Recorded given s (trace ++ [.enter file.name]) :=
      h.append (.enter file.name) trivial rfl
    have hopen : openNames (trace ++ [.enter file.name]) = file.name :: openNames trace :=
      openNames_append _ _
    refine notingAlways_note_bind ?_
    refine (notingAlways_defineFileName hentered hopen (hnames file hgiven)).bind
      fun _ s trace' h => ?_
    refine (notingAlways_foldlM (Q := fun _ g => Named given g.name (openNames trace))
      (fun _ _ _ _ h => h.truthful) ?_ h).bind fun g s trace' h => ?_
    · intro before group after hlines g s trace' h
      have hgroup : group ∈ sourceLines file.contents := by
        rw [hlines]
        simp
      refine notingAlways_readLineTraced hgiven hgroup (fun name quoted line s trace' h => ?_) h
      refine notingAlways_find_bind (hstore _) h.truthful fun found hfound => ?_
      cases found with
      | none => exact notingAlways_throw _ h.truthful
      | some found =>
        dsimp only
        split
        · exact notingAlways_throw _ h.truthful
        · exact ih _ (hfound found rfl) h
    · refine NotingAlways.bind (Q := fun g s' trace' => Recorded given s' trace' ∧
        openNames trace' = openNames trace) ?_ fun g s trace' h =>
          notingAlways_ofExcept _ h.1.truthful fun _ _ => h
      rw [← bind_pure (flush g)]
      refine (notingAlways_flushTraced h).bind ?_
      rintro _ s trace' ⟨rfl, h⟩
      have hleft : Recorded given s (trace' ++ [.leave]) := h.toRecorded.append .leave trivial rfl
      have hclosed : openNames (trace' ++ [.leave]) = openNames trace := by
        rw [openNames_append, h.names]
        rfl
      exact notingAlways_note_bind (notingAlways_pure hleft.truthful ⟨hleft, hclosed⟩)

end Steps

variable {file : SourceFile}

/-- **The macro `__FILE__` names the source.** Whatever the store is, a session does the same
    when it is recorded, and all its output is on the record. Whenever text of a file is
    expanded, around and between includes and line directives, `__FILE__` stands for the
    innermost open file: for the name that it is known by, or else for the last one that a line
    directive gave it. This holds up to the first directive that defines or undefines
    `__FILE__`, which one of the files has to contain. -/
theorem always_truthful_preprocessTraced {m : Type → Type} [Monad m] [LawfulMonad m]
    {store : SourceStore m} (hnames : ∀ file, given file → '\n' ∉ file.name) (hgiven : given file)
    (hstore : ∀ request, Always (fun found => ∀ file ∈ found, given file) (store.find request))
    (defines : List Predefinition) :
    Prod.fst <$> StateT.run (preprocessTraced store defines file) [] =
      preprocessMarked store defines file ∧
      Always (fun result => Truthful given result.2 ∧ ∀ out, result.1 = .ok out →
        out = written result.2) (StateT.run (preprocessTraced store defines file) []) := by
  have hdefines (s : Session) (hs : Recorded given s []) :
      NotingAlways (m := m) (Truthful given) (fun _ s' trace => trace = [] ∧ Recorded given s' [])
        (defines.forM Session.define) [] (defines.forM Session.define) s := by
    induction defines generalizing s with
    | nil => exact notingAlways_pure truthful_nil ⟨rfl, hs⟩
    | cons d defines ih =>
      refine (notingAlways_of_exec (Q := fun _ s' trace => trace = [] ∧ Recorded given s' [])
        (exec_defineLexemes _ _ s) (exec_defineLexemes _ _ s) truthful_nil fun _ _ =>
        ⟨rfl, ?_⟩).bind ?_
      · split <;> exact ⟨hs.truthful, hs.output⟩
      · rintro _ s _ ⟨rfl, hs⟩
        exact ih s hs
  have hwork : NotingAlways (m := m) (Truthful given) (fun _ => Recorded given)
      (do
        defines.forM Session.define
        readNested readFileTraced store.noting (store.capacity + 1) [] file) []
      (do defines.forM Session.define; run store file) {} := by
    refine (hdefines {} ⟨truthful_nil, rfl⟩).bind ?_
    rintro _ s _ ⟨rfl, hs⟩
    exact (notingAlways_readFileTraced hnames hstore _ [] hgiven hs).mono fun _ _ _ h => h.1
  refine Coupled.map_fst (Coupled.bind hwork ?_)
  rintro ⟨_, trace⟩ ⟨result, s⟩ ⟨rfl, htruthful, hresult⟩
  refine coupled_pure ⟨rfl, htruthful, fun out hout => ?_⟩
  cases result with
  | error e => cases hout
  | ok =>
    cases hout
    exact (hresult () rfl).output

/-- A file that includes another one and is renamed. In the names are a quote and a backslash. -/
theorem always_truthful_preprocessTraced_quoted :
    let included : SourceFile := ⟨"d\\e".toList, "__FILE__\n".toList⟩
    let file : SourceFile :=
      ⟨"a\"b".toList, "#include \"d\\e\"\n__FILE__\n#line 7 \"c\"\n__FILE__\n".toList⟩
    let store : SourceStore Id := .ofList [included]
    let given := fun f => f = file ∨ f = included
    (∀ f, given f → '\n' ∉ f.name) ∧ given file ∧
      (∀ request, Always (fun found => ∀ f ∈ found, given f) (store.find request)) ∧
      (StateT.run (preprocessTraced store [] file) []).run.1 =
        (preprocessMarked store [] file).run ∧
      Always (fun result => Truthful given result.2 ∧ ∀ out, result.1 = .ok out →
        out = written result.2) (StateT.run (preprocessTraced store [] file) []) ∧
      preprocess store [] file =
        .ok ("# 1 \"d\\u005ce\"\n\"d\\\\e\"\n\n# 2 \"a\"b\"\n" ++
          "\"a\\\"b\"\n\n# 7 \"c\"\n\"c\"\n").toList := by
  intro included file store given
  have hnames : ∀ f, given f → '\n' ∉ f.name := by
    rintro _ (rfl | rfl) <;> decide
  have hstore : ∀ request, Always (fun found => ∀ f ∈ found, given f) (store.find request) :=
    always_find_ofList fun f hf => .inr (List.mem_singleton.1 hf)
  obtain ⟨hsame, htruthful⟩ := always_truthful_preprocessTraced hnames (.inl rfl) hstore []
  have htext : (preprocess store [] file).run =
      .ok ("# 1 \"d\\u005ce\"\n\"d\\\\e\"\n\n# 2 \"a\"b\"\n" ++
        "\"a\\\"b\"\n\n# 7 \"c\"\n\"c\"\n").toList := by
    decide +kernel
  exact ⟨hnames, .inl rfl, hstore, hsame, htruthful, htext⟩

end Session

end IdlFrontend
