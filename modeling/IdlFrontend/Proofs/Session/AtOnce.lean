import IdlFrontend.Proofs.Macro.Condensed
import IdlFrontend.Proofs.Session.LineReader
import IdlFrontend.Proofs.Session.Parallel

/-!
# Writing every line at once

A session collects text over many lines before it expands and writes it, since an
invocation of a macro with parameters may extend over several of them. While no macro has
parameters, it could as well write every line as soon as it has read it: no directive
changes the macros or the name of the file while there is text that waits.

Results:

* `exec_readLineAtOnce_text`: a line of text is expanded with the macros of the moment.
* `parallel_readLineAtOnce`: what is behind is exactly what the session would have written.
* `preprocess_eq_atOnce`: without macros with parameters, it is all the same.
-/

namespace IdlFrontend

namespace Session

open Lexeme

variable {m : Type → Type} [Monad m]

/-! ## The reader -/

/-- Reads a line and writes at once what it adds to the text. -/
def readLineAtOnce : LineReader m := fun enter f group => do
  let f ← readLine enter f group
  flush f

variable {f g : OpenFile} {s t : Session}

theorem expand_nil (table : MacroTable) : table.expand [] = .ok [] :=
  table.expandHiding_nil _ _

/-- Line feeds expand to themselves. -/
theorem expand_lineBreak (table : MacroTable) (group : List Lexeme) {ts us : List Lexeme}
    (h : table.expand ts = .ok us) :
    table.expand (ts ++ lineBreak group) = .ok (us ++ lineBreak group) := by
  have hblank : ∀ b ∈ lineBreak group, b.isBlank := fun b hb =>
    isBlank_of_newline (beq_iff_eq.1 (List.mem_filter.1 hb).2)
  rw [table.expand_append_blank hblank, h]
  rfl

variable [LawfulMonad m]

theorem exec_flush_ok {ts : List Lexeme} (h : s.macros.expand f.pending = .ok ts) :
    exec (flush f : PreprocessM m OpenFile) s =
      pure (.ok { f with pending := [] }, { s with output := s.output.push f.name ts }) := by
  rw [exec_flush, h]

theorem exec_flush_nil (h : f.pending = []) :
    exec (flush f : PreprocessM m OpenFile) s = pure (.ok f, s) := by
  obtain ⟨name, pending, conditionals, shift⟩ := f
  obtain rfl : pending = [] := h
  rw [exec_flush_ok (expand_nil s.macros), MarkedText.push_nil]

/-- A line of text is expanded with the macros of the moment and written, and it is skipped in a
    region that is not kept. -/
theorem exec_readLineAtOnce_text (enter : Text → Bool → Nat → PreprocessM m Unit)
    {group : List Lexeme} (hpending : f.pending = [])
    (hd : directive? (renumber f.shift group) = none) :
    exec (readLineAtOnce enter f group) s =
      if f.conditionals.kept then
        match s.macros.expand (renumber f.shift group) with
        | .ok us => pure (.ok f, { s with output := s.output.push f.name us })
        | .error e => pure (.error e, s)
      else pure (.ok f, s) := by
  obtain ⟨name, pending, conditionals, shift⟩ := f
  obtain rfl : pending = [] := hpending
  dsimp only at hd ⊢
  have hline : exec (readLine enter ⟨name, [], conditionals, shift⟩ group) s =
      pure (.ok (if conditionals.kept then ⟨name, renumber shift group, conditionals, shift⟩
        else ⟨name, [], conditionals, shift⟩), s) := by
    unfold readLine
    dsimp only
    rw [hd]
    exact exec_pure _ s
  rw [readLineAtOnce, exec_bind_ok hline]
  split
  · rw [exec_flush]
    cases s.macros.expand (renumber shift group) <;> rfl
  · exact exec_flush_nil rfl

theorem exec_readLineAtOnce_of_expand (enter : Text → Bool → Nat → PreprocessM m Unit)
    {group us : List Lexeme} (hpending : f.pending = []) (hkept : f.conditionals.kept)
    (hd : directive? (renumber f.shift group) = none)
    (hus : s.macros.expand (renumber f.shift group) = .ok us) :
    exec (readLineAtOnce enter f group) s =
      pure (.ok f, { s with output := s.output.push f.name us }) := by
  rw [exec_readLineAtOnce_text enter hpending hd, if_pos hkept, hus]

/-- Nothing waits behind a line. -/
theorem readLineAtOnce_eq_map (enter : Text → Bool → Nat → PreprocessM m Unit) (f : OpenFile)
    (group : List Lexeme) :
    readLineAtOnce enter f group =
      (fun g => { g with pending := [] }) <$> readLineAtOnce enter f group := by
  simp only [readLineAtOnce, flush, map_bind, map_pure]

/-! ## Text that waits -/

/-- Both sessions have read the same. The first one has not written yet what is pending,
    and the second one has. -/
structure Lags (f : OpenFile) (s : Session) (g : OpenFile) (t : Session) : Prop where
  file : g = { f with pending := [] }
  macros : t.macros = s.macros
  output : ∃ ts, s.macros.expand f.pending = .ok ts ∧ t.output = s.output.push f.name ts

/-- Both sessions have read and written the same. -/
structure Level (f : OpenFile) (s : Session) (g : OpenFile) (t : Session) : Prop where
  file : f = g
  session : s = t
  pending : f.pending = []

theorem Level.lags (h : Level f s g t) : Lags f s g t := by
  obtain ⟨rfl, rfl, hpending⟩ := h
  refine ⟨?_, rfl, [], ?_, (MarkedText.push_nil _ _).symm⟩
  · obtain ⟨name, pending, conditionals, shift⟩ := f
    obtain rfl : pending = [] := hpending
    rfl
  · rw [hpending]
    exact expand_nil _

theorem Lags.setConditionals (h : Lags f s g t) (cs : Conditionals) :
    Lags { f with conditionals := cs } s { g with conditionals := cs } t := by
  obtain ⟨rfl, hmacros, houtput⟩ := h
  exact ⟨rfl, hmacros, houtput⟩

/-- The text that waits is written as it would have been. -/
theorem parallel_flush_of_lags (h : Lags f s g t) :
    Parallel Level (flush f : PreprocessM m OpenFile) s (flush g) t := by
  obtain ⟨rfl, hmacros, ts, hts, houtput⟩ := h
  rw [Parallel, exec_flush_ok hts, exec_flush_nil rfl]
  refine coupled_pure (.ok ⟨rfl, ?_, rfl⟩)
  obtain ⟨macros, output⟩ := t
  obtain rfl : macros = s.macros := hmacros
  obtain rfl : output = s.output.push f.name ts := houtput
  rfl

/-- The line feed of a directive waits, or is written. -/
theorem parallel_lineBreak_of_lags (h : Lags f s g t) (group : List Lexeme) :
    Parallel Lags
      (pure { f with pending := f.pending ++ lineBreak group } : PreprocessM m OpenFile) s
      (flush { g with pending := g.pending ++ lineBreak group }) t := by
  obtain ⟨rfl, hmacros, ts, hts, houtput⟩ := h
  rw [Parallel, exec_pure, exec_flush_ok (expand_lineBreak _ group (expand_nil _))]
  refine coupled_pure (.ok ⟨rfl, hmacros, _, expand_lineBreak _ group hts, ?_⟩)
  show t.output.push f.name (lineBreak group) = s.output.push f.name (ts ++ lineBreak group)
  rw [MarkedText.push_append, houtput]

/-! ## Lines -/

/-- Two ways to read included files have the same effects, and end in the same session. -/
def SameInclude (enter enter' : Text → Bool → Nat → PreprocessM m Unit) : Prop :=
  ∀ name quoted number s,
    Parallel (fun _ s _ t => s = t) (enter name quoted number) s (enter' name quoted number) s

variable {enter enter' : Text → Bool → Nat → PreprocessM m Unit}

theorem parallel_changeLine_of_lags (h : Lags f s g t) (target : List Lexeme) (line : Nat) :
    Parallel Level (changeLine f target line : PreprocessM m OpenFile) s
      (changeLine g target line) t := by
  unfold changeLine
  split
  · exact parallel_throw _
  · refine (parallel_flush_of_lags h).bind ?_
    rintro f s _ _ ⟨rfl, rfl, hpending⟩
    dsimp only
    split
    · split
      · exact parallel_pure ⟨rfl, rfl, hpending⟩
      · refine (parallel_refl (Q := fun _ s _ t => s = t) (fun _ _ => rfl) _ s).bind ?_
        exact fun _ _ _ _ hst => parallel_pure ⟨rfl, hst, hpending⟩
    · exact parallel_throw _

/-- Every directive that could matter to text is obeyed with none waiting. -/
theorem parallel_obey_of_lags (henter : SameInclude enter enter') (h : Lags f s g t)
    (group : List Lexeme) (d : DirectiveLine) (name : CommandName) :
    Parallel Level (obey enter f group d name) s (obey enter' g group d name) t := by
  have hsame {α : Type} (x : PreprocessM m α) (s : Session) :
      Parallel (fun a s b t => a = b ∧ s = t) x s x s := parallel_refl (fun _ _ => ⟨rfl, rfl⟩) x s
  match name with
  | .define =>
    refine (parallel_flush_of_lags h).bind ?_
    rintro f s _ _ ⟨rfl, rfl, hpending⟩
    exact (hsame (defineLexemes d.args d.line) s).bind fun _ _ _ _ hst =>
      parallel_pure ⟨rfl, hst.2, hpending⟩
  | .undef =>
    refine (parallel_flush_of_lags h).bind ?_
    rintro f s _ _ ⟨rfl, rfl, hpending⟩
    split
    · exact parallel_throw _
    · exact (hsame _ s).bind fun _ _ _ _ hst => parallel_pure ⟨rfl, hst.2, hpending⟩
  | .include =>
    refine (parallel_flush_of_lags h).bind ?_
    rintro f s _ _ ⟨rfl, rfl, hpending⟩
    refine (hsame (includeTarget d.args d.line) s).bind ?_
    rintro target s _ _ ⟨rfl, rfl⟩
    refine (henter _ _ _ s).bind ?_
    rintro _ s _ _ rfl
    exact (hsame (defineFileName f.name) s).bind fun _ _ _ _ hst =>
      parallel_pure ⟨rfl, hst.2, hpending⟩
  | .pragma =>
    refine (parallel_flush_of_lags h).bind ?_
    rintro f s _ _ ⟨rfl, rfl, hpending⟩
    exact (hsame _ s).bind fun _ _ _ _ hst => parallel_pure ⟨rfl, hst.2, hpending⟩
  | .line => exact parallel_changeLine_of_lags h _ _

/-- **One line later, what is behind is still exactly what would have been written.** -/
theorem parallel_readLineAtOnce (henter : SameInclude enter enter') (h : Lags f s g t)
    (hmacros : s.macros.IsObjectLike) (group : List Lexeme) :
    Parallel Lags (readLine enter f group) s (readLineAtOnce enter' g group) t := by
  obtain ⟨name, pending, conditionals, shift⟩ := f
  obtain rfl := h.file
  cases hd : directive? (renumber shift group) with
  | none =>
    have hleft : exec (readLine enter ⟨name, pending, conditionals, shift⟩ group) s =
        pure (.ok (if conditionals.kept then
          ⟨name, pending ++ renumber shift group, conditionals, shift⟩
          else ⟨name, pending, conditionals, shift⟩), s) := by
      unfold readLine
      dsimp only
      rw [hd]
      exact exec_pure _ s
    by_cases hkept : conditionals.kept
    · have hus := MacroTable.expand_of_isObjectLike hmacros (renumber shift group)
      have hright := exec_readLineAtOnce_of_expand enter' (f := ⟨name, [], conditionals, shift⟩)
        (s := t) rfl hkept hd ((congrArg (MacroTable.expand · _) h.macros).trans hus)
      obtain ⟨ts, hts, houtput⟩ := h.output
      rw [if_pos hkept] at hleft
      rw [Parallel, hleft, hright]
      refine coupled_pure (.ok ⟨rfl, h.macros, _, MacroTable.expand_append hmacros hts hus, ?_⟩)
      exact (congrArg (MarkedText.push · name _) houtput).trans (MarkedText.push_append ..).symm
    · have hright : exec (readLineAtOnce enter' ⟨name, [], conditionals, shift⟩ group) t =
          pure (.ok ⟨name, [], conditionals, shift⟩, t) :=
        (exec_readLineAtOnce_text enter' rfl hd).trans (if_neg hkept)
      rw [if_neg hkept] at hleft
      rw [Parallel, hleft, hright]
      exact coupled_pure (.ok h)
  | some d =>
    unfold readLineAtOnce readLine
    dsimp only
    rw [hd]
    dsimp only
    split
    next branch hname =>
      simp only [bind_assoc, pure_bind]
      refine parallel_get_bind ?_
      rw [h.macros]
      refine parallel_ofExcept_bind (fun _ => Iff.rfl) fun cs cs' hcs hcs' => ?_
      cases hcs.symm.trans hcs'
      exact parallel_lineBreak_of_lags (h.setConditionals cs) _
    next command hname =>
      split
      · rw [bind_assoc]
        refine (parallel_obey_of_lags henter h _ d command).bind fun f s g t hlevel => ?_
        rw [pure_bind]
        exact parallel_lineBreak_of_lags hlevel.lags _
      · simp only [pure_bind]
        exact parallel_lineBreak_of_lags h _
    · simp only [pure_bind]
      exact parallel_lineBreak_of_lags h _

/-! ## Files -/

section Watched

variable {enter enter' : Text → Bool → Nat → PreprocessM (OptionT m) Unit}

/-- Without macros with parameters, sessions that have the same macros go on side by side. -/
theorem parallel_requireObjectLike_bind {α β : Type} {Q : α → Session → β → Session → Prop}
    {x : PreprocessM (OptionT m) α} {y : PreprocessM (OptionT m) β} (h : t.macros = s.macros)
    (hxy : s.macros.IsObjectLike → Parallel Q x s y t) :
    Parallel Q (requireObjectLike >>= fun _ => x) s (requireObjectLike >>= fun _ => y) t := by
  rw [Parallel, exec_bind, exec_bind, exec_requireObjectLike, exec_requireObjectLike, h]
  split
  next hmacros =>
    rw [pure_bind, pure_bind]
    exact hxy hmacros
  · rw [failure_bind, failure_bind]
    refine ⟨failure, ?_, ?_⟩ <;>
    · rw [map_eq_pure_bind]
      exact failure_bind _

theorem parallel_withoutParameters (henter : SameInclude enter enter') (h : Lags f s g t)
    (group : List Lexeme) :
    Parallel Lags (withoutParameters readLine enter f group) s
      (withoutParameters readLineAtOnce enter' g group) t := by
  refine parallel_requireObjectLike_bind h.macros fun hmacros => ?_
  refine (parallel_readLineAtOnce henter h hmacros group).bind fun f s g t h => ?_
  exact parallel_requireObjectLike_bind h.macros fun _ => parallel_pure h

theorem parallel_readFileBy (store : SourceStore (OptionT m)) (depth : Nat) (around : List Text)
    (file : SourceFile) (s : Session) :
    Parallel (fun _ s _ t => s = t) (readFileBy (withoutParameters readLine) store depth
      around file) s (readFileBy (withoutParameters readLineAtOnce) store depth around file) s := by
  induction depth generalizing around file s with
  | zero => exact parallel_pure rfl
  | succ depth ih =>
    refine (parallel_refl (Q := fun _ s _ t => s = t) (fun _ _ => rfl) _ s).bind ?_
    rintro _ s _ _ rfl
    have hstart : Lags { name := file.name } s { name := file.name } s := Level.lags ⟨rfl, rfl, rfl⟩
    refine (parallel_foldlM (fun group f s g t h => parallel_withoutParameters ?_ h group) _
      hstart).bind fun f s g t h => ?_
    · intro name quoted number s
      refine parallel_lift_bind fun found => ?_
      cases found with
      | none => exact parallel_throw _
      | some found =>
        dsimp only
        split
        · exact parallel_throw _
        · exact ih _ found s
    · refine (parallel_flush_of_lags h).bind ?_
      rintro f s _ _ ⟨rfl, rfl, -⟩
      exact parallel_refl (fun _ _ => rfl) _ s

end Watched

end Session

theorem Session.cutsLine_readLineAtOnce {m : Type → Type} [Monad m] [LawfulMonad m] :
    Session.CutsLine (m := m) Session.readLineAtOnce Session.readLineAtOnce :=
  fun enter enter' h f group =>
    (Session.cutsLine_readLine enter enter' h f group).bind Session.cutsStep_flush

theorem Session.parallel_workBy {m : Type → Type} [Monad m] [LawfulMonad m]
    (store : SourceStore (OptionT m)) (defines : List Predefinition) (file : SourceFile) :
    Session.Parallel (fun _ s _ t => s = t)
      (Session.workBy (Session.withoutParameters Session.readLine) store defines file) {}
      (Session.workBy (Session.withoutParameters Session.readLineAtOnce) store defines
      file) {} := by
  refine (Session.parallel_refl (Q := fun _ s _ t => s = t) (fun _ _ => rfl) _ _).bind ?_
  rintro _ s _ _ rfl
  exact Session.parallel_readFileBy store _ [] file s

/-- Reading with or without delay makes no difference to a session that gives up where a
    macro has parameters. -/
theorem preprocessBy_withoutParameters {m : Type → Type} [Monad m] [LawfulMonad m]
    (store : SourceStore (OptionT m)) (defines : List Predefinition) (file : SourceFile) :
    preprocessBy (Session.withoutParameters Session.readLine) store defines file =
      preprocessBy (Session.withoutParameters Session.readLineAtOnce) store defines file := by
  refine Coupled.eq (Coupled.bind (Session.parallel_workBy store defines file) fun r r' hr =>
    coupled_pure ?_)
  cases hr with
  | ok h => rw [h]
  | error e => rfl

/-- No macro that is defined in a session has parameters, neither beforehand nor on a line of
    a file: the session, started in the given world, never gives up for one. -/
def OnlyObjectLike {World : Type} (store : SourceStore (StateM World))
    (defines : List Predefinition) (file : SourceFile) (w : World) : Prop :=
  (StateT.run (preprocessBy (Session.withoutParameters Session.readLine) store.orGiveUp defines
    file).run w).1.isSome

/-- **Text that waits is not affected by what comes behind it.** Whatever the world is from
    which included files come, and whatever loading them does to it: if only macros without
    parameters are ever defined, a session ends as one that expands and writes every line at
    once, with the macros and the file name of the moment. That one has nothing waiting behind a
    line. So a line of text in a kept region is all that it expands there, by the macros in force
    at this line, and it writes what that gives before it reads on. -/
theorem preprocess_eq_atOnce {World : Type} (store : SourceStore (StateM World))
    (defines : List Predefinition) (file : SourceFile) (w : World)
    (h : OnlyObjectLike store defines file w) :
    StateT.run (preprocess store defines file) w =
        StateT.run (preprocessBy Session.readLineAtOnce store defines file) w ∧
      ∀ (enter : Text → Bool → Nat → PreprocessM (StateM World) Unit) (f : OpenFile)
        (group : List Lexeme),
        Session.readLineAtOnce enter f group =
            (fun g => { g with pending := [] }) <$> Session.readLineAtOnce enter f group ∧
          (f.pending = [] → directive? (Session.renumber f.shift group) = none → ∀ s : Session,
            Session.exec (Session.readLineAtOnce enter f group) s =
              if f.conditionals.kept then
                match s.macros.expand (Session.renumber f.shift group) with
                | .ok us => pure (.ok f, { s with output := s.output.push f.name us })
                | .error e => pure (.error e, s)
              else pure (.ok f, s)) := by
  refine ⟨?_, fun enter f group => ⟨Session.readLineAtOnce_eq_map enter f group,
    fun hpending hd s =>
    Session.exec_readLineAtOnce_text enter hpending hd⟩⟩
  obtain ⟨r, hr⟩ := Option.isSome_iff_exists.1 h
  have hrun : StateT.run (preprocessBy (Session.withoutParameters Session.readLine) store.orGiveUp
      defines file).run w = (some r, _) := Prod.ext hr rfl
  have hline := cuts_preprocessBy Session.cutsLine_readLine.withoutParameters store defines file
  have hatOnce := cuts_preprocessBy
    (Session.cutsLine_readLineAtOnce.withoutParameters) store defines file
  rw [← preprocessBy_withoutParameters] at hatOnce
  rw [← preprocessBy_readLine, hline.run_eq hrun, hatOnce.run_eq hrun]

/-- A store that serves one file and counts how often it is asked. -/
def countingStore : SourceStore (StateM Nat) where
  find request := fun n =>
    (if request.name = ['b'] then some ⟨['b'], "X __FILE__\n#undef X\n".toList⟩ else none, n + 1)
  capacity := 1

/-- A macro that is undefined in an included file, and a file that gets another name. -/
theorem preprocess_eq_atOnce_counting :
    let file : SourceFile :=
      ⟨['a'], "#define X 1\nX\n#include \"b\"\nX\n#line 7 \"c\"\n__FILE__\n".toList⟩
    OnlyObjectLike countingStore [] file 0 ∧
      StateT.run (preprocess countingStore [] file) 0 =
        StateT.run (preprocessBy Session.readLineAtOnce countingStore [] file) 0 := by
  intro file
  have h : OnlyObjectLike countingStore [] file 0 := by
    unfold OnlyObjectLike
    decide +kernel
  exact ⟨h, (preprocess_eq_atOnce countingStore [] file 0 h).1⟩

end IdlFrontend
